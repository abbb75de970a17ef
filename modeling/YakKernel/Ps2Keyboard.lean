/-
# PS/2 scancodes

`Ps2Keyboard::handler` of `io/drivers/ps2/PS2Keyboard.cc`: a run of the handler takes the bytes from
the buffer one by one until it is empty.  The modifiers are fields of the driver; that a prefix
`0xE0` has come is known within a run only.
-/
import YakKernel.Transducer
import Mathlib.Data.List.Induction

namespace Ps2Keyboard

/-! ## The driver -/

/-- `codes` -/
def codes : List Char :=
  [
    '\x00', '\x1b', '1', '2', '3', '4', '5', '6',
    '7', '8', '9', '0', '-', '=', '\x08', '\x09',
    'q', 'w', 'e', 'r', 't', 'y', 'u', 'i',
    'o', 'p', '[', ']', '\x0a', '\x00', 'a', 's',
    'd', 'f', 'g', 'h', 'j', 'k', 'l', ';',
    '\x27', '\x60', '\x00', '\x5c', 'z', 'x', 'c', 'v',
    'b', 'n', 'm', ',', '.', '/', '\x00', '\x00',
    '\x00', ' '] ++
    List.replicate 70 '\x00'

/-- `codes_shifted` -/
def codesShifted : List Char :=
  [
    '\x00', '\x1b', '!', '@', '#', '$', '%', '^',
    '&', '*', '(', ')', '_', '+', '\x08', '\x09',
    'Q', 'W', 'E', 'R', 'T', 'Y', 'U', 'I',
    'O', 'P', '\x7b', '\x7d', '\x0a', '\x00', 'A', 'S',
    'D', 'F', 'G', 'H', 'J', 'K', 'L', ':',
    '\x22', '~', '\x00', '|', 'Z', 'X', 'C', 'V',
    'B', 'N', 'M', '<', '>', '?', '\x00', '\x00',
    '\x00', ' '] ++
    List.replicate 70 '\x00'

structure Modifiers where
  shifted : Bool
  ctrl : Bool
  alt : Bool
  deriving DecidableEq, Repr

/-- The modifiers, and the local variable `extended` of `handler`. -/
structure State where
  modifiers : Modifiers
  extended : Bool
  deriving DecidableEq, Repr

/-- What a make code after `0xE0` writes to the tty. -/
def extendedKey (sc : BitVec 8) : List Char :=
  if sc = 0x48 then ['\x1b', '[', 'A']
  else if sc = 0x50 then ['\x1b', '[', 'B']
  else if sc = 0x4B then ['\x1b', '[', 'D']
  else if sc = 0x4D then ['\x1b', '[', 'C']
  else []

/-- What any other make code writes. -/
def normalKey (modifiers : Modifiers) (sc : BitVec 8) : List Char :=
  let c := (if modifiers.shifted then codesShifted else codes).getD sc.toNat '\x00'
  let c := if modifiers.ctrl ∧ 'a' ≤ c ∧ c ≤ 'z' then Char.ofNat (c.toNat - 'a'.toNat + 1) else c
  (if modifiers.alt then ['\x1b'] else []) ++ if c ≠ '\x00' then [c] else []

/-- One round of the loop of `handler`. -/
def handleByte (s : State) (sc : BitVec 8) : State × List Char :=
  let m := s.modifiers
  if sc = 0x2a ∨ sc = 0xaa ∨ sc = 0x36 ∨ sc = 0xb6 then
    ({ s with modifiers := { m with shifted := sc &&& 0x80 = 0 } }, [])
  else if sc = 0xe0 then ({ s with extended := true }, [])
  else if ¬ s.extended ∧ sc = 0x1D then ({ s with modifiers := { m with ctrl := true } }, [])
  else if ¬ s.extended ∧ sc = 0x9D then ({ s with modifiers := { m with ctrl := false } }, [])
  else if s.extended ∧ sc = 0x1D then
    ({ modifiers := { m with ctrl := true }, extended := false }, [])
  else if s.extended ∧ sc = 0x9D then
    ({ modifiers := { m with ctrl := false }, extended := false }, [])
  else if sc = 0x38 ∧ ¬ s.extended then
    ({ s with modifiers := { m with alt := sc &&& 0x80 = 0 } }, [])
  else if sc = 0xB8 ∧ ¬ s.extended then ({ s with modifiers := { m with alt := false } }, [])
  else if s.extended ∧ sc = 0x38 then
    ({ modifiers := { m with alt := sc &&& 0x80 = 0 }, extended := false }, [])
  else if s.extended ∧ sc = 0xB8 then
    ({ modifiers := { m with alt := false }, extended := false }, [])
  -- key release ignored
  else if sc &&& 0x80 ≠ 0 then (s, [])
  else if s.extended then ({ s with extended := false }, extendedKey sc)
  else (s, normalKey m sc)

/-- What `handler` does first. -/
def restart (s : State) : State := { s with extended := false }

/-- `Ps2Keyboard::handler` on the bytes that it finds: the modifiers at the end, and what the tty is
given. -/
def handler (modifiers : Modifiers) (bytes : List (BitVec 8)) : Modifiers × List Char :=
  let r := Transducer.run handleByte ⟨modifiers, false⟩ bytes
  (r.1.modifiers, r.2)

/-- Consecutive runs of the handler. -/
def handlers (modifiers : Modifiers) (runs : List (List (BitVec 8))) : Modifiers × List Char :=
  let r := Transducer.runs handleByte restart ⟨modifiers, false⟩ runs
  (r.1.modifiers, r.2)

/-! ## Prefixes -/

/-- A shift code, or a release code of another key than Ctrl and Alt: a prefix before it stays. -/
def Keeps (sc : BitVec 8) : Prop :=
  sc = 0x2a ∨ sc = 0xaa ∨ sc = 0x36 ∨ sc = 0xb6 ∨
    (sc &&& 0x80 ≠ 0 ∧ sc ≠ 0x9D ∧ sc ≠ 0xB8)

instance (sc : BitVec 8) : Decidable (Keeps sc) := inferInstanceAs (Decidable (_ ∨ _))

/-- The last prefix has not been used up. -/
def Pending (bytes : List (BitVec 8)) : Prop :=
  ∃ before after, bytes = before ++ 0xe0 :: after ∧ ∀ sc ∈ after, Keeps sc

/-- The code of a key that is released. -/
def IsRelease (sc : BitVec 8) : Prop := sc &&& 0x80 ≠ 0 ∧ sc ≠ 0xe0

/-- The code of a key that is pressed. -/
def IsMake (sc : BitVec 8) : Prop := sc &&& 0x80 = 0

variable {s : State} {sc : BitVec 8} {bytes : List (BitVec 8)} {modifiers : Modifiers}

theorem handleByte_other (s : State) (hshift : ¬ (sc = 0x2a ∨ sc = 0xaa ∨ sc = 0x36 ∨ sc = 0xb6))
    (hextended : sc ≠ 0xe0) (hmodifier : ¬ (sc = 0x1D ∨ sc = 0x9D ∨ sc = 0x38 ∨ sc = 0xB8)) :
    handleByte s sc =
      if sc &&& 0x80 ≠ 0 then (s, [])
      else if s.extended then ({ s with extended := false }, extendedKey sc)
      else (s, normalKey s.modifiers sc) := by
  simp only [not_or] at hmodifier
  obtain ⟨hctrl, hctrlUp, halt, haltUp⟩ := hmodifier
  unfold handleByte
  rw [if_neg hshift, if_neg hextended]
  simp only [hctrl, hctrlUp, halt, haltUp, and_false, false_and, if_false]

/-- The prefix `0xE0` is kept by the codes that keep it, and by no others. -/
theorem handleByte_extended (s : State) (sc : BitVec 8) :
    (handleByte s sc).1.extended = true ↔ sc = 0xe0 ∨ (s.extended = true ∧ Keeps sc) := by
  by_cases hshift : sc = 0x2a ∨ sc = 0xaa ∨ sc = 0x36 ∨ sc = 0xb6
  · rcases hshift with rfl | rfl | rfl | rfl
    all_goals simp [handleByte, Keeps]
  · by_cases hextended : sc = 0xe0
    · simp [handleByte, hextended]
    · by_cases hmodifier : sc = 0x1D ∨ sc = 0x9D ∨ sc = 0x38 ∨ sc = 0xB8
      · rcases hmodifier with rfl | rfl | rfl | rfl
        all_goals
          cases hext : s.extended
          · simp [handleByte, hext]
          · simp [handleByte, Keeps, hext]
      · rw [handleByte_other s hshift hextended hmodifier]
        have hkeeps : Keeps sc ↔ sc &&& 0x80 ≠ 0 := by
          simp only [not_or] at hshift hmodifier
          unfold Keeps
          simp only [hshift, hmodifier, false_or, ne_eq, not_false_eq_true, and_true]
        rw [hkeeps]
        by_cases hrelease : sc &&& 0x80 ≠ 0
        · rw [if_pos hrelease]
          exact ⟨fun h => Or.inr ⟨h, hrelease⟩, fun h => (h.resolve_left hextended).1⟩
        · rw [if_neg hrelease]
          cases hext : s.extended
          · simp [hext]
            exact hextended
          · simp only [if_true, hextended, hrelease, and_false, or_self, Bool.false_eq_true]

theorem run_extended (bytes : List (BitVec 8)) (modifiers : Modifiers) :
    (Transducer.run handleByte ⟨modifiers, false⟩ bytes).1.extended = true ↔ Pending bytes := by
  -- the induction takes the last byte off
  induction bytes using List.reverseRecOn with
  | nil => simp [Transducer.run, Pending]
  | append_singleton bytes sc ih =>
    rw [Transducer.run_append]
    simp only [Transducer.run, handleByte_extended, ih]
    constructor
    · rintro (rfl | ⟨⟨before, after, rfl, hafter⟩, hkeeps⟩)
      · exact ⟨bytes, [], rfl, by simp⟩
      · refine ⟨before, after ++ [sc], by simp, ?_⟩
        intro b hb
        rcases List.mem_append.1 hb with hb | hb
        · exact hafter b hb
        · rw [List.mem_singleton.1 hb]
          exact hkeeps
    · rintro ⟨before, after, hbytes, hafter⟩
      rcases List.eq_nil_or_concat after with rfl | ⟨after, b, rfl⟩
      · left
        exact List.singleton_injective (List.append_inj' hbytes rfl).2
      · right
        rw [List.concat_eq_append, ← List.cons_append, ← List.append_assoc] at hbytes
        obtain ⟨hbefore, hlast⟩ := List.append_inj' hbytes rfl
        obtain rfl := List.singleton_injective hlast
        refine ⟨⟨before, after, hbefore, fun b hb => ?_⟩, ?_⟩
        · exact hafter b (by simp [hb])
        · exact hafter sc (by simp)

/-! ## Batches -/

/-- What the tty is given and what the modifiers become, when a code comes after these bytes. -/
def decode (modifiers : Modifiers) (bytes : List (BitVec 8)) (sc : BitVec 8) :
    Modifiers × List Char :=
  let r := handleByte (Transducer.run handleByte ⟨modifiers, false⟩ bytes).1 sc
  (r.1.modifiers, r.2)

/-- The same when it comes without a prefix. -/
def decodeUnprefixed (modifiers : Modifiers) (bytes : List (BitVec 8)) (sc : BitVec 8) :
    Modifiers × List Char :=
  let r := handleByte (restart (Transducer.run handleByte ⟨modifiers, false⟩ bytes).1) sc
  (r.1.modifiers, r.2)

theorem handler_append (modifiers : Modifiers) (xs ys : List (BitVec 8)) :
    handler modifiers (xs ++ ys) =
      let s := (Transducer.run handleByte ⟨modifiers, false⟩ xs).1
      ((Transducer.run handleByte s ys).1.modifiers,
        (handler modifiers xs).2 ++ (Transducer.run handleByte s ys).2) := by
  unfold handler
  rw [Transducer.run_append]

theorem handlers_two (modifiers : Modifiers) (xs ys : List (BitVec 8)) :
    handlers modifiers [xs, ys] =
      let s := restart (Transducer.run handleByte ⟨modifiers, false⟩ xs).1
      ((Transducer.run handleByte s ys).1.modifiers,
        (handler modifiers xs).2 ++ (Transducer.run handleByte s ys).2) := by
  unfold handlers handler
  simp only [Transducer.runs, List.append_nil]
  rfl

theorem restart_of_not_pending (h : ¬ Pending bytes) :
    restart (Transducer.run handleByte ⟨modifiers, false⟩ bytes).1 =
      (Transducer.run handleByte ⟨modifiers, false⟩ bytes).1 := by
  have hext : (Transducer.run handleByte ⟨modifiers, false⟩ bytes).1.extended = false := by
    rw [← Bool.not_eq_true, run_extended]
    exact h
  generalize Transducer.run handleByte ⟨modifiers, false⟩ bytes = r at hext
  unfold restart
  rw [← hext]

theorem handleByte_up (h : s.extended = true) :
    (handleByte s 0x48).2 = ['\x1b', '[', 'A'] ∧
      (handleByte (restart s) 0x48).2 = if s.modifiers.alt then ['\x1b'] else [] := by
  have hother : ∀ s, handleByte s 0x48 =
      if s.extended then ({ s with extended := false }, extendedKey 0x48)
      else (s, normalKey s.modifiers 0x48) := by
    intro s
    rw [handleByte_other s (by decide) (by decide) (by decide), if_neg (by decide)]
  rw [hother, hother, if_pos h]
  refine ⟨rfl, ?_⟩
  obtain ⟨⟨shifted, ctrl, alt⟩, extended⟩ := s
  cases shifted <;> cases ctrl <;> cases alt <;> rfl

theorem up_ne (h : s.extended = true) :
    (handleByte s 0x48).2 ≠ (handleByte (restart s) 0x48).2 := by
  rw [(handleByte_up h).1, (handleByte_up h).2]
  cases s.modifiers.alt
  · decide
  · decide

/-- Two runs or one: the same, whatever comes in the second, unless a prefix is pending. -/
theorem cut_iff (modifiers : Modifiers) (xs : List (BitVec 8)) :
    (∀ ys, handlers modifiers [xs, ys] = handler modifiers (xs ++ ys)) ↔ ¬ Pending xs := by
  constructor
  · intro h hpending
    have hup := congrArg Prod.snd (h [0x48])
    rw [handlers_two, handler_append] at hup
    simp only [Transducer.run, List.append_nil] at hup
    exact up_ne ((run_extended xs modifiers).2 hpending) (List.append_cancel_left hup).symm
  · intro h ys
    rw [handlers_two, handler_append]
    simp only [restart_of_not_pending h]

theorem handlers_eq_handler (modifiers : Modifiers) (runs : List (List (BitVec 8)))
    (h : ∀ xs ∈ runs.dropLast, ¬ Pending xs) :
    handlers modifiers runs = handler modifiers runs.flatten := by
  unfold handlers handler
  by_cases hne : runs = []
  · rw [hne]
    rfl
  · have hjoin : Transducer.runs handleByte restart ⟨modifiers, false⟩ runs =
        Transducer.run handleByte (restart ⟨modifiers, false⟩) runs.flatten :=
      Transducer.runs_eq_run hne fun xs hxs s => restart_of_not_pending (h xs hxs)
    rw [hjoin]
    rfl

theorem decode_iff (modifiers : Modifiers) (bytes : List (BitVec 8)) :
    (∀ sc, IsMake sc → decode modifiers bytes sc = decodeUnprefixed modifiers bytes sc) ↔
      ¬ Pending bytes := by
  constructor
  · intro h hpending
    have hup := congrArg Prod.snd (h 0x48 (by unfold IsMake; decide))
    exact up_ne ((run_extended bytes modifiers).2 hpending) hup
  · intro h sc _
    unfold decode decodeUnprefixed
    rw [restart_of_not_pending h]

/-- **Decoding does not depend on the runs** when no prefix is pending at the end of a run, nor
after a release code: exactly then a cut makes no difference, and the next make code is decoded as
one without a prefix. -/
theorem decoding_steady (modifiers : Modifiers) :
    (∀ runs, (∀ xs ∈ runs.dropLast, ¬ Pending xs) →
      handlers modifiers runs = handler modifiers runs.flatten) ∧
    (∀ xs, (∀ ys, handlers modifiers [xs, ys] = handler modifiers (xs ++ ys)) ↔ ¬ Pending xs) ∧
    (∀ xs r, IsRelease r →
      ((∀ sc, IsMake sc →
        decode modifiers (xs ++ [r]) sc = decodeUnprefixed modifiers (xs ++ [r]) sc) ↔
        ¬ Pending (xs ++ [r]))) :=
  ⟨handlers_eq_handler modifiers, cut_iff modifiers, fun xs r _ => decode_iff modifiers (xs ++ [r])⟩

/-- A letter, in a run of its own, and the release of its key. -/
theorem decoding_steady_letter : handlers ⟨false, false, false⟩ [[0x1E], [0x9E]] =
      handler ⟨false, false, false⟩ [0x1E, 0x9E] ∧
    ∀ sc, IsMake sc → decode ⟨false, false, false⟩ [0x1E, 0x9E] sc =
      decodeUnprefixed ⟨false, false, false⟩ [0x1E, 0x9E] sc := by
  have hkey : ¬ Pending [0x1E] := by
    rw [← run_extended _ ⟨false, false, false⟩]
    decide
  have hrelease : ¬ Pending ([0x1E] ++ [0x9E]) := by
    rw [← run_extended _ ⟨false, false, false⟩]
    decide
  obtain ⟨hruns, -, hdecode⟩ := decoding_steady ⟨false, false, false⟩
  exact ⟨hruns [[0x1E], [0x9E]] (by simpa using hkey),
    (hdecode [0x1E] 0x9E (by unfold IsRelease; decide)).2 hrelease⟩

/-- `Up` cut after its prefix is lost, and so is the letter `a` after the release of `Up`. -/
theorem decoding_differs :
    (∃ modifiers runs, handlers modifiers runs ≠ handler modifiers runs.flatten) ∧
      ∃ modifiers xs r, IsRelease r ∧ ∃ sc, IsMake sc ∧
        decode modifiers (xs ++ [r]) sc ≠ decodeUnprefixed modifiers (xs ++ [r]) sc := by
  constructor
  · refine ⟨⟨false, false, false⟩, [[0xe0], [0x48]], ?_⟩
    decide
  · refine ⟨⟨false, false, false⟩, [0xe0], 0xC8, by unfold IsRelease; decide, 0x1E,
      by unfold IsMake; decide, ?_⟩
    decide

end Ps2Keyboard
