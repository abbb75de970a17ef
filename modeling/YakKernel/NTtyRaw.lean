/-
# Raw reads

The branch of `read` in `kernel/io/tty/n_tty.c` for raw mode, from one loop test to the next.  The
input is what comes in while the only reader waits: some bytes, or the time `VTIME` runs out.  The
loop goes on until there are `VMIN` bytes, and takes no more than fit into the reader's buffer.
-/
import YakKernel.NTtyWakeup

namespace NTty.Raw

/-! ## The input -/

/-- How a wait ends. -/
inductive Arrival
  /-- At least one character has come in. -/
  | bytes (c : UInt8) (rest : List UInt8)
  /-- `sched_wait` returns an error. -/
  | timeout
  deriving DecidableEq

/-- `receive_char` in raw mode, once for each character. -/
def receiveChars (rb : RingBuffer UInt8) (cs : List UInt8) : RingBuffer UInt8 :=
  cs.foldl (fun rb c => (rb.put [c]).2) rb

/-- The timeout of a wait in nanoseconds, or none for `TIMEOUT_INFINITE`. -/
def waitTimeout (rd : Read) : Option ℕ := if rd.vtime > 0 then some (rd.vtime * 100000000) else none

/-- `sched_wait`: what ends it, if anything does.  Without a timeout the time does not run out. -/
def schedWait (timeout : Option ℕ) : List Arrival → Option (Arrival × List Arrival)
  | [] => none
  | .bytes c rest :: input => some (.bytes c rest, input)
  | .timeout :: input =>
    if timeout.isSome then some (.timeout, input) else schedWait timeout input

/-! ## The loop -/

/-- What becomes of a read: `*read_bytes` bytes, what is left in the buffer and what has not come in
yet; or it waits for ever. -/
inductive Outcome (β : Type) where
  | returned (got : List UInt8) (left : β) (input : List Arrival)
  | waiting (got : List UInt8)
  deriving DecidableEq

/-- The outcome in terms of what the buffer holds. -/
def Outcome.contents : Outcome (RingBuffer UInt8) → Outcome (List UInt8)
  | .returned got rb input => .returned got rb.contents input
  | .waiting got => .waiting got

/-- The loop of `read` in raw mode. -/
def readLoop : ℕ → Read → RingBuffer UInt8 → List Arrival → Option (Outcome (RingBuffer UInt8))
  | 0, _, _, _ => none
  | fuel + 1, rd, rb, input =>
    if rd.goesOn then
      if rb.available > 0 then
        let r := rb.get (rd.size rb)
        if rd.vmin = 0 then some (.returned (rd.got ++ r.1) r.2 input)
        else readLoop fuel { rd with got := rd.got ++ r.1, firstByte := false } r.2 input
      else
        match schedWait (waitTimeout rd) input with
        | none => some (.waiting rd.got)
        | some (.timeout, input) => some (.returned rd.got rb input)
        | some (.bytes c rest, input) =>
          let rb := receiveChars rb (c :: rest)
          if rd.vtime > 0 ∧ rd.firstByte = false ∧ rb.available = 0 then
            some (.returned rd.got rb input)
          else readLoop fuel rd rb input
    else some (.returned rd.got rb input)

/-- `read` in raw mode with these settings. -/
def rawRead (fuel : ℕ) (vmin vtime : UInt8) (len : ℕ) (rb : RingBuffer UInt8)
    (input : List Arrival) : Option (Outcome (RingBuffer UInt8)) :=
  readLoop fuel
    (Read.start { defaultTermios with icanon := false, vmin := vmin, vtime := vtime } len) rb input

/-- A read in raw mode that has these bytes. -/
def collecting (vmin vtime : UInt8) (len : ℕ) (got : List UInt8) (firstByte : Bool) : Read where
  icanon := false
  vmin := vmin.toNat
  vtime := vtime.toNat
  len := len
  got := got
  firstByte := firstByte

/-! ## What the settings ask for -/

/-- How many bytes are enough. -/
def enough (vmin vtime len : ℕ) : ℕ :=
  if vmin = 0 ∧ vtime = 0 then 0 else min len (max vmin 1)

/-- A read that collects bytes until there are `n`, or the time runs out. -/
def collect (n len capacity : ℕ) (timed : Bool) : List UInt8 → List Arrival → Outcome (List UInt8)
  | bytes, [] =>
    if n ≤ bytes.length then .returned (bytes.take len) (bytes.drop len) [] else .waiting bytes
  | bytes, .bytes c rest :: input =>
    if n ≤ bytes.length then .returned (bytes.take len) (bytes.drop len) (.bytes c rest :: input)
    else collect n len capacity timed (bytes ++ (c :: rest).take capacity) input
  | bytes, .timeout :: input =>
    if n ≤ bytes.length then .returned (bytes.take len) (bytes.drop len) (.timeout :: input)
    else if timed then .returned bytes [] input
    else collect n len capacity timed bytes input

/-- The read that the settings ask for. -/
def collectFor (vmin vtime : UInt8) (len : ℕ) (rb : RingBuffer UInt8) (input : List Arrival) :
    Outcome (List UInt8) :=
  collect (enough vmin.toNat vtime.toNat len) len rb.capacity (decide (0 < vtime.toNat)) rb.contents
    input

/-- **The claim of a terminal's reader**: the read comes to an end, or waits, as its settings ask
for; and it never returns more than the length. -/
def Obeys (vmin vtime : UInt8) (len : ℕ) (rb : RingBuffer UInt8) (input : List Arrival) : Prop :=
  (∃ fuel, (rawRead fuel vmin vtime len rb input).map Outcome.contents =
    some (collectFor vmin vtime len rb input)) ∧
  ∀ fuel got left rest, rawRead fuel vmin vtime len rb input = some (.returned got left rest) →
    got.length ≤ len

/-- How many bytes come in before the time runs out. -/
def arrived (capacity : ℕ) (timed : Bool) : List Arrival → ℕ
  | [] => 0
  | .bytes _ rest :: input => min capacity (rest.length + 1) + arrived capacity timed input
  | .timeout :: input => if timed then 0 else arrived capacity timed input

/-- When the loop does what it should: something is there, or a wait is right; and the reader's
buffer holds `VMIN` bytes, or is not filled. -/
def Suits (vmin vtime : UInt8) (len : ℕ) (rb : RingBuffer UInt8) (input : List Arrival) : Prop :=
  (vmin = 0 → rb.contents ≠ [] ∨ 0 < vtime ∧ 0 < len) ∧
  (len < vmin.toNat →
    rb.contents.length + arrived rb.capacity (decide (0 < vtime.toNat)) input < len)

instance (vmin vtime : UInt8) (len : ℕ) (rb : RingBuffer UInt8) (input : List Arrival) :
    Decidable (Suits vmin vtime len rb input) := inferInstanceAs (Decidable (_ ∧ _))

variable {rd : Read} {rb : RingBuffer UInt8} {input rest : List Arrival} {fuel n len : ℕ}
  {vmin vtime : UInt8} {got : List UInt8}

/-! ## The buffer -/

theorem receiveChars_spec (h : rb.WellFormed) (cs : List UInt8) :
    (receiveChars rb cs).WellFormed ∧ (receiveChars rb cs).capacity = rb.capacity ∧
      (receiveChars rb cs).contents =
        rb.contents ++ cs.take (rb.capacity - rb.contents.length) := by
  induction cs generalizing rb with
  | nil => exact ⟨h, rfl, by simp [receiveChars]⟩
  | cons c cs ih =>
    have hput := RingBuffer.put_wellFormed h [c]
    have hcapacity := rb.put_capacity [c]
    obtain ⟨hwf, hsame, hcontents⟩ := ih hput
    refine ⟨hwf, hsame.trans hcapacity, hcontents.trans ?_⟩
    have hlength := RingBuffer.contents_length h
    rw [hcapacity, RingBuffer.put_contents h, RingBuffer.put_fst, hlength]
    by_cases hfree : rb.size < rb.capacity
    · obtain ⟨free, hfree⟩ := Nat.exists_eq_add_of_lt hfree
      have hone : min [c].length (rb.capacity - rb.size) = 1 := by
        rw [List.length_singleton]
        omega
      have hrest : rb.capacity - (rb.contents ++ [c].take 1).length = free := by
        rw [List.length_append, hlength, List.take_one, List.head?_cons, Option.toList_some,
          List.length_singleton]
        omega
      rw [hone, hrest, show rb.capacity - rb.size = free + 1 by omega, List.take_succ_cons]
      simp
    · have hzero : rb.capacity - rb.size = 0 := by omega
      rw [hzero, Nat.min_zero, List.take_zero, List.append_nil, hlength, hzero]
      simp

theorem contents_receiveChars (h : rb.WellFormed) (hempty : rb.contents = []) (c : UInt8)
    (cs : List UInt8) : (receiveChars rb (c :: cs)).contents = (c :: cs).take rb.capacity := by
  rw [(receiveChars_spec h (c :: cs)).2.2, hempty]
  rfl

theorem not_available (h : rb.WellFormed) (hempty : rb.contents = []) : ¬ rb.available > 0 := by
  rw [RingBuffer.available, ← RingBuffer.contents_length h, hempty]
  exact lt_irrefl 0

theorem available_receiveChars (h : rb.WellFormed) (hempty : rb.contents = []) (c : UInt8)
    (cs : List UInt8) : (receiveChars rb (c :: cs)).available > 0 := by
  have hpos := h.pos
  rw [RingBuffer.available, ← RingBuffer.contents_length (receiveChars_spec h _).1,
    contents_receiveChars h hempty, List.length_take, List.length_cons]
  omega

theorem get_size (h : rb.WellFormed) (hicanon : rd.icanon = false) :
    (rb.get (rd.size rb)).1 = rb.contents.take (rd.len - rd.got.length) ∧
      (rb.get (rd.size rb)).2.contents = rb.contents.drop (rd.len - rd.got.length) := by
  obtain ⟨hgot, hleft⟩ := RingBuffer.get_contents h (rd.size rb)
  have hlength := RingBuffer.contents_length h
  have hsize : rd.size rb = min rb.contents.length (rd.len - rd.got.length) := by
    rw [Read.size, hicanon, hlength]
    rfl
  rw [hgot, hleft, hsize]
  constructor
  · exact List.take_eq_take_iff.mpr (by omega)
  · by_cases hle : rb.contents.length ≤ rd.len - rd.got.length
    · rw [Nat.min_eq_left hle, List.drop_length, List.drop_eq_nil_of_le hle]
    · rw [Nat.min_eq_right (by omega)]

/-! ## What any read does -/

theorem schedWait_shorter {timeout : Option ℕ} {a : Arrival}
    (h : schedWait timeout input = some (a, rest)) : rest.length < input.length := by
  induction input with
  | nil => cases h
  | cons b input ih =>
    cases b with
    | bytes c cs =>
      cases h
      exact Nat.lt_succ_self _
    | timeout =>
      rw [schedWait] at h
      split at h
      · cases h
        exact Nat.lt_succ_self _
      · exact (ih h).trans (Nat.lt_succ_self _)

theorem goesOn_collecting (vtime : UInt8) (len : ℕ) (firstByte : Bool) :
    (collecting vmin vtime len got firstByte).goesOn = true ↔
      got = [] ∨ got.length < vmin.toNat := by
  have hpos : got.length < vmin.toNat → vmin.toNat > 0 := fun hlt => by omega
  show (false || got.length == 0 ||
    (decide (vmin.toNat > 0) && decide (got.length < vmin.toNat))) = true ↔ _
  simp only [Bool.false_or, Bool.or_eq_true, beq_iff_eq, List.length_eq_zero_iff,
    Bool.and_eq_true, decide_eq_true_eq]
  tauto

section
variable {firstByte : Bool}

theorem readLoop_done (hne : got ≠ []) (hvmin : vmin.toNat ≤ got.length) :
    readLoop (fuel + 1) (collecting vmin vtime len got firstByte) rb input =
      some (.returned got rb input) := by
  have hends : ¬ (collecting vmin vtime len got firstByte).goesOn = true := by
    rw [goesOn_collecting]
    rintro (hnil | hlt)
    · exact hne hnil
    · omega
  rw [readLoop, if_neg hends]
  rfl

theorem readLoop_take (vtime : UInt8) (len : ℕ) (firstByte : Bool) (input : List Arrival)
    (hwf : rb.WellFormed) (hpos : vmin ≠ 0)
    (hgo : got = [] ∨ got.length < vmin.toNat) (hne : rb.contents ≠ []) :
    ∃ rb' : RingBuffer UInt8, rb'.WellFormed ∧ rb'.capacity = rb.capacity ∧
      rb'.contents = rb.contents.drop (len - got.length) ∧ (len ≤ got.length → rb' = rb) ∧
      ∀ fuel, readLoop (fuel + 1) (collecting vmin vtime len got firstByte) rb input =
        readLoop fuel
          (collecting vmin vtime len (got ++ rb.contents.take (len - got.length)) false)
          rb' input := by
  obtain ⟨hgot, hleft⟩ := get_size hwf
    (rfl : (collecting vmin vtime len got firstByte).icanon = false)
  refine ⟨_, RingBuffer.get_wellFormed hwf _, rb.get_capacity _, hleft, ?_, fun fuel => ?_⟩
  · intro hfull
    have hzero : (collecting vmin vtime len got firstByte).size rb = 0 := by
      have hmin : (collecting vmin vtime len got firstByte).size rb =
        min rb.available (len - got.length) := rfl
      omega
    rw [hzero]
    rfl
  · have havailable : rb.available > 0 := by
      rw [RingBuffer.available, ← RingBuffer.contents_length hwf]
      exact List.length_pos_iff.mpr hne
    have hvmin : ¬ (collecting vmin vtime len got firstByte).vmin = 0 := by
      intro hzero
      exact hpos (UInt8.toNat_inj.mp hzero)
    rw [readLoop, if_pos ((goesOn_collecting ..).mpr hgo), if_pos havailable]
    simp only [if_neg hvmin, hgot]
    rfl

theorem readLoop_take_zero (vtime : UInt8) (len : ℕ) (firstByte : Bool) (input : List Arrival)
    (hwf : rb.WellFormed) (hne : rb.contents ≠ []) :
    ∃ rb' : RingBuffer UInt8, rb'.contents = rb.contents.drop len ∧
      ∀ fuel, readLoop (fuel + 1) (collecting 0 vtime len [] firstByte) rb input =
        some (.returned (rb.contents.take len) rb' input) := by
  obtain ⟨hgot, hleft⟩ := get_size hwf (rfl : (collecting 0 vtime len [] firstByte).icanon = false)
  refine ⟨_, hleft, fun fuel => ?_⟩
  have havailable : rb.available > 0 := by
    rw [RingBuffer.available, ← RingBuffer.contents_length hwf]
    exact List.length_pos_iff.mpr hne
  rw [readLoop, if_pos ((goesOn_collecting ..).mpr (.inl rfl)), if_pos havailable]
  simp only [hgot]
  rfl

theorem waitTimeout_collecting : waitTimeout (collecting vmin vtime len got firstByte) =
    if 0 < vtime.toNat then some (vtime.toNat * 100000000) else none := rfl

theorem readLoop_wait_none (hgo : got = [] ∨ got.length < vmin.toNat) (hempty : rb.contents = [])
    (hwf : rb.WellFormed)
    (h : schedWait (waitTimeout (collecting vmin vtime len got firstByte)) input = none) :
    readLoop (fuel + 1) (collecting vmin vtime len got firstByte) rb input =
      some (.waiting got) := by
  rw [readLoop, if_pos ((goesOn_collecting ..).mpr hgo), if_neg (not_available hwf hempty)]
  simp only [h]
  rfl

theorem readLoop_wait_timeout (hgo : got = [] ∨ got.length < vmin.toNat)
    (hempty : rb.contents = []) (hwf : rb.WellFormed)
    (h : schedWait (waitTimeout (collecting vmin vtime len got firstByte)) input =
      some (.timeout, rest)) :
    readLoop (fuel + 1) (collecting vmin vtime len got firstByte) rb input =
      some (.returned got rb rest) := by
  rw [readLoop, if_pos ((goesOn_collecting ..).mpr hgo), if_neg (not_available hwf hempty)]
  simp only [h]
  rfl

theorem readLoop_wait_bytes (hgo : got = [] ∨ got.length < vmin.toNat)
    (hempty : rb.contents = []) (hwf : rb.WellFormed) {c : UInt8} {cs : List UInt8}
    (h : schedWait (waitTimeout (collecting vmin vtime len got firstByte)) input =
      some (.bytes c cs, rest)) :
    readLoop (fuel + 1) (collecting vmin vtime len got firstByte) rb input =
      readLoop fuel (collecting vmin vtime len got firstByte) (receiveChars rb (c :: cs)) rest := by
  have hsome := available_receiveChars hwf hempty c cs
  rw [readLoop, if_pos ((goesOn_collecting ..).mpr hgo), if_neg (not_available hwf hempty)]
  simp only [h]
  rw [if_neg]
  rintro ⟨-, -, hnone⟩
  omega

/-- **A read never returns more than the length**, and a read that waits first has used some of
the input. -/
theorem readLoop_returned (hwf : rb.WellFormed) (hgot : vmin = 0 → got = [])
    (hlen : got.length ≤ len) {bytes : List UInt8} {left : RingBuffer UInt8}
    (h : readLoop fuel (collecting vmin vtime len got firstByte) rb input =
      some (.returned bytes left rest)) :
    bytes.length ≤ len ∧ rest.length ≤ input.length ∧
      (rb.contents = [] → got = [] ∨ got.length < vmin.toNat → rest.length < input.length) := by
  induction fuel generalizing got rb input firstByte with
  | zero => cases h
  | succ fuel ih =>
    by_cases hgo : got = [] ∨ got.length < vmin.toNat
    · by_cases hempty : rb.contents = []
      · -- the read waits
        have hshorter : bytes.length ≤ len ∧ rest.length < input.length := by
          cases hwait : schedWait (waitTimeout (collecting vmin vtime len got firstByte)) input with
          | none =>
            rw [readLoop_wait_none hgo hempty hwf hwait] at h
            cases h
          | some r =>
            obtain ⟨a, rest'⟩ := r
            have hlt := schedWait_shorter hwait
            cases a with
            | timeout =>
              rw [readLoop_wait_timeout hgo hempty hwf hwait] at h
              cases h
              exact ⟨hlen, hlt⟩
            | bytes c cs =>
              rw [readLoop_wait_bytes hgo hempty hwf hwait] at h
              have hend := ih (receiveChars_spec hwf _).1 hgot hlen h
              exact ⟨hend.1, lt_of_le_of_lt hend.2.1 hlt⟩
        exact ⟨hshorter.1, hshorter.2.le, fun _ _ => hshorter.2⟩
      · by_cases hzero : vmin = 0
        · subst hzero
          obtain rfl := hgot rfl
          obtain ⟨rb', -, htake⟩ := readLoop_take_zero vtime len firstByte input hwf hempty
          rw [htake] at h
          cases h
          exact ⟨List.length_take_le _ _, le_rfl, fun hnil => absurd hnil hempty⟩
        · obtain ⟨rb', hwf', -, -, -, htake⟩ :=
            readLoop_take vtime len firstByte input hwf hzero hgo hempty
          rw [htake] at h
          have hlen' : (got ++ rb.contents.take (len - got.length)).length ≤ len := by
            rw [List.length_append, List.length_take]
            omega
          have hend := ih hwf' (fun hnil => absurd hnil hzero) hlen' h
          exact ⟨hend.1, hend.2.1, fun hnil => absurd hnil hempty⟩
    · rw [not_or, not_lt] at hgo
      rw [readLoop_done hgo.1 hgo.2] at h
      cases h
      refine ⟨hlen, le_rfl, fun _ hgo' => ?_⟩
      rcases hgo' with hnil | hlt
      · exact absurd hnil hgo.1
      · omega

/-- **A reader that is full and wants more goes round for ever** when there is a byte. -/
theorem readLoop_spins (hwf : rb.WellFormed) (hfull : got.length = len) (hvmin : len < vmin.toNat)
    (hne : rb.contents ≠ []) :
    readLoop fuel (collecting vmin vtime len got firstByte) rb input = none := by
  have hpos : vmin ≠ 0 := by
    rintro rfl
    exact absurd hvmin (Nat.not_lt_zero _)
  induction fuel generalizing got firstByte with
  | zero => rfl
  | succ fuel ih =>
    have hless : got.length < vmin.toNat := by omega
    obtain ⟨rb', -, -, -, hsame, htake⟩ :=
      readLoop_take vtime len firstByte input hwf hpos (.inr hless) hne
    rw [htake, hsame hfull.ge, hfull, Nat.sub_self, List.take_zero, List.append_nil]
    exact ih hfull

theorem readLoop_full (hwf : rb.WellFormed) (hfull : got.length = len) (hvmin : len < vmin.toNat)
    {bytes : List UInt8} {left : RingBuffer UInt8} :
    readLoop fuel (collecting vmin vtime len got firstByte) rb input ≠
      some (.returned bytes left input) := by
  intro h
  by_cases hempty : rb.contents = []
  · have hgot : vmin = 0 → got = [] := by
      rintro rfl
      exact absurd hvmin (Nat.not_lt_zero _)
    have hend := readLoop_returned hwf hgot hfull.le h
    exact lt_irrefl _ (hend.2.2 hempty (.inr (by rw [hfull]; exact hvmin)))
  · rw [readLoop_spins hwf hfull hvmin hempty] at h
    cases h

/-! ## What a read with `VMIN` does -/

theorem collect_enough {bytes : List UInt8} {capacity : ℕ} {timed : Bool} (h : n ≤ bytes.length) :
    collect n len capacity timed bytes input =
      .returned (bytes.take len) (bytes.drop len) input := by
  cases input with
  | nil => rw [collect, if_pos h]
  | cons a input =>
    cases a with
    | bytes c rest => rw [collect, if_pos h]
    | timeout => rw [collect, if_pos h]

/-- From here on the read does what its settings ask for. -/
def Meets (vmin vtime : UInt8) (len : ℕ) (got : List UInt8) (firstByte : Bool)
    (rb : RingBuffer UInt8) (input : List Arrival) : Prop :=
  ∃ fuel, (readLoop fuel (collecting vmin vtime len got firstByte) rb input).map
      Outcome.contents =
    some (collect (enough vmin.toNat vtime.toNat len) len rb.capacity (decide (0 < vtime.toNat))
      (got ++ rb.contents) input)

theorem enough_eq (hpos : vmin ≠ 0) : enough vmin.toNat vtime.toNat len = min len vmin.toNat := by
  have hne : vmin.toNat ≠ 0 := fun hzero => hpos (UInt8.toNat_inj.mp hzero)
  rw [enough, if_neg (fun h => hne h.1)]
  omega

theorem meets_of_eq {rb' : RingBuffer UInt8} {got' : List UInt8} {firstByte' : Bool}
    {input' : List Arrival} (hcapacity : rb'.capacity = rb.capacity)
    (hsame : collect (enough vmin.toNat vtime.toNat len) len rb.capacity
        (decide (0 < vtime.toNat)) (got' ++ rb'.contents) input' =
      collect (enough vmin.toNat vtime.toNat len) len rb.capacity (decide (0 < vtime.toNat))
        (got ++ rb.contents) input)
    (hstep : ∀ fuel, readLoop (fuel + 1) (collecting vmin vtime len got firstByte) rb input =
      readLoop fuel (collecting vmin vtime len got' firstByte') rb' input') :
    Meets vmin vtime len got firstByte rb input ↔
      Meets vmin vtime len got' firstByte' rb' input' := by
  unfold Meets
  rw [hcapacity, hsame]
  constructor
  · rintro ⟨fuel, h⟩
    cases fuel with
    | zero => cases h
    | succ fuel =>
      rw [hstep] at h
      exact ⟨fuel, h⟩
  · rintro ⟨fuel, h⟩
    refine ⟨fuel + 1, ?_⟩
    rw [hstep]
    exact h

/-- The bytes that are there are taken: they are all that is needed, or they fill the reader, or all
of them are taken. -/
theorem meets_take (hwf : rb.WellFormed) (hpos : vmin ≠ 0) (hgot : got.length < min len vmin.toNat)
    (hne : rb.contents ≠ []) {m : ℕ}
    (hdrained : ∀ rb' : RingBuffer UInt8, rb'.WellFormed → rb'.capacity = rb.capacity →
      rb'.contents = [] → (got ++ rb.contents).length < min len vmin.toNat →
      (Meets vmin vtime len (got ++ rb.contents) false rb' input ↔
        (len < vmin.toNat → (got ++ rb.contents).length + m < len))) :
    Meets vmin vtime len got firstByte rb input ↔
      (len < vmin.toNat → got.length + (rb.contents.length + m) < len) := by
  have hless : got.length < vmin.toNat := by omega
  have hroom : got.length < len := by omega
  obtain ⟨rb', hwf', hcapacity, hleft, -, htake⟩ :=
    readLoop_take vtime len firstByte input hwf hpos (.inr hless) hne
  have htaken : got ++ rb.contents.take (len - got.length) = (got ++ rb.contents).take len := by
    rw [List.take_append, List.take_of_length_le hroom.le]
  have hrest : rb'.contents = (got ++ rb.contents).drop len := by
    rw [hleft, List.drop_append, List.drop_eq_nil_of_le hroom.le, List.nil_append]
  rw [htaken] at htake
  have hstep : Meets vmin vtime len got firstByte rb input ↔
      Meets vmin vtime len ((got ++ rb.contents).take len) false rb' input := by
    refine meets_of_eq hcapacity ?_ htake
    rw [hrest, List.take_append_drop]
  have hlength : (got ++ rb.contents).length = got.length + rb.contents.length :=
    List.length_append
  rw [hstep]
  generalize hbytes : got ++ rb.contents = bytes at *
  by_cases hmore : bytes.length < min len vmin.toNat
  · -- all of them are taken
    rw [List.take_of_length_le (by omega)] at hstep ⊢
    rw [List.drop_eq_nil_of_le (by omega)] at hrest
    rw [hdrained rb' hwf' hcapacity hrest hmore, hlength, Nat.add_assoc]
  · have hcollect : collect (enough vmin.toNat vtime.toNat len) len rb'.capacity
        (decide (0 < vtime.toNat)) (bytes.take len ++ rb'.contents) input =
        .returned (bytes.take len) (bytes.drop len) input := by
      rw [hrest, List.take_append_drop]
      exact collect_enough (by rw [enough_eq hpos]; omega)
    have hmin : (bytes.take len).length = min len bytes.length := List.length_take
    unfold Meets
    rw [hcollect]
    by_cases hvmin : vmin.toNat ≤ len
    · -- they are all that is needed
      refine iff_of_true ⟨1, ?_⟩ (fun hlt => by omega)
      rw [readLoop_done (List.ne_nil_of_length_pos (by omega)) (by omega), Option.map_some,
        Outcome.contents, hrest]
    · -- they fill the reader
      refine iff_of_false ?_ (fun h => by have := h (by omega); omega)
      rintro ⟨fuel, h⟩
      obtain ⟨outcome, hrun, hcontents⟩ := Option.map_eq_some_iff.mp h
      cases outcome with
      | returned got' left input' =>
        obtain ⟨-, -, rfl⟩ := Outcome.returned.inj hcontents
        exact readLoop_full hwf' (by omega) (by omega) hrun
      | waiting got' => cases hcontents

/-- **Run lemma**, by induction on what comes in: all that has come in has been taken. -/
theorem meets_drained (hwf : rb.WellFormed) (hpos : vmin ≠ 0)
    (hgot : got.length < min len vmin.toNat) (hempty : rb.contents = []) :
    Meets vmin vtime len got firstByte rb input ↔
      (len < vmin.toNat →
        got.length + arrived rb.capacity (decide (0 < vtime.toNat)) input < len) := by
  have hless : got = [] ∨ got.length < vmin.toNat := .inr (by omega)
  have hfew : ¬ enough vmin.toNat vtime.toNat len ≤ got.length := by
    rw [enough_eq hpos]
    omega
  induction input generalizing got rb firstByte with
  | nil =>
    refine iff_of_true ⟨1, ?_⟩ (fun _ => ?_)
    · rw [readLoop_wait_none hless hempty hwf rfl, hempty, List.append_nil, collect, if_neg hfew]
      rfl
    · rw [arrived]
      omega
  | cons a input ih =>
    cases a with
    | timeout =>
      by_cases htimed : 0 < vtime.toNat
      · have hwait : schedWait (waitTimeout (collecting vmin vtime len got firstByte))
            (.timeout :: input) = some (.timeout, input) := by
          rw [waitTimeout_collecting, if_pos htimed]
          rfl
        refine iff_of_true ⟨1, ?_⟩ (fun _ => ?_)
        · rw [readLoop_wait_timeout hless hempty hwf hwait, hempty, List.append_nil, collect,
            if_neg hfew, if_pos (by simpa using htimed), Option.map_some, Outcome.contents, hempty]
        · rw [arrived, if_pos (by simpa using htimed)]
          omega
      · -- without a timeout the time does not run out
        have hsame : ∀ fuel, readLoop fuel (collecting vmin vtime len got firstByte) rb
            (.timeout :: input) =
            readLoop fuel (collecting vmin vtime len got firstByte) rb input := by
          intro fuel
          cases fuel with
          | zero => rfl
          | succ fuel =>
            have hwait : waitTimeout (collecting vmin vtime len got firstByte) = none :=
              if_neg htimed
            have hgo := (goesOn_collecting vtime len firstByte).mpr hless
            have hnone := not_available hwf hempty
            rw [readLoop, readLoop, if_pos hgo, if_neg hnone, if_pos hgo, if_neg hnone, hwait]
            rfl
        have hmeets : Meets vmin vtime len got firstByte rb (.timeout :: input) ↔
            Meets vmin vtime len got firstByte rb input := by
          unfold Meets
          rw [hempty, List.append_nil, collect, if_neg hfew, if_neg (by simpa using htimed)]
          simp only [hsame]
        rw [arrived, if_neg (by simpa using htimed)]
        exact hmeets.trans (ih hwf hgot hempty hless hfew)
    | bytes c cs =>
      have hstep : Meets vmin vtime len got firstByte rb (.bytes c cs :: input) ↔
          Meets vmin vtime len got firstByte (receiveChars rb (c :: cs)) input := by
        refine meets_of_eq (receiveChars_spec hwf _).2.1 ?_
          (fun fuel => readLoop_wait_bytes hless hempty hwf rfl)
        rw [contents_receiveChars hwf hempty, hempty, List.append_nil, collect, if_neg hfew]
      obtain ⟨hwf', hcapacity, -⟩ := receiveChars_spec hwf (c :: cs)
      have hcontents := contents_receiveChars hwf hempty c cs
      have hne : (receiveChars rb (c :: cs)).contents ≠ [] := by
        have hsome := available_receiveChars hwf hempty c cs
        rw [RingBuffer.available, ← RingBuffer.contents_length hwf'] at hsome
        exact List.ne_nil_of_length_pos hsome
      rw [hstep, meets_take hwf' hpos hgot hne
        (m := arrived rb.capacity (decide (0 < vtime.toNat)) input)
        (fun rb' hwf'' hcapacity' hnil hlt => ?_), hcontents, List.length_take, List.length_cons,
        arrived]
      have hend := @ih rb' _ false hwf'' hlt hnil (.inr (by omega))
        (by rw [enough_eq hpos]; omega)
      rwa [hcapacity', hcapacity] at hend

end

/-! ## Every read -/

theorem not_meets_of_enough {firstByte : Bool}
    (henough : enough vmin.toNat vtime.toNat len = 0)
    (hnever : ∀ fuel bytes left, readLoop fuel (collecting vmin vtime len [] firstByte) rb input ≠
      some (.returned bytes left input)) :
    ¬ Meets vmin vtime len [] firstByte rb input := by
  rintro ⟨fuel, h⟩
  rw [henough, List.nil_append, collect_enough (Nat.zero_le _)] at h
  obtain ⟨outcome, hrun, hcontents⟩ := Option.map_eq_some_iff.mp h
  cases outcome with
  | returned got left input' =>
    obtain ⟨-, -, rfl⟩ := Outcome.returned.inj hcontents
    exact hnever _ _ _ hrun
  | waiting got => cases hcontents

theorem meets_zero (hwf : rb.WellFormed) :
    Meets 0 vtime len [] true rb input ↔ rb.contents ≠ [] ∨ 0 < vtime ∧ 0 < len := by
  have hfirst : enough (UInt8.toNat 0) vtime.toNat len ≤ 1 := by
    unfold enough
    split
    · exact Nat.zero_le 1
    · exact Nat.min_le_right len 1
  by_cases hempty : rb.contents = []
  · by_cases hwaits : 0 < vtime ∧ 0 < len
    · have htimed : 0 < vtime.toNat := UInt8.lt_iff_toNat_lt.mp hwaits.1
      have hfew : ¬ enough (UInt8.toNat 0) vtime.toNat len ≤ 0 := by
        have hone : enough (UInt8.toNat 0) vtime.toNat len = min len 1 :=
          if_neg (fun h => by omega)
        omega
      refine iff_of_true ?_ (.inr hwaits)
      unfold Meets
      rw [hempty, List.append_nil]
      cases input with
      | nil =>
        refine ⟨1, ?_⟩
        rw [readLoop_wait_none (.inl rfl) hempty hwf rfl, collect]
        exact congrArg some (if_neg hfew).symm
      | cons a input =>
        cases a with
        | timeout =>
          have hwait : schedWait (waitTimeout (collecting 0 vtime len [] true))
              (.timeout :: input) = some (.timeout, input) := by
            rw [waitTimeout_collecting, if_pos htimed]
            rfl
          refine ⟨1, ?_⟩
          rw [readLoop_wait_timeout (.inl rfl) hempty hwf hwait, collect,
            if_pos (decide_eq_true htimed), Option.map_some, Outcome.contents, hempty]
          exact congrArg some (if_neg hfew).symm
        | bytes c cs =>
          have hcontents := contents_receiveChars hwf hempty c cs
          have hpos := hwf.pos
          have hne : (receiveChars rb (c :: cs)).contents ≠ [] := by
            rw [hcontents, ← List.length_pos_iff, List.length_take, List.length_cons]
            omega
          obtain ⟨rb', hleft, htake⟩ :=
            readLoop_take_zero vtime len true input (receiveChars_spec hwf (c :: cs)).1 hne
          refine ⟨2, ?_⟩
          have hsome := List.length_pos_iff.mpr hne
          rw [readLoop_wait_bytes (.inl rfl) hempty hwf rfl, htake, collect, Option.map_some,
            Outcome.contents, hleft, hcontents]
          rw [hcontents] at hsome
          refine congrArg some (Eq.trans ?_ (if_neg hfew).symm)
          rw [List.nil_append, collect_enough (hfirst.trans hsome)]
    · refine iff_of_false (not_meets_of_enough ?_ fun fuel bytes left hrun => ?_)
        (fun h => h.elim (fun hne => hne hempty) hwaits)
      · rw [not_and, UInt8.lt_iff_toNat_lt, not_lt] at hwaits
        rw [enough]
        split
        · rfl
        · next htimed =>
          have := hwaits (by
            show 0 < vtime.toNat
            have hvtime : ¬ (0 = 0 ∧ vtime.toNat = 0) := htimed
            omega)
          omega
      · have hend := readLoop_returned hwf (fun _ => rfl) (Nat.zero_le _) hrun
        exact lt_irrefl _ (hend.2.2 hempty (.inl rfl))
  · have hsome := List.length_pos_iff.mpr hempty
    obtain ⟨rb', hleft, htake⟩ := readLoop_take_zero vtime len true input hwf hempty
    refine iff_of_true ⟨1, ?_⟩ (.inl hempty)
    rw [htake, Option.map_some, Outcome.contents, hleft, List.nil_append]
    exact congrArg some (collect_enough (hfirst.trans hsome)).symm

theorem meets_pos (hwf : rb.WellFormed) (hpos : vmin ≠ 0) :
    Meets vmin vtime len [] true rb input ↔
      (len < vmin.toNat →
        rb.contents.length + arrived rb.capacity (decide (0 < vtime.toNat)) input < len) := by
  have hvmin : vmin.toNat ≠ 0 := fun hzero => hpos (UInt8.toNat_inj.mp hzero)
  rcases Nat.eq_zero_or_pos len with rfl | hlen
  · refine iff_of_false (not_meets_of_enough ?_ fun fuel bytes left => ?_) (fun h => ?_)
    · rw [enough_eq hpos, Nat.zero_min]
    · have hfull : ([] : List UInt8).length = 0 := rfl
      exact readLoop_full hwf hfull (Nat.pos_of_ne_zero hvmin)
    · exact absurd (h (by omega)) (Nat.not_lt_zero _)
  · have hgot : ([] : List UInt8).length < min len vmin.toNat := by
      rw [List.length_nil]
      omega
    by_cases hempty : rb.contents = []
    · rw [meets_drained hwf hpos hgot hempty, hempty]
    · rw [meets_take hwf hpos hgot hempty
        (m := arrived rb.capacity (decide (0 < vtime.toNat)) input), List.length_nil, Nat.zero_add]
      intro rb' hwf' hcapacity hnil hlt
      rw [← hcapacity]
      exact meets_drained hwf' hpos hlt hnil

/-- **A raw read obeys its settings** exactly when it need not return before there is a byte, and
its buffer holds `VMIN` bytes or is not filled. -/
theorem raw_obeys_iff (hwf : rb.WellFormed) :
    Obeys vmin vtime len rb input ↔ Suits vmin vtime len rb input := by
  have hbound : ∀ fuel got left rest,
      rawRead fuel vmin vtime len rb input = some (.returned got left rest) → got.length ≤ len :=
    fun fuel got left rest h => by
      have hstart : readLoop fuel (collecting vmin vtime len [] true) rb input =
        some (.returned got left rest) := h
      exact (readLoop_returned hwf (fun _ => rfl) (Nat.zero_le _) hstart).1
  have hmeets : Obeys vmin vtime len rb input ↔ Meets vmin vtime len [] true rb input :=
    ⟨fun h => h.1, fun h => ⟨h, hbound⟩⟩
  rw [hmeets]
  unfold Suits
  by_cases hzero : vmin = 0
  · subst hzero
    rw [meets_zero hwf]
    exact ⟨fun h => ⟨fun _ => h, fun hlt => absurd hlt (Nat.not_lt_zero _)⟩, fun h => h.1 rfl⟩
  · rw [meets_pos hwf hzero]
    exact ⟨fun h => ⟨fun hnil => absurd hnil hzero, h⟩, fun h => h.2⟩

/-- A buffer that holds these bytes. -/
def holding (bytes : List UInt8) : RingBuffer UInt8 :=
  ((RingBuffer.staticInit (List.replicate 8 0)).put bytes).2

theorem holding_wellFormed (bytes : List UInt8) : (holding bytes).WellFormed :=
  RingBuffer.put_wellFormed (RingBuffer.staticInit_wellFormed (by simp)) bytes

/-- A read that wants two bytes and has room for four waits for the second one. -/
theorem raw_obeys_iff_two : Obeys 2 0 4 (holding [97]) [.bytes 98 [99]] :=
  (raw_obeys_iff (holding_wellFormed [97])).mpr (by decide)

/-- **Counterexample.**  A read that wants two bytes, and has room for one, never ends. -/
theorem raw_read_spins : ¬ Obeys 2 0 1 (holding [97, 98]) [] ∧
    ∀ fuel, rawRead fuel 2 0 1 (holding [97, 98]) [] = none := by
  refine ⟨fun h => ?_, fun fuel => ?_⟩
  · have hfits := (meets_pos (holding_wellFormed [97, 98]) (by decide)).mp h.1
    exact absurd (hfits (by decide)) (by decide)
  · cases fuel with
    | zero => rfl
    | succ fuel =>
      obtain ⟨rb', hwf, -, hleft, -, htake⟩ := readLoop_take 0 1 true []
        (holding_wellFormed [97, 98]) (by decide : (2 : UInt8) ≠ 0) (.inl rfl) (by decide)
      have hrun := htake fuel
      rw [readLoop_spins hwf (by decide) (by decide) (by rw [hleft]; decide)] at hrun
      exact hrun

end NTty.Raw
