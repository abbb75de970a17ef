/-
# A memory of bytes

A memory has a byte at every address, and addresses wrap around at `2 ^ 64`.  `Holds mem addr bytes`
says what is there from an address on.  A stack grows downwards: a push puts some bytes right below
the stack pointer, and all that is there already stays.  Words are eight bytes, the least
significant one first.
-/
import Mathlib.Tactic

namespace ByteMemory

open Function

/-! ## Stores -/

/-- Store bytes from an address on. -/
def store (mem : ℕ → UInt8) : ℕ → List UInt8 → ℕ → UInt8
  | _, [] => mem
  | addr, b :: bytes => store (update mem addr b) ((addr + 1) % 2 ^ 64) bytes

/-- The bytes from an address on. -/
def Holds (mem : ℕ → UInt8) : ℕ → List UInt8 → Prop
  | _, [] => True
  | addr, b :: bytes => mem addr = b ∧ Holds mem (addr + 1) bytes

variable {mem mem' : ℕ → UInt8} {addr a n : ℕ} {bytes : List UInt8}

theorem holds_append (xs ys : List UInt8) :
    Holds mem addr (xs ++ ys) ↔ Holds mem addr xs ∧ Holds mem (addr + xs.length) ys := by
  induction xs generalizing addr with
  | nil => simp [Holds]
  | cons x xs ih =>
    rw [List.cons_append, Holds, Holds, ih, and_assoc, List.length_cons,
      show addr + 1 + xs.length = addr + (xs.length + 1) by omega]

theorem Holds.congr (h : Holds mem addr bytes)
    (hsame : ∀ a, addr ≤ a → a < addr + bytes.length → mem' a = mem a) :
    Holds mem' addr bytes := by
  induction bytes generalizing addr with
  | nil => trivial
  | cons b bytes ih =>
    rw [List.length_cons] at hsame
    refine ⟨(hsame addr le_rfl (by omega)).trans h.1, ih h.2 fun a ha hlt => ?_⟩
    exact hsame a (by omega) (by omega)

theorem store_frame (hfit : addr + bytes.length ≤ 2 ^ 64)
    (ha : a < addr ∨ addr + bytes.length ≤ a) : store mem addr bytes a = mem a := by
  induction bytes generalizing addr mem with
  | nil => rfl
  | cons b bytes ih =>
    rw [List.length_cons] at hfit ha
    have hne : a ≠ addr := by omega
    rw [store]
    rcases Nat.lt_or_ge (addr + 1) (2 ^ 64) with hlt | hge
    · rw [Nat.mod_eq_of_lt hlt, ih (by omega) (by omega), update_of_ne hne]
    · have hnil : bytes = [] := List.length_eq_zero_iff.mp (by omega)
      rw [hnil, store, update_of_ne hne]

theorem store_holds (hfit : addr + bytes.length ≤ 2 ^ 64) :
    Holds (store mem addr bytes) addr bytes := by
  induction bytes generalizing addr mem with
  | nil => trivial
  | cons b bytes ih =>
    rw [List.length_cons] at hfit
    rw [store]
    rcases Nat.lt_or_ge (addr + 1) (2 ^ 64) with hlt | hge
    · rw [Nat.mod_eq_of_lt hlt]
      refine ⟨?_, ih (by omega)⟩
      rw [store_frame (by omega) (.inl (Nat.lt_succ_self addr)), update_self]
    · have hnil : bytes = [] := List.length_eq_zero_iff.mp (by omega)
      subst hnil
      exact ⟨update_self .., trivial⟩

/-! ## Words and strings -/

/-- The `n` bytes of a number, the least significant one first. -/
def littleEndian : ℕ → ℕ → List UInt8
  | 0, _ => []
  | n + 1, w => UInt8.ofNat (w % 256) :: littleEndian n (w / 256)

/-- The number with these bytes. -/
def ofLittleEndian : List UInt8 → ℕ
  | [] => 0
  | b :: bytes => b.toNat + 256 * ofLittleEndian bytes

@[simp] theorem littleEndian_length (n w : ℕ) : (littleEndian n w).length = n := by
  induction n generalizing w with
  | zero => rfl
  | succ n ih => rw [littleEndian, List.length_cons, ih]

theorem ofLittleEndian_littleEndian (n w : ℕ) :
    ofLittleEndian (littleEndian n w) = w % 256 ^ n := by
  induction n generalizing w with
  | zero => simp [littleEndian, ofLittleEndian, Nat.mod_one]
  | succ n ih =>
    have hbyte : (UInt8.ofNat (w % 256)).toNat = w % 256 := by
      rw [UInt8.toNat_ofNat']
      exact Nat.mod_eq_of_lt (Nat.mod_lt w (by norm_num))
    rw [littleEndian, ofLittleEndian, ih, hbyte, pow_succ', Nat.mod_mul]

/-- The bytes from an address on, as many as asked for. -/
def readBytes (mem : ℕ → UInt8) (addr : ℕ) : ℕ → List UInt8
  | 0 => []
  | n + 1 => mem addr :: readBytes mem (addr + 1) n

/-- The word at an address. -/
def readWord (mem : ℕ → UInt8) (addr : ℕ) : ℕ := ofLittleEndian (readBytes mem addr 8)

/-- The words from an address on. -/
def readWords (mem : ℕ → UInt8) (addr : ℕ) : ℕ → List ℕ
  | 0 => []
  | n + 1 => readWord mem addr :: readWords mem (addr + 8) n

/-- The words before a null word. -/
def wordsUntilNull (mem : ℕ → UInt8) : ℕ → ℕ → Option (List ℕ)
  | 0, _ => none
  | fuel + 1, addr =>
    if readWord mem addr = 0 then some []
    else (wordsUntilNull mem fuel (addr + 8)).map (readWord mem addr :: ·)

/-- The pairs of words before a null word. -/
def pairsUntilNull (mem : ℕ → UInt8) : ℕ → ℕ → Option (List (ℕ × ℕ))
  | 0, _ => none
  | fuel + 1, addr =>
    if readWord mem addr = 0 then some []
    else (pairsUntilNull mem fuel (addr + 16)).map
      ((readWord mem addr, readWord mem (addr + 8)) :: ·)

/-- The bytes before a null byte. -/
def readString (mem : ℕ → UInt8) : ℕ → ℕ → Option (List UInt8)
  | 0, _ => none
  | fuel + 1, addr =>
    if mem addr = 0 then some [] else (readString mem fuel (addr + 1)).map (mem addr :: ·)

/-- The words from an address on. -/
def HoldsWords (mem : ℕ → UInt8) (addr : ℕ) (words : List ℕ) : Prop :=
  Holds mem addr (words.flatMap (littleEndian 8))

theorem readBytes_eq (h : Holds mem addr bytes) : readBytes mem addr bytes.length = bytes := by
  induction bytes generalizing addr with
  | nil => rfl
  | cons b bytes ih => rw [List.length_cons, readBytes, ih h.2, h.1]

theorem readWord_eq {w : ℕ} (h : Holds mem addr (littleEndian 8 w)) (hw : w < 2 ^ 64) :
    readWord mem addr = w := by
  have hbytes := readBytes_eq h
  rw [littleEndian_length] at hbytes
  rw [readWord, hbytes, ofLittleEndian_littleEndian]
  exact Nat.mod_eq_of_lt hw

theorem words_length (words : List ℕ) :
    (words.flatMap (littleEndian 8)).length = 8 * words.length := by
  induction words with
  | nil => rfl
  | cons w words ih =>
    rw [List.flatMap_cons, List.length_append, ih, littleEndian_length, List.length_cons]
    omega

theorem holdsWords_append (xs ys : List ℕ) :
    HoldsWords mem addr (xs ++ ys) ↔
      HoldsWords mem addr xs ∧ HoldsWords mem (addr + 8 * xs.length) ys := by
  unfold HoldsWords
  rw [List.flatMap_append, holds_append, words_length]

theorem HoldsWords.head {w : ℕ} {words : List ℕ} (h : HoldsWords mem addr (w :: words))
    (hw : w < 2 ^ 64) : readWord mem addr = w := by
  have hsplit := (holdsWords_append [w] words).mp h
  refine readWord_eq ?_ hw
  have hone := hsplit.1
  rwa [HoldsWords, List.flatMap_singleton] at hone

theorem HoldsWords.tail {w : ℕ} {words : List ℕ} (h : HoldsWords mem addr (w :: words)) :
    HoldsWords mem (addr + 8) words := ((holdsWords_append [w] words).mp h).2

theorem readWords_eq {words : List ℕ} (h : HoldsWords mem addr words)
    (hwords : ∀ w ∈ words, w < 2 ^ 64) : readWords mem addr words.length = words := by
  induction words generalizing addr with
  | nil => rfl
  | cons w words ih =>
    have hw := hwords w List.mem_cons_self
    rw [List.length_cons, readWords, h.head hw,
      ih h.tail (fun v hv => hwords v (List.mem_cons_of_mem w hv))]

theorem wordsUntilNull_eq {words rest : List ℕ} (h : HoldsWords mem addr (words ++ 0 :: rest))
    (hwords : ∀ w ∈ words, w ≠ 0 ∧ w < 2 ^ 64) {fuel : ℕ} (hfuel : words.length < fuel) :
    wordsUntilNull mem fuel addr = some words := by
  induction words generalizing addr fuel with
  | nil =>
    obtain ⟨fuel, rfl⟩ := Nat.exists_eq_add_of_lt hfuel
    rw [wordsUntilNull, if_pos (h.head (by norm_num))]
  | cons w words ih =>
    rw [List.length_cons] at hfuel
    obtain ⟨fuel, rfl⟩ : ∃ m, fuel = m + 1 := ⟨fuel - 1, by omega⟩
    have hw := hwords w List.mem_cons_self
    have hread : readWord mem addr = w := HoldsWords.head h hw.2
    rw [wordsUntilNull, hread, if_neg hw.1,
      ih (HoldsWords.tail h) (fun v hv => hwords v (List.mem_cons_of_mem w hv)) (by omega)]
    rfl

theorem pairsUntilNull_eq {pairs : List (ℕ × ℕ)} {rest : List ℕ}
    (h : HoldsWords mem addr (pairs.flatMap (fun p => [p.1, p.2]) ++ 0 :: rest))
    (hpairs : ∀ p ∈ pairs, p.1 ≠ 0 ∧ p.1 < 2 ^ 64 ∧ p.2 < 2 ^ 64) {fuel : ℕ}
    (hfuel : pairs.length < fuel) : pairsUntilNull mem fuel addr = some pairs := by
  induction pairs generalizing addr fuel with
  | nil =>
    obtain ⟨fuel, rfl⟩ := Nat.exists_eq_add_of_lt hfuel
    rw [pairsUntilNull, if_pos (HoldsWords.head h (by norm_num))]
  | cons p pairs ih =>
    rw [List.length_cons] at hfuel
    obtain ⟨fuel, rfl⟩ : ∃ m, fuel = m + 1 := ⟨fuel - 1, by omega⟩
    obtain ⟨hne, htype, hvalue⟩ := hpairs p List.mem_cons_self
    have htail := HoldsWords.tail h
    have hrest := HoldsWords.tail htail
    rw [pairsUntilNull, HoldsWords.head h htype, HoldsWords.head htail hvalue, if_neg hne,
      ih hrest (fun q hq => hpairs q (List.mem_cons_of_mem p hq)) (by omega)]
    rfl

theorem readString_eq (h : Holds mem addr (bytes ++ [0])) (hbytes : (0 : UInt8) ∉ bytes) {fuel : ℕ}
    (hfuel : bytes.length < fuel) : readString mem fuel addr = some bytes := by
  induction bytes generalizing addr fuel with
  | nil =>
    obtain ⟨fuel, rfl⟩ := Nat.exists_eq_add_of_lt hfuel
    rw [readString, if_pos h.1]
  | cons b bytes ih =>
    rw [List.length_cons] at hfuel
    obtain ⟨fuel, rfl⟩ : ∃ m, fuel = m + 1 := ⟨fuel - 1, by omega⟩
    rw [List.mem_cons, not_or] at hbytes
    rw [readString, h.1, if_neg (Ne.symm hbytes.1), ih h.2 hbytes.2 (by omega)]
    rfl

/-! ## A stack -/

/-- A memory with a stack pointer. -/
structure Stack where
  mem : ℕ → UInt8
  sp : ℕ

namespace Stack

/-- The address some bytes below the stack pointer. -/
def below (s : Stack) (n : ℕ) : ℕ := (s.sp + (2 ^ 64 - n % 2 ^ 64)) % 2 ^ 64

/-- Put some bytes right below the stack pointer. -/
def push (s : Stack) (bytes : List UInt8) : Stack where
  mem := store s.mem (s.below bytes.length) bytes
  sp := s.below bytes.length

/-- Push words, the first one first. -/
def pushWords (s : Stack) (words : List ℕ) : Stack :=
  words.foldl (fun s w => s.push (littleEndian 8 w)) s

/-- Strings, each with a null byte, are pushed; and where they are. -/
def pushStrings (s : Stack) : List (List UInt8) → Stack × List ℕ
  | [] => (s, [])
  | str :: strs =>
    let s' := s.push (str ++ [0])
    let r := s'.pushStrings strs
    (r.1, s'.sp :: r.2)

/-- How much room strings take. -/
def room (strs : List (List UInt8)) : ℕ := (strs.map (fun str => str.length + 1)).sum

variable {s : Stack}

theorem below_eq (hn : n ≤ s.sp) (hsp : s.sp < 2 ^ 64) : s.below n = s.sp - n := by
  rw [below, Nat.mod_eq_of_lt (by omega : n < 2 ^ 64)]
  omega

/-- **A push** leaves the bytes at the new stack pointer, and all but them as it was. -/
theorem push_spec (hn : bytes.length ≤ s.sp) (hsp : s.sp < 2 ^ 64) :
    (s.push bytes).sp = s.sp - bytes.length ∧ Holds (s.push bytes).mem (s.push bytes).sp bytes ∧
      ∀ a, a < s.sp - bytes.length ∨ s.sp ≤ a → (s.push bytes).mem a = s.mem a := by
  have hbelow := below_eq hn hsp
  refine ⟨hbelow, store_holds ?_, fun a ha => store_frame ?_ ?_⟩
  · rw [hbelow]
    omega
  · rw [hbelow]
    omega
  · rw [hbelow]
    omega

theorem push_holds (hn : bytes.length ≤ s.sp) (hsp : s.sp < 2 ^ 64) {old : List UInt8}
    (h : Holds s.mem s.sp old) : Holds (s.push bytes).mem (s.push bytes).sp (bytes ++ old) := by
  obtain ⟨hnew, hholds, hframe⟩ := push_spec hn hsp
  refine (holds_append bytes old).mpr ⟨hholds, ?_⟩
  rw [hnew, Nat.sub_add_cancel hn]
  exact h.congr fun a ha _ => hframe a (.inr ha)

theorem pushWords_append (s : Stack) (xs ys : List ℕ) :
    s.pushWords (xs ++ ys) = (s.pushWords xs).pushWords ys := List.foldl_append

/-- **Words that are pushed** stand in the reverse order. -/
theorem pushWords_spec {words : List ℕ} (hn : 8 * words.length ≤ s.sp) (hsp : s.sp < 2 ^ 64) :
    (s.pushWords words).sp = s.sp - 8 * words.length ∧
      HoldsWords (s.pushWords words).mem (s.pushWords words).sp words.reverse ∧
      ∀ a, a < s.sp - 8 * words.length ∨ s.sp ≤ a → (s.pushWords words).mem a = s.mem a := by
  induction words using List.reverseRecOn with
  | nil => exact ⟨rfl, trivial, fun _ _ => rfl⟩
  | append_singleton words w ih =>
    rw [List.length_append, List.length_singleton] at hn ⊢
    obtain ⟨hnew, hholds, hframe⟩ := ih (by omega)
    have hroom : (littleEndian 8 w).length ≤ (s.pushWords words).sp := by
      rw [littleEndian_length]
      omega
    obtain ⟨hnew', -, hframe'⟩ := push_spec hroom (by omega)
    have hholds' := push_holds hroom (by omega) hholds
    rw [littleEndian_length] at hnew' hframe'
    rw [pushWords_append, List.reverse_append, List.reverse_singleton]
    have hpush : (s.pushWords words).pushWords [w] =
        (s.pushWords words).push (littleEndian 8 w) := rfl
    rw [hpush]
    refine ⟨by omega, ?_, fun a ha => ?_⟩
    · rw [HoldsWords, List.flatMap_append, List.flatMap_singleton]
      exact hholds'
    · rw [hframe' a (by omega), hframe a (by omega)]

/-- **Strings that are pushed** are where their pointers say, between the old stack pointer and the
new one. -/
theorem pushStrings_spec {strs : List (List UInt8)} (hn : room strs ≤ s.sp) (hsp : s.sp < 2 ^ 64) :
    (s.pushStrings strs).1.sp = s.sp - room strs ∧
      List.Forall₂ (fun ptr str => Holds (s.pushStrings strs).1.mem ptr (str ++ [0]) ∧
        s.sp - room strs ≤ ptr ∧ ptr + str.length + 1 ≤ s.sp) (s.pushStrings strs).2 strs ∧
      ∀ a, a < s.sp - room strs ∨ s.sp ≤ a → (s.pushStrings strs).1.mem a = s.mem a := by
  induction strs generalizing s with
  | nil => exact ⟨rfl, .nil, fun _ _ => rfl⟩
  | cons str strs ih =>
    have hroom : room (str :: strs) = str.length + 1 + room strs := List.sum_cons
    have hlength : (str ++ [(0 : UInt8)]).length = str.length + 1 := List.length_append
    rw [hroom] at hn ⊢
    have hpush : (str ++ [(0 : UInt8)]).length ≤ s.sp := by omega
    obtain ⟨hnew, hholds, hframe⟩ := push_spec hpush hsp
    rw [hlength] at hnew hframe
    obtain ⟨hend, hall, hrest⟩ := ih (s := s.push (str ++ [0])) (by omega) (by omega)
    refine ⟨?_, .cons ⟨?_, ?_, ?_⟩ ?_, fun a ha => ?_⟩
    · show ((s.push (str ++ [0])).pushStrings strs).1.sp = _
      omega
    · refine hholds.congr fun a ha hlt => hrest a (.inr ?_)
      exact ha
    · rw [hnew]
      omega
    · rw [hnew]
      omega
    · refine hall.imp fun ptr str' hptr => ?_
      exact ⟨hptr.1, by omega, by omega⟩
    · rw [pushStrings]
      rw [hrest a (by omega), hframe a (by omega)]

end Stack

end ByteMemory
