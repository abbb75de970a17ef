/-
# The symbol table

`load_symbols` (`core/symbol.c`) reads a text of lines `<hexaddr> <type> <name>` into a tree that is
ordered by the addresses, and gives each symbol a range up to the next one.  This module has the
code and what one line says; what is found afterwards is in `SymbolLookup`.
-/
import Mathlib.Data.Nat.Basic
import Mathlib.Order.Basic
import Mathlib.Tactic.Common
import YakKernel.RbTree

namespace Symbols

/-! ## Reading the text -/

inductive Fault where
  | outOfBounds
  | diverges
  deriving DecidableEq

/-- A byte of the text. -/
def readAt (data : List UInt8) (i : ℕ) : Except Fault UInt8 :=
  data[i]?.elim (.error .outOfBounds) .ok

/-- `is_space`. -/
def isSpace (c : UInt8) : Bool := c = 0x20 || c = 0x09

/-- The digits that `parse_line` takes. -/
def isHex (c : UInt8) : Bool :=
  (0x30 ≤ c && c ≤ 0x39) || (0x61 ≤ c && c ≤ 0x66) || (0x41 ≤ c && c ≤ 0x46)

/-- The end of a line: `\n` or `\r`. -/
def isEol (c : UInt8) : Bool := c = 0x0a || c = 0x0d

/-- `while (i < end && p(data[i])) i++`, where `n` is `end - i`. -/
def skipLoop (data : List UInt8) (p : UInt8 → Bool) : ℕ → ℕ → Except Fault ℕ
  | 0, i => .ok i
  | n + 1, i => do
    let c ← readAt data i
    if p c then skipLoop data p n (i + 1) else .ok i

def skipWhile (data : List UInt8) (p : UInt8 → Bool) (i stop : ℕ) : Except Fault ℕ :=
  skipLoop data p (stop - i) i

/-- The digit in `hex_to_u64`, if it is one. -/
def hexDigit (c : UInt8) : Option UInt8 :=
  if 0x30 ≤ c ∧ c ≤ 0x39 then some (c - 0x30)
  else if 0x61 ≤ c ∧ c ≤ 0x66 then some (c - 0x61 + 10)
  else if 0x41 ≤ c ∧ c ≤ 0x46 then some (c - 0x41 + 10)
  else none

/-- `hex_to_u64` from the value `v` on. -/
def hexToU64 (data : List UInt8) : ℕ → ℕ → UInt64 → Except Fault (Option UInt64)
  | 0, _, v => .ok (some v)
  | n + 1, i, v => do
    let c ← readAt data i
    (hexDigit c).elim (.ok none) fun d => hexToU64 data n (i + 1) (v <<< 4 ||| d.toUInt64)

/-- The `memcpy` in `strndup`. -/
def readSlice (data : List UInt8) : ℕ → ℕ → Except Fault (List UInt8)
  | 0, _ => .ok []
  | n + 1, i => do
    let c ← readAt data i
    (readSlice data n (i + 1)).map (c :: ·)

/-! ## Symbols -/

/-- `struct symbol` without its range, with the place of its line in the text. -/
structure Symbol where
  line : ℕ
  address : UInt64
  type : UInt8
  name : List UInt8
  deriving DecidableEq

/-- The key of `symbol_cmp`. -/
def Symbol.key (s : Symbol) : ℕ := s.address.toNat

/-- `symbol_create`; `memory` tells for which lines there is memory. -/
def symbolCreate (memory : ℕ → Bool) (data : List UInt8) (line : ℕ) (address : UInt64)
    (type : UInt8) (name nameLen : ℕ) : Except Fault (Option Symbol) :=
  if memory line then
    (readSlice data nameLen name).map fun text => some ⟨line, address, type, text⟩
  else .ok none

/-- `parse_line` for the line from `line` to `stop`. -/
def parseLine (memory : ℕ → Bool) (data : List UInt8) (line stop : ℕ) :
    Except Fault (Option Symbol) := do
  let addrStart ← skipWhile data isSpace line stop
  let addrEnd ← skipWhile data isHex addrStart stop
  if addrEnd = addrStart then .ok none
  else do
    let value ← hexToU64 data (addrEnd - addrStart) addrStart 0
    value.elim (.ok none) fun address => do
      let i ← skipWhile data isSpace addrEnd stop
      if stop ≤ i then .ok none
      else do
        let type ← readAt data i
        let name ← skipWhile data isSpace (i + 1) stop
        if stop ≤ name then .ok none
        else symbolCreate memory data line address type name (stop - name)

/-- The symbol of a line, if it is not empty. -/
def lineSymbol (memory : ℕ → Bool) (data : List UInt8) (line stop : ℕ) :
    Except Fault (Option Symbol) :=
  if line < stop then parseLine memory data line stop else .ok none

/-- The loop of `load_symbols`. -/
def loadLoop (memory : ℕ → Bool) (data : List UInt8) :
    ℕ → ℕ → RbTree.Tree Symbol → Except Fault (RbTree.Tree Symbol)
  | 0, _, _ => .error .diverges
  | n + 1, pos, tree =>
    if data.length ≤ pos then .ok tree
    else do
      let stop ← skipWhile data (fun c => !isEol c) pos data.length
      let sym ← lineSymbol memory data pos stop
      let next ← skipWhile data isEol stop data.length
      -- `RB_INSERT` leaves a tree that has the address as it is
      loadLoop memory data n next (sym.elim tree fun s => tree.insert Symbol.key s)

/-- The loop of `compute_symbol_ranges`: the fields `end`, with `prev` still open. -/
def computeSymbolRanges : List Symbol → Option Symbol → (Symbol → UInt64) → Symbol → UInt64
  | [], prev, ends => prev.elim ends fun p => Function.update ends p (p.address + 1)
  | sym :: rest, prev, ends =>
    computeSymbolRanges rest (some sym)
      (prev.elim ends fun p => Function.update ends p sym.address)

/-- `struct symbol_tree`, with the fields `end` of the symbols. -/
structure SymbolTree where
  tree : RbTree.Tree Symbol
  ends : Symbol → UInt64

/-- `load_symbols` on an empty tree. -/
def loadSymbols (memory : ℕ → Bool) (data : List UInt8) : Except Fault SymbolTree :=
  (loadLoop memory data (data.length + 1) 0 .nil).map fun tree =>
    ⟨tree, computeSymbolRanges tree.inorder none fun _ => 0⟩

/-- `find_symbol_by_address`. -/
def findSymbolByAddress (ends : Symbol → UInt64) (addr : UInt64) :
    RbTree.Tree Symbol → Option Symbol
  | .nil => none
  | .node _ l s r =>
    if addr < s.address then findSymbolByAddress ends addr l
    else if ends s ≤ addr then findSymbolByAddress ends addr r
    else some s

/-! ## What the text says -/

/-- From `i` to `j` all bytes are of the kind, and there the kind or the text ends. -/
structure Run (data : List UInt8) (p : UInt8 → Bool) (i j stop : ℕ) : Prop where
  start_le : i ≤ j
  le_stop : j ≤ stop
  all : ∀ k, i ≤ k → k < j → ∃ c, data[k]? = some c ∧ p c = true
  ends : j < stop → ∃ c, data[j]? = some c ∧ p c = false

/-- A line starts at the start of the text or behind the end of a line. -/
def Starts (data : List UInt8) (i : ℕ) : Prop :=
  ∀ j, i = j + 1 → ∃ c, data[j]? = some c ∧ isEol c = true

/-- A nonempty line. -/
structure Line (data : List UInt8) (start stop : ℕ) : Prop where
  starts : Starts data start
  nonempty : start < stop
  run : Run data (fun c => !isEol c) start stop data.length

/-- What a digit stands for. -/
def digitValue (c : UInt8) : ℕ :=
  if c ≤ 0x39 then c.toNat - 0x30 else if 0x61 ≤ c then c.toNat - 0x57 else c.toNat - 0x37

/-- What digits stand for, the most significant one first. -/
def hexValue (v : ℕ) (cs : List UInt8) : ℕ := cs.foldl (fun v c => 16 * v + digitValue c) v

def slice (data : List UInt8) (i j : ℕ) : List UInt8 := (data.drop i).take (j - i)

/-- **A well-formed line**: digits, a type and a name, with blanks before and between them. -/
structure WellFormed (data : List UInt8) (start stop : ℕ) (s : Symbol) (i j k l : ℕ) : Prop where
  indent : Run data isSpace start i stop
  digits : Run data isHex i j stop
  someDigit : i < j
  gap : Run data isSpace j k stop
  beforeType : k < stop
  type : data[k]? = some s.type
  secondGap : Run data isSpace (k + 1) l stop
  beforeName : l < stop
  address : s.address = UInt64.ofNat (hexValue 0 (slice data i j))
  name : s.name = slice data l stop

/-- **The symbol of a well-formed line** of the text. -/
def Listed (data : List UInt8) (s : Symbol) : Prop :=
  ∃ stop i j k l, Line data s.line stop ∧ WellFormed data s.line stop s i j k l

variable {data : List UInt8} {p : UInt8 → Bool} {memory : ℕ → Bool} {i j j' start stop : ℕ}

/-! ## Runs -/

theorem readAt_eq {c : UInt8} (h : data[i]? = some c) : readAt data i = .ok c := by
  rw [readAt, h]
  rfl

theorem exists_readAt (h : i < data.length) : ∃ c, data[i]? = some c ∧ readAt data i = .ok c :=
  ⟨data[i], List.getElem?_eq_getElem h, readAt_eq (List.getElem?_eq_getElem h)⟩

theorem Run.unique (h : Run data p i j stop) (h' : Run data p i j' stop) : j = j' := by
  rcases lt_trichotomy j j' with hlt | heq | hgt
  · obtain ⟨c, hc, hf⟩ := h.ends (lt_of_lt_of_le hlt h'.le_stop)
    obtain ⟨d, hd, ht⟩ := h'.all j h.start_le hlt
    obtain rfl := Option.some.inj (hc.symm.trans hd)
    exact absurd ht (by rw [hf]; exact Bool.false_ne_true)
  · exact heq
  · obtain ⟨c, hc, hf⟩ := h'.ends (lt_of_lt_of_le hgt h.le_stop)
    obtain ⟨d, hd, ht⟩ := h.all j' h'.start_le hgt
    obtain rfl := Option.some.inj (hc.symm.trans hd)
    exact absurd ht (by rw [hf]; exact Bool.false_ne_true)

theorem skipLoop_spec : ∀ {n i : ℕ}, i + n ≤ data.length →
    ∃ j, skipLoop data p n i = .ok j ∧ Run data p i j (i + n) := by
  intro n
  induction n with
  | zero =>
    intro i _
    exact ⟨i, rfl, le_refl i, le_refl i, fun k h h' => absurd h' (Nat.not_lt_of_le h),
      fun h => absurd h (lt_irrefl i)⟩
  | succ n ih =>
    intro i hle
    have hi : i < data.length := by omega
    obtain ⟨c, hc, hread⟩ := exists_readAt hi
    unfold skipLoop
    rw [hread]
    by_cases hp : p c = true
    · obtain ⟨j, hj, hrun⟩ := ih (i := i + 1) (by omega)
      refine ⟨j, (if_pos hp).trans hj, ?_, ?_, ?_, ?_⟩
      · exact Nat.le_of_succ_le hrun.start_le
      · have hstop := hrun.le_stop
        omega
      · intro k hk hkj
        rcases Nat.eq_or_lt_of_le hk with rfl | hlt
        · exact ⟨c, hc, hp⟩
        · exact hrun.all k hlt hkj
      · intro hj
        exact hrun.ends (by omega)
    · refine ⟨i, if_neg hp, le_refl i, Nat.le_add_right i _, ?_, ?_⟩
      · exact fun k h h' => absurd h' (Nat.not_lt_of_le h)
      · exact fun _ => ⟨c, hc, Bool.eq_false_iff.mpr hp⟩

/-- **The loops over the bytes of a kind end at the end of the run**, and read inside the text. -/
theorem skipWhile_spec (hi : i ≤ stop) (hstop : stop ≤ data.length) :
    ∃ j, skipWhile data p i stop = .ok j ∧ Run data p i j stop := by
  have hsum : i + (stop - i) = stop := Nat.add_sub_of_le hi
  obtain ⟨j, hj, hrun⟩ := skipLoop_spec (p := p) (show i + (stop - i) ≤ data.length by omega)
  exact ⟨j, hj, hsum ▸ hrun⟩

/-! ## Digits -/

theorem ok_bind {α β : Type} (a : α) (f : α → Except Fault β) : (Except.ok a >>= f) = f a := rfl

theorem hexDigit_spec {c : UInt8} (h : isHex c = true) :
    ∃ d, hexDigit c = some d ∧ d.toNat = digitValue c ∧ digitValue c < 16 := by
  simp only [isHex, Bool.or_eq_true, Bool.and_eq_true, decide_eq_true_eq,
    UInt8.le_iff_toNat_le, UInt8.reduceToNat] at h
  unfold hexDigit digitValue
  simp only [UInt8.le_iff_toNat_le, UInt8.reduceToNat]
  rcases h with (⟨hlo, hhi⟩ | ⟨hlo, hhi⟩) | ⟨hlo, hhi⟩
  · have hle : (0x30 : UInt8) ≤ c := UInt8.le_iff_toNat_le.mpr hlo
    refine ⟨c - 0x30, if_pos ⟨hlo, hhi⟩, ?_, ?_⟩
    · rw [if_pos hhi, UInt8.toNat_sub_of_le _ _ hle]
      rfl
    · rw [if_pos hhi]
      omega
  · have hle : (0x61 : UInt8) ≤ c := UInt8.le_iff_toNat_le.mpr hlo
    have hno : ¬ c.toNat ≤ 57 := by omega
    refine ⟨c - 0x61 + 10, (if_neg (by omega)).trans (if_pos ⟨hlo, hhi⟩), ?_, ?_⟩
    · rw [if_neg hno, if_pos hlo, UInt8.toNat_add,
        UInt8.toNat_sub_of_le _ _ hle]
      simp only [UInt8.reduceToNat]
      omega
    · rw [if_neg hno, if_pos hlo]
      omega
  · have hle : (0x41 : UInt8) ≤ c := UInt8.le_iff_toNat_le.mpr hlo
    have hno : ¬ c.toNat ≤ 57 := by omega
    have hupper : ¬ 97 ≤ c.toNat := by omega
    refine ⟨c - 0x41 + 10, ?_, ?_, ?_⟩
    · rw [if_neg (by omega), if_neg (by omega), if_pos ⟨hlo, hhi⟩]
    · rw [if_neg hno, if_neg hupper, UInt8.toNat_add,
        UInt8.toNat_sub_of_le _ _ hle]
      simp only [UInt8.reduceToNat]
      omega
    · rw [if_neg hno, if_neg hupper]
      omega

theorem shift_or (v d : ℕ) (hd : d < 16) :
    UInt64.ofNat v <<< 4 ||| UInt64.ofNat d = UInt64.ofNat (16 * v + d) := by
  refine UInt64.toNat_inj.mp ?_
  have hshift : (v % 2 ^ 64) <<< 4 % 2 ^ 64 = (v % 2 ^ 60) <<< 4 := by
    rw [Nat.shiftLeft_eq, Nat.shiftLeft_eq]
    omega
  have hor := Nat.shiftLeft_add_eq_or_of_lt (i := 4) hd (v % 2 ^ 60)
  rw [UInt64.toNat_or, UInt64.toNat_shiftLeft, UInt64.toNat_ofNat', UInt64.toNat_ofNat',
    UInt64.toNat_ofNat']
  show (v % 2 ^ 64) <<< 4 % 2 ^ 64 ||| d % 2 ^ 64 = _
  rw [hshift, Nat.mod_eq_of_lt (show d < 2 ^ 64 by omega), ← hor, Nat.shiftLeft_eq]
  omega

theorem drop_of_getElem {c : UInt8} (h : data[i]? = some c) :
    data.drop i = c :: data.drop (i + 1) := by
  obtain ⟨hi, rfl⟩ := List.getElem?_eq_some_iff.mp h
  exact List.drop_eq_getElem_cons hi

/-- **Digits are read as the number that they stand for**, modulo `2 ^ 64`. -/
theorem hexToU64_spec : ∀ {n i v : ℕ},
    (∀ k, i ≤ k → k < i + n → ∃ c, data[k]? = some c ∧ isHex c = true) →
    hexToU64 data n i (UInt64.ofNat v) =
      .ok (some (UInt64.ofNat (hexValue v ((data.drop i).take n)))) := by
  intro n
  induction n with
  | zero =>
    intro i v _
    rw [List.take_zero]
    rfl
  | succ n ih =>
    intro i v hall
    obtain ⟨c, hc, hhex⟩ := hall i (le_refl i) (by omega)
    obtain ⟨d, hd, hval, hlt⟩ := hexDigit_spec hhex
    have hv : UInt64.ofNat v <<< 4 ||| d.toUInt64 = UInt64.ofNat (16 * v + digitValue c) := by
      rw [← UInt64.ofNat_uInt8ToNat, hval, shift_or v _ hlt]
    rw [hexToU64, readAt_eq hc, ok_bind, hd]
    show hexToU64 data n (i + 1) _ = _
    rw [hv, ih fun k hk hkn => hall k (by omega) (by omega), drop_of_getElem hc,
      List.take_succ_cons]
    rfl

theorem readSlice_spec : ∀ {n i : ℕ}, i + n ≤ data.length →
    readSlice data n i = .ok ((data.drop i).take n) := by
  intro n
  induction n with
  | zero =>
    intro i _
    rw [List.take_zero]
    rfl
  | succ n ih =>
    intro i hle
    have hi : i < data.length := by omega
    obtain ⟨c, hc, hread⟩ := exists_readAt hi
    rw [readSlice, hread, ok_bind, ih (by omega), drop_of_getElem hc, List.take_succ_cons]
    rfl

/-! ## Lines -/

theorem symbolCreate_spec (memory : ℕ → Bool) (start : ℕ) (address : UInt64) (type : UInt8)
    (hstop : i ≤ stop) (hlen : stop ≤ data.length) :
    ∃ r, symbolCreate memory data start address type i (stop - i) = .ok r ∧
      ∀ s, r = some s ↔ memory start = true ∧ s = ⟨start, address, type, slice data i stop⟩ := by
  unfold symbolCreate
  by_cases hmem : memory start = true
  · refine ⟨some ⟨start, address, type, slice data i stop⟩, ?_, fun s => ?_⟩
    · rw [if_pos hmem, readSlice_spec (by omega)]
      rfl
    · rw [Option.some_inj, and_iff_right hmem, eq_comm]
  · refine ⟨none, if_neg hmem, fun s => ⟨fun h => ?_, fun h => absurd h.1 hmem⟩⟩
    cases h

/-- **`parse_line` reads well-formed lines**, ignores the others, and reads inside the line. -/
theorem parseLine_spec (memory : ℕ → Bool) (hstart : start ≤ stop) (hlen : stop ≤ data.length) :
    ∃ r, parseLine memory data start stop = .ok r ∧ ∀ s, r = some s ↔
      memory start = true ∧ s.line = start ∧ ∃ i j k l, WellFormed data start stop s i j k l := by
  obtain ⟨i, hi, hindent⟩ := skipWhile_spec (p := isSpace) hstart hlen
  obtain ⟨j, hj, hdigits⟩ := skipWhile_spec (p := isHex) hindent.le_stop hlen
  unfold parseLine
  rw [hi, ok_bind, hj, ok_bind]
  by_cases hsome : j = i
  · -- no digit
    refine ⟨none, if_pos hsome, fun s => ⟨fun h => (by cases h), ?_⟩⟩
    rintro ⟨-, -, i', j', k, l, hw⟩
    obtain rfl := hw.indent.unique hindent
    obtain rfl := hw.digits.unique hdigits
    exact absurd hsome.symm hw.someDigit.ne
  have hij : i < j := lt_of_le_of_ne hdigits.start_le (Ne.symm hsome)
  have hvalue : hexToU64 data (j - i) i 0 =
      .ok (some (UInt64.ofNat (hexValue 0 (slice data i j)))) :=
    hexToU64_spec (v := 0) fun k hk hkn => hdigits.all k hk (by omega)
  obtain ⟨k, hk, hgap⟩ := skipWhile_spec (p := isSpace) hdigits.le_stop hlen
  rw [if_neg hsome, hvalue, ok_bind, Option.elim_some, hk, ok_bind]
  by_cases hend : stop ≤ k
  · -- no type
    refine ⟨none, if_pos hend, fun s => ⟨fun h => (by cases h), ?_⟩⟩
    rintro ⟨-, -, i', j', k', l, hw⟩
    obtain rfl := hw.indent.unique hindent
    obtain rfl := hw.digits.unique hdigits
    obtain rfl := hw.gap.unique hgap
    exact absurd hw.beforeType (Nat.not_lt_of_le hend)
  have hklen : k < data.length := by omega
  obtain ⟨type, htype, hread⟩ := exists_readAt hklen
  obtain ⟨l, hl, hsecond⟩ := skipWhile_spec (p := isSpace) (show k + 1 ≤ stop by omega) hlen
  rw [if_neg hend, hread, ok_bind, hl, ok_bind]
  by_cases hname : stop ≤ l
  · -- no name
    refine ⟨none, if_pos hname, fun s => ⟨fun h => (by cases h), ?_⟩⟩
    rintro ⟨-, -, i', j', k', l', hw⟩
    obtain rfl := hw.indent.unique hindent
    obtain rfl := hw.digits.unique hdigits
    obtain rfl := hw.gap.unique hgap
    obtain rfl := hw.secondGap.unique hsecond
    exact absurd hw.beforeName (Nat.not_lt_of_le hname)
  obtain ⟨r, hr, hspec⟩ := symbolCreate_spec memory start
    (UInt64.ofNat (hexValue 0 (slice data i j))) type (Nat.le_of_not_le hname) hlen
  refine ⟨r, (if_neg hname).trans hr, fun s => (hspec s).trans (and_congr_right fun _ => ?_)⟩
  constructor
  · rintro rfl
    exact ⟨rfl, i, j, k, l, hindent, hdigits, hij, hgap, Nat.lt_of_not_le hend, htype, hsecond,
      Nat.lt_of_not_le hname, rfl, rfl⟩
  · rintro ⟨rfl, i', j', k', l', hw⟩
    obtain rfl := hw.indent.unique hindent
    obtain rfl := hw.digits.unique hdigits
    obtain rfl := hw.gap.unique hgap
    obtain rfl := hw.secondGap.unique hsecond
    obtain rfl : type = s.type := Option.some.inj (htype.symm.trans hw.type)
    rw [← hw.address, ← hw.name]

/-- What a line of the text says, for a start of a line and the end of the run. -/
theorem lineSymbol_spec (memory : ℕ → Bool) (hstarts : Starts data start)
    (hrun : Run data (fun c => !isEol c) start stop data.length) :
    ∃ r, lineSymbol memory data start stop = .ok r ∧ ∀ s, r = some s ↔
      memory start = true ∧ s.line = start ∧ Listed data s := by
  unfold lineSymbol
  by_cases hlt : start < stop
  · obtain ⟨r, hr, hspec⟩ := parseLine_spec memory hrun.start_le hrun.le_stop
    refine ⟨r, (if_pos hlt).trans hr, fun s => (hspec s).trans ?_⟩
    refine and_congr_right fun _ => and_congr_right fun hline => ?_
    subst hline
    constructor
    · rintro ⟨i, j, k, l, hw⟩
      exact ⟨stop, i, j, k, l, ⟨hstarts, hlt, hrun⟩, hw⟩
    · rintro ⟨stop', i, j, k, l, hl, hw⟩
      obtain rfl := hl.run.unique hrun
      exact ⟨i, j, k, l, hw⟩
  · refine ⟨none, if_neg hlt, fun s => ⟨fun h => (by cases h), ?_⟩⟩
    rintro ⟨-, rfl, stop', i, j, k, l, hl, -⟩
    obtain rfl := hl.run.unique hrun
    exact absurd hl.nonempty hlt

end Symbols
