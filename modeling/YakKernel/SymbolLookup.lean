/-
# Looking up symbols by address

What `find_symbol_by_address` finds after `load_symbols` (`core/symbol.c`).  The tree keeps, of each
address, the first line for which there was memory; the search goes by the ranges, which end at the
next address.  The range of the last symbol ends at its address plus one, and that wraps around.
-/
import Mathlib.Data.Nat.Find
import YakKernel.Symbols

namespace Symbols

/-! ## What is asked of it -/

/-- Of the lines with its address, the first. -/
def First (data : List UInt8) (s : Symbol) : Prop :=
  Listed data s ∧ ∀ s', Listed data s' → s'.address = s.address → s.line ≤ s'.line

/-- **The symbol at an address**: the first of the greatest address up to it, if there is a greater
address behind, or the address is that of the symbol. -/
structure At (data : List UInt8) (addr : UInt64) (s : Symbol) : Prop where
  first : First data s
  le : s.address ≤ addr
  greatest : ∀ s', Listed data s' → s'.address ≤ addr → s'.address ≤ s.address
  inside : (∃ s', Listed data s' ∧ addr < s'.address) ∨ addr = s.address

/-- The lookups find the symbol at each address, and nothing where there is none. -/
def FindsAll (data : List UInt8) (t : SymbolTree) : Prop :=
  ∀ addr s, findSymbolByAddress t.ends addr t.tree = some s ↔ At data addr s

/-! ## The tree -/

/-- What is kept of the text: of each address the first line for which there was memory. -/
def Kept (memory : ℕ → Bool) (data : List UInt8) (s : Symbol) : Prop :=
  (memory s.line = true ∧ Listed data s) ∧
    ∀ s', memory s'.line = true → Listed data s' → s'.address = s.address → s.line ≤ s'.line

variable {data : List UInt8} {memory : ℕ → Bool} {s s' : Symbol} {addr : UInt64}
  {ends : Symbol → UInt64} {n pos stop next : ℕ} {tree : RbTree.Tree Symbol}

theorem exists_least {P : Symbol → Prop} (h : P s) :
    ∃ x, P x ∧ ∀ y, P y → x.line ≤ y.line := by
  have hex : ∃ n x, P x ∧ x.line = n := ⟨s.line, s, h, rfl⟩
  classical
  obtain ⟨x, hx, hline⟩ := Nat.find_spec hex
  refine ⟨x, hx, fun y hy => ?_⟩
  rw [hline]
  exact Nat.find_min' hex ⟨y, hy, rfl⟩

theorem exists_first (h : Listed data s) : ∃ x, First data x ∧ x.address = s.address := by
  obtain ⟨x, ⟨hx, haddr⟩, hleast⟩ :=
    exists_least (P := fun x => Listed data x ∧ x.address = s.address) ⟨h, rfl⟩
  exact ⟨x, ⟨hx, fun y hy heq => hleast y ⟨hy, heq.trans haddr⟩⟩, haddr⟩

theorem exists_kept (hmem : memory s.line = true) (h : Listed data s) :
    ∃ x, Kept memory data x ∧ x.address = s.address ∧ x.line ≤ s.line := by
  obtain ⟨x, ⟨hx, haddr⟩, hleast⟩ := exists_least
    (P := fun x => (memory x.line = true ∧ Listed data x) ∧ x.address = s.address)
    ⟨⟨hmem, h⟩, rfl⟩
  exact ⟨x, ⟨hx, fun y hm hy heq => hleast y ⟨⟨hm, hy⟩, heq.trans haddr⟩⟩, haddr,
    hleast s ⟨⟨hmem, h⟩, rfl⟩⟩

theorem Listed.unique (h : Listed data s) (h' : Listed data s') (hline : s.line = s'.line) :
    s = s' := by
  obtain ⟨stop, _, _, _, _, hl, -⟩ := id h
  obtain ⟨r, -, hspec⟩ :=
    lineSymbol_spec (fun _ => true) hl.starts hl.run
  have hs := (hspec s).mpr ⟨rfl, rfl, h⟩
  have hs' := (hspec s').mpr ⟨rfl, hline.symm, h'⟩
  exact Option.some.inj (hs.symm.trans hs')

theorem key_inj : s.key = s'.key ↔ s.address = s'.address := UInt64.toNat_inj

/-- What the loop keeps: the tree has what is kept of the lines that have been read. -/
structure Loaded (memory : ℕ → Bool) (data : List UInt8) (pos : ℕ) (tree : RbTree.Tree Symbol) :
    Prop where
  sorted : tree.Sorted Symbol.key
  mem_iff : ∀ s, s ∈ tree.inorder ↔ Kept memory data s ∧ s.line < pos

theorem line_eq (hrun : Run data (fun c => !isEol c) pos stop data.length)
    (hnext : Run data isEol stop next data.length) (h : Listed data s) (hge : pos ≤ s.line)
    (hlt : s.line < next) : s.line = pos := by
  obtain ⟨stop', _, _, _, _, hl, -⟩ := h
  rcases Nat.eq_or_lt_of_le hge with heq | hgt
  · exact heq.symm
  exfalso
  by_cases hstop : s.line ≤ stop
  · -- the byte before it would be in the line
    obtain ⟨c, hc, heol⟩ := hl.starts (s.line - 1) (by omega)
    obtain ⟨d, hd, hno⟩ := hrun.all (s.line - 1) (by omega) (by omega)
    obtain rfl := Option.some.inj (hc.symm.trans hd)
    rw [heol] at hno
    cases hno
  · obtain ⟨c, hc, heol⟩ := hnext.all s.line (by omega) hlt
    obtain ⟨d, hd, hno⟩ := hl.run.all s.line (le_refl _) hl.nonempty
    obtain rfl := Option.some.inj (hc.symm.trans hd)
    rw [heol] at hno
    cases hno

/-- **A round of the loop.** -/
theorem Loaded.step {r : Option Symbol} (h : Loaded memory data pos tree)
    (hrun : Run data (fun c => !isEol c) pos stop data.length)
    (hnext : Run data isEol stop next data.length) (hpos : pos < next)
    (hr : ∀ s, r = some s ↔ memory pos = true ∧ s.line = pos ∧ Listed data s) :
    Loaded memory data next (r.elim tree fun s => tree.insert Symbol.key s) := by
  have hlines : ∀ s, Listed data s → s.line < next → s.line < pos ∨ s.line = pos := by
    intro s hs hlt
    rcases Nat.lt_or_ge s.line pos with hbefore | hge
    · exact Or.inl hbefore
    · exact Or.inr (line_eq hrun hnext hs hge hlt)
  cases r with
  | none =>
    refine ⟨h.sorted, fun s => (h.mem_iff s).trans ⟨fun hs => ⟨hs.1, hs.2.trans hpos⟩, ?_⟩⟩
    rintro ⟨hkept, hlt⟩
    refine ⟨hkept, (hlines s hkept.1.2 hlt).resolve_right fun heq => ?_⟩
    have hnone := (hr s).mpr ⟨heq ▸ hkept.1.1, heq, hkept.1.2⟩
    cases hnone
  | some x =>
    obtain ⟨hmem, hline, hlisted⟩ := (hr x).mp rfl
    obtain ⟨hsorted, hin⟩ := h.sorted.insert x
    refine ⟨hsorted, fun s => (hin s).trans ?_⟩
    rw [h.mem_iff s]
    constructor
    · rintro (⟨hkept, hlt⟩ | ⟨rfl, hnew⟩)
      · exact ⟨hkept, hlt.trans hpos⟩
      · -- a new address: nothing before has it
        refine ⟨⟨⟨hline.symm ▸ hmem, hlisted⟩, fun y hm hy haddr => ?_⟩, hline.symm ▸ hpos⟩
        by_contra hlt
        obtain ⟨z, hz, hzaddr, hzline⟩ := exists_kept hm hy
        exact hnew z ((h.mem_iff z).mpr ⟨hz, by omega⟩) (key_inj.mpr (hzaddr.trans haddr))
    · rintro ⟨hkept, hlt⟩
      refine (hlines s hkept.1.2 hlt).imp (fun hbefore => ⟨hkept, hbefore⟩) fun heq => ?_
      obtain rfl := hkept.1.2.unique hlisted (heq.trans hline.symm)
      refine ⟨rfl, fun y hy hkey => ?_⟩
      obtain ⟨hykept, hyline⟩ := (h.mem_iff y).mp hy
      have hle := hkept.2 y hykept.1.1 hykept.1.2 (key_inj.mp hkey)
      omega

theorem loadLoop_spec : ∀ {n pos : ℕ} {tree : RbTree.Tree Symbol}, data.length - pos < n →
    (pos < data.length → Starts data pos) → pos ≤ data.length → Loaded memory data pos tree →
    ∃ t, loadLoop memory data n pos tree = .ok t ∧ Loaded memory data data.length t := by
  intro n
  induction n with
  | zero =>
    intro pos tree hn
    exact absurd hn (Nat.not_lt_zero _)
  | succ n ih =>
    intro pos tree hn hstarts hle hloaded
    unfold loadLoop
    by_cases hend : data.length ≤ pos
    · obtain rfl := Nat.le_antisymm hle hend
      exact ⟨tree, if_pos hend, hloaded⟩
    obtain ⟨stop, hstop, hrun⟩ := skipWhile_spec (p := fun c => !isEol c) hle (le_refl _)
    obtain ⟨next, hnext, hskip⟩ := skipWhile_spec (p := isEol) hrun.le_stop (le_refl _)
    obtain ⟨r, hr, hspec⟩ :=
      lineSymbol_spec memory (hstarts (Nat.lt_of_not_le hend)) hrun
    have hpos : pos < next := by
      refine lt_of_le_of_ne (hrun.start_le.trans hskip.start_le) fun heq => ?_
      obtain rfl : stop = pos := Nat.le_antisymm (heq ▸ hskip.start_le) hrun.start_le
      obtain ⟨c, hc, hno⟩ := hrun.ends (Nat.lt_of_not_le hend)
      obtain ⟨d, hd, heol⟩ := hskip.ends (heq ▸ Nat.lt_of_not_le hend)
      rw [← heq, hc] at hd
      obtain rfl := Option.some.inj hd
      rw [heol] at hno
      cases hno
    have hbehind : next < data.length → Starts data next := by
      intro hlt j hj
      have hlt' : stop < next := by
        refine lt_of_le_of_ne hskip.start_le fun heq => ?_
        obtain ⟨c, hc, hno⟩ := hrun.ends (heq ▸ hlt)
        obtain ⟨d, hd, heol⟩ := hskip.ends hlt
        rw [← heq, hc] at hd
        obtain rfl := Option.some.inj hd
        rw [heol] at hno
        cases hno
      exact hskip.all j (by omega) (by omega)
    obtain ⟨t, ht, hloaded'⟩ := ih (by omega) hbehind hskip.le_stop
      (hloaded.step hrun hskip hpos hspec)
    refine ⟨t, ?_, hloaded'⟩
    rw [if_neg hend, hstop, ok_bind, hr, ok_bind, hnext, ok_bind]
    exact ht

/-- **The text is loaded.** -/
theorem loadSymbols_spec (memory : ℕ → Bool) (data : List UInt8) :
    ∃ tree, loadSymbols memory data =
        .ok ⟨tree, computeSymbolRanges tree.inorder none fun _ => 0⟩ ∧
      tree.Sorted Symbol.key ∧ ∀ s, s ∈ tree.inorder ↔ Kept memory data s := by
  have hempty : Loaded memory data 0 .nil :=
    ⟨List.Pairwise.nil, fun s =>
      ⟨fun h => (List.not_mem_nil h).elim, fun h => (Nat.not_lt_zero _ h.2).elim⟩⟩
  have hfuel : data.length - 0 < data.length + 1 := Nat.lt_succ_self _
  obtain ⟨tree, htree, hloaded⟩ :=
    loadLoop_spec hfuel (fun _ j hj => absurd hj (by omega)) (Nat.zero_le _) hempty
  refine ⟨tree, ?_, hloaded.sorted, fun s => (hloaded.mem_iff s).trans (and_iff_left_of_imp ?_)⟩
  · rw [loadSymbols, htree]
    rfl
  · rintro ⟨⟨-, stop, _, _, _, _, hl, -⟩, -⟩
    exact lt_of_lt_of_le hl.nonempty hl.run.le_stop

/-! ## The ranges -/

/-- Where the range of a symbol ends: at the next address, or behind the last one. -/
def EndsAt (l : List Symbol) (s : Symbol) (stop : UInt64) : Prop :=
  (∃ s' ∈ l, s.key < s'.key ∧ stop = s'.address ∧ ∀ x ∈ l, s.key < x.key → s'.key ≤ x.key) ∨
    (∀ x ∈ l, x.key ≤ s.key) ∧ stop = s.address + 1

theorem computeSymbolRanges_some : ∀ {l : List Symbol} {p : Symbol} (ends : Symbol → UInt64),
    ((p :: l).Pairwise fun x y => x.key < y.key) →
    (∀ s ∈ p :: l, EndsAt (p :: l) s (computeSymbolRanges l (some p) ends s)) ∧
      ∀ s, s ∉ p :: l → computeSymbolRanges l (some p) ends s = ends s := by
  intro l
  induction l with
  | nil =>
    intro p ends _
    refine ⟨fun s hs => Or.inr ?_, fun s hs => ?_⟩
    · obtain rfl := List.mem_singleton.mp hs
      refine ⟨fun x hx => ?_, Function.update_self _ _ _⟩
      rw [List.mem_singleton.mp hx]
    · exact Function.update_of_ne (fun h => hs (List.mem_singleton.mpr h)) _ _
  | cons sym rest ih =>
    intro p ends hsorted
    obtain ⟨hp, hrest⟩ := List.pairwise_cons.mp hsorted
    obtain ⟨hmem, hother⟩ := ih (Function.update ends p sym.address) hrest
    have hfresh : p ∉ sym :: rest := fun h => lt_irrefl _ (hp p h)
    refine ⟨fun s hs => ?_, fun s hs => ?_⟩
    · rcases List.mem_cons.mp hs with rfl | hs
      · -- the symbol that was still open ends here
        refine Or.inl ⟨sym, by simp, hp sym (by simp), ?_, fun x hx hlt => ?_⟩
        · exact (hother s hfresh).trans (Function.update_self _ _ _)
        · rcases List.mem_cons.mp hx with rfl | hx
          · exact absurd hlt (lt_irrefl _)
          · rcases List.mem_cons.mp hx with rfl | hx
            · exact le_refl _
            · exact ((List.pairwise_cons.mp hrest).1 x hx).le
      · have hps := hp s hs
        rcases hmem s hs with ⟨s', hs', hlt, heq, hleast⟩ | ⟨hlast, heq⟩
        · refine Or.inl ⟨s', List.mem_cons_of_mem _ hs', hlt, heq, fun x hx hx' => ?_⟩
          rcases List.mem_cons.mp hx with rfl | hx
          · exact absurd hx' (Nat.not_lt_of_lt hps)
          · exact hleast x hx hx'
        · refine Or.inr ⟨fun x hx => ?_, heq⟩
          rcases List.mem_cons.mp hx with rfl | hx
          · exact hps.le
          · exact hlast x hx
    · obtain ⟨hne, hnot⟩ := not_or.mp (fun h => hs (List.mem_cons.mpr h))
      exact (hother s hnot).trans (Function.update_of_ne hne _ _)

/-- **The ranges** end at the next address. -/
theorem computeSymbolRanges_spec (ends : Symbol → UInt64) {l : List Symbol}
    (hsorted : l.Pairwise fun x y => x.key < y.key) :
    ∀ s ∈ l, EndsAt l s (computeSymbolRanges l none ends s) := by
  cases l with
  | nil => exact fun s hs => (List.not_mem_nil hs).elim
  | cons p l => exact (computeSymbolRanges_some ends hsorted).1

/-- No range goes beyond a symbol behind it. -/
def Apart (ends : Symbol → UInt64) (t : RbTree.Tree Symbol) : Prop :=
  ∀ x ∈ t.inorder, ∀ y ∈ t.inorder, x.key < y.key → ends x ≤ y.address

/-- **The search by ranges** finds the symbol whose range has the address. -/
theorem findSymbolByAddress_spec {t : RbTree.Tree Symbol} : t.Sorted Symbol.key → Apart ends t →
    (findSymbolByAddress ends addr t = some s ↔
      s ∈ t.inorder ∧ s.address ≤ addr ∧ addr < ends s) := by
  induction t with
  | nil =>
    intro _ _
    exact ⟨fun h => (by cases h), fun h => (List.not_mem_nil h.1).elim⟩
  | node c l x r ihl ihr =>
    intro hsorted hapart
    obtain ⟨hsl, hsr, hl, hr⟩ := RbTree.Tree.sorted_node.mp hsorted
    have hmem : ∀ y, y ∈ (RbTree.Tree.node c l x r).inorder ↔
        y ∈ l.inorder ∨ y = x ∨ y ∈ r.inorder := by
      intro y
      rw [RbTree.Tree.inorder, List.mem_append, List.mem_cons]
    have hal : Apart ends l := fun y hy z hz =>
      hapart y ((hmem y).mpr (Or.inl hy)) z ((hmem z).mpr (Or.inl hz))
    have har : Apart ends r := fun y hy z hz =>
      hapart y ((hmem y).mpr (Or.inr (Or.inr hy))) z ((hmem z).mpr (Or.inr (Or.inr hz)))
    -- the ranges on the left end at or before `x`
    have hleft : ∀ y ∈ l.inorder, ends y ≤ x.address := fun y hy =>
      hapart y ((hmem y).mpr (Or.inl hy)) x ((hmem x).mpr (Or.inr (Or.inl rfl))) (hl y hy)
    have hright : ∀ y ∈ r.inorder, x.address < y.address := fun y hy =>
      UInt64.lt_iff_toNat_lt.mpr (hr y hy)
    have hbound : ∀ y ∈ r.inorder, ends x ≤ y.address := fun y hy =>
      hapart x ((hmem x).mpr (Or.inr (Or.inl rfl))) y ((hmem y).mpr (Or.inr (Or.inr hy))) (hr y hy)
    unfold findSymbolByAddress
    by_cases hlt : addr < x.address
    · rw [if_pos hlt, ihl hsl hal, hmem]
      refine ⟨fun h => ⟨Or.inl h.1, h.2⟩, ?_⟩
      rintro ⟨hs | rfl | hs, hrange⟩
      · exact ⟨hs, hrange⟩
      · exact absurd hrange.1 (UInt64.not_le.mpr hlt)
      · exact absurd hrange.1 (UInt64.not_le.mpr (UInt64.lt_trans hlt (hright s hs)))
    rw [if_neg hlt]
    have hge := UInt64.not_lt.mp hlt
    by_cases hend : ends x ≤ addr
    · rw [if_pos hend, ihr hsr har, hmem]
      refine ⟨fun h => ⟨Or.inr (Or.inr h.1), h.2⟩, ?_⟩
      rintro ⟨hs | rfl | hs, hrange⟩
      · exact absurd hrange.2 (UInt64.not_lt.mpr (UInt64.le_trans (hleft s hs) hge))
      · exact absurd hrange.2 (UInt64.not_lt.mpr hend)
      · exact ⟨hs, hrange⟩
    · rw [if_neg hend, Option.some_inj, hmem]
      have hin := UInt64.not_le.mp hend
      refine ⟨fun h => h ▸ ⟨Or.inr (Or.inl rfl), hge, hin⟩, ?_⟩
      rintro ⟨hs | rfl | hs, hrange⟩
      · exact absurd hrange.2 (UInt64.not_lt.mpr (UInt64.le_trans (hleft s hs) hge))
      · rfl
      · exact absurd hrange.1 (UInt64.not_le.mpr (UInt64.lt_of_lt_of_le hin (hbound s hs)))

/-! ## What is found -/

theorem First.at_address (h : First data s) : At data s.address s :=
  ⟨h, UInt64.le_refl _, fun _ _ hle => hle, Or.inr rfl⟩

theorem kept_iff_first (hmem : ∀ s, First data s → memory s.line = true) :
    Kept memory data s ↔ First data s := by
  constructor
  · intro h
    obtain ⟨x, hx, haddr⟩ := exists_first h.1.2
    have hle := h.2 x (hmem x hx) hx.1 haddr
    have hge := hx.2 s h.1.2 haddr.symm
    obtain rfl := h.1.2.unique hx.1 (Nat.le_antisymm hle hge)
    exact hx
  · exact fun h => ⟨⟨hmem s h, h.1⟩, fun s' _ => h.2 s'⟩

theorem apart_of_endsAt (h : ∀ s ∈ tree.inorder, EndsAt tree.inorder s (ends s)) :
    Apart ends tree := by
  intro x hx y hy hlt
  rcases h x hx with ⟨s', -, -, heq, hleast⟩ | ⟨hlast, -⟩
  · rw [heq]
    exact UInt64.le_iff_toNat_le.mpr (hleast y hy hlt)
  · exact absurd hlt (Nat.not_lt_of_le (hlast y hy))

theorem lt_succ_address {a b : UInt64} (hmax : b ≠ 0xffffffffffffffff) :
    a < b + 1 ↔ a ≤ b := by
  have hne : b.toNat ≠ 2 ^ 64 - 1 := fun h => hmax (UInt64.toNat_inj.mp h)
  have hbound := b.toNat_lt
  have hsucc : (b + 1).toNat = b.toNat + 1 := by
    rw [UInt64.toNat_add]
    exact Nat.mod_eq_of_lt (show b.toNat + 1 < 2 ^ 64 by omega)
  rw [UInt64.lt_iff_toNat_lt, hsucc, UInt64.le_iff_toNat_le, Nat.lt_succ_iff]

/-- **The symbol at an address has it in its range**, if the last range does not wrap around. -/
theorem at_iff (hsorted : tree.Sorted Symbol.key) (hmem : ∀ s, s ∈ tree.inorder ↔ First data s)
    (hends : ∀ s ∈ tree.inorder, EndsAt tree.inorder s (ends s))
    (hmax : ∀ s, Listed data s → s.address ≠ 0xffffffffffffffff) :
    findSymbolByAddress ends addr tree = some s ↔ At data addr s := by
  rw [findSymbolByAddress_spec hsorted (apart_of_endsAt hends), hmem]
  -- each address of the text is in the tree
  have hall : ∀ x, Listed data x → ∃ y ∈ tree.inorder, y.address = x.address := by
    intro x hx
    obtain ⟨y, hy, heq⟩ := exists_first hx
    exact ⟨y, (hmem y).mpr hy, heq⟩
  constructor
  · rintro ⟨hfirst, hle, hlt⟩
    rcases hends s ((hmem s).mpr hfirst) with ⟨s', hs', -, heq, hleast⟩ | ⟨hlast, heq⟩
    · refine ⟨hfirst, hle, fun x hx hxle => ?_, Or.inl ⟨s', ((hmem s').mp hs').1, heq ▸ hlt⟩⟩
      obtain ⟨y, hy, hyx⟩ := hall x hx
      by_contra hgt
      rw [← hyx] at hgt
      have hkey : s'.key ≤ y.key :=
        hleast y hy (UInt64.lt_iff_toNat_lt.mp (UInt64.not_le.mp hgt))
      have hs'le : s'.address ≤ addr :=
        UInt64.le_trans (UInt64.le_iff_toNat_le.mpr hkey) (hyx ▸ hxle)
      exact absurd (heq ▸ hlt) (UInt64.not_lt.mpr hs'le)
    · have heq' : addr = s.address :=
        UInt64.le_antisymm ((lt_succ_address (hmax s hfirst.1)).mp (heq ▸ hlt)) hle
      rw [heq']
      exact hfirst.at_address
  · rintro ⟨hfirst, hle, hgreatest, hinside⟩
    refine ⟨hfirst, hle, ?_⟩
    rcases hends s ((hmem s).mpr hfirst) with ⟨s', hs', hlt, heq, -⟩ | ⟨hlast, heq⟩
    · rw [heq]
      by_contra hge
      have hs'le := hgreatest s' ((hmem s').mp hs').1 (UInt64.not_lt.mp hge)
      exact absurd hlt (Nat.not_lt_of_le (UInt64.le_iff_toNat_le.mp hs'le))
    · rw [heq, lt_succ_address (hmax s hfirst.1)]
      rcases hinside with ⟨x, hx, hlt⟩ | rfl
      · obtain ⟨y, hy, hyx⟩ := hall x hx
        have hyle : y.address ≤ s.address := UInt64.le_iff_toNat_le.mpr (hlast y hy)
        exact UInt64.le_of_lt (UInt64.lt_of_lt_of_le hlt (hyx ▸ hyle))
      · exact UInt64.le_refl _

/-- A symbol at the greatest address is not found: its range ends at zero. -/
theorem not_findsAll_of_max (h : Listed data s) (hmax : s.address = 0xffffffffffffffff)
    {t : SymbolTree} (hload : loadSymbols memory data = .ok t) : ¬ FindsAll data t := by
  intro hfinds
  obtain ⟨tree, htree, hsorted, hmem⟩ := loadSymbols_spec memory data
  obtain rfl := Except.ok.inj (hload.symm.trans htree)
  obtain ⟨x, hx, haddr⟩ := exists_first h
  have hends := computeSymbolRanges_spec (fun _ => 0) hsorted
  obtain ⟨hin, -, hlt⟩ := (findSymbolByAddress_spec hsorted (apart_of_endsAt hends)).mp
    ((hfinds x.address x).mpr hx.at_address)
  have hxmax := haddr.trans hmax
  rcases hends x hin with ⟨s', -, hgt, -⟩ | ⟨-, heq⟩
  · have hkey : x.key = 2 ^ 64 - 1 := congrArg UInt64.toNat hxmax
    have hbound : s'.key < 2 ^ 64 := s'.address.toNat_lt
    omega
  · rw [heq, hxmax] at hlt
    exact absurd hlt (by decide)

/-- **Lookups find the symbols of the text** exactly if there was memory for the first line of each
address and no symbol is at the greatest address. -/
theorem loadSymbols_findsAll_iff (memory : ℕ → Bool) (data : List UInt8) :
    (∃ t, loadSymbols memory data = .ok t ∧ FindsAll data t) ↔
      (∀ s, First data s → memory s.line = true) ∧
        ∀ s, Listed data s → s.address ≠ 0xffffffffffffffff := by
  obtain ⟨tree, htree, hsorted, hmem⟩ := loadSymbols_spec memory data
  have hends := computeSymbolRanges_spec (fun _ => 0) hsorted
  constructor
  · rintro ⟨t, hload, hfinds⟩
    refine ⟨fun s hs => ?_, fun s hs hmax => not_findsAll_of_max hs hmax hload hfinds⟩
    obtain rfl := Except.ok.inj (hload.symm.trans htree)
    obtain ⟨hin, -⟩ := (findSymbolByAddress_spec hsorted (apart_of_endsAt hends)).mp
      ((hfinds s.address s).mpr hs.at_address)
    exact ((hmem s).mp hin).1.1
  · rintro ⟨hfirst, hmax⟩
    exact ⟨_, htree, fun addr s =>
      at_iff hsorted (fun s => (hmem s).trans (kept_iff_first hfirst)) hends hmax⟩

theorem listed_of_lineSymbol {start : ℕ} (hstarts : Starts data start)
    (hstop : skipWhile data (fun c => !isEol c) start data.length = .ok stop)
    (hread : lineSymbol (fun _ => true) data start stop = .ok (some s))
    (hle : start ≤ data.length) : Listed data s := by
  obtain ⟨j, hj, hrun⟩ := skipWhile_spec (p := fun c => !isEol c) hle (le_refl _)
  obtain rfl := Except.ok.inj (hstop.symm.trans hj)
  obtain ⟨r, hr, hspec⟩ := lineSymbol_spec (fun _ => true) hstarts hrun
  obtain rfl := Except.ok.inj (hread.symm.trans hr)
  exact ((hspec s).mp rfl).2.2

/-- The text `ffffffffffffffff T x`. -/
def greatestText : List UInt8 := List.replicate 16 0x66 ++ [0x20, 0x54, 0x20, 0x78]

/-- Its symbol is not found. -/
theorem loadSymbols_not_findsAll :
    ¬ ∃ t, loadSymbols (fun _ => true) greatestText = .ok t ∧ FindsAll greatestText t := by
  rintro ⟨t, hload, hfinds⟩
  have hstarts : Starts greatestText 0 := fun j hj => absurd hj (Nat.succ_ne_zero j).symm
  have hstop : skipWhile greatestText (fun c => !isEol c) 0 greatestText.length = .ok 20 := by
    decide
  have hread : lineSymbol (fun _ => true) greatestText 0 20 =
      .ok (some ⟨0, 0xffffffffffffffff, 0x54, [0x78]⟩) := by
    decide
  exact not_findsAll_of_max (listed_of_lineSymbol hstarts hstop hread (Nat.zero_le _)) rfl hload
    hfinds

end Symbols
