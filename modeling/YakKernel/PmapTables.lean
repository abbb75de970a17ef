/-
# The tree of page tables

Every page table in use is at the end of one path of one pmap, and the upper half of every root is
the kernel's.  `pte_fetch` adds tables to the tree; a store that neither overwrites nor makes a
pointer to a table leaves it as it is.
-/
import YakKernel.Pmap

namespace Pmap

open RadixTree

set_option linter.unusedSectionVars false

/-! ## Entries -/

theorem levelIndex_lt (va : Vaddr) (lvl : ℕ) : levelIndex va lvl < 512 := by
  have hle : levelIndex va lvl ≤ (511 : BitVec 64).toNat := by
    rw [levelIndex, BitVec.toNat_and]
    exact Nat.and_le_right
  exact Nat.lt_succ_of_le hle

theorem pathTo_length (va : Vaddr) (depth : ℕ) : (pathTo va depth).length = depth := by
  induction depth with
  | zero => rfl
  | succ d ih => rw [pathTo, List.length_append, ih, List.length_singleton]

theorem ptePaddr_makeDir {pa : Paddr} (h : ptePaddr pa = pa) : ptePaddr (pteMakeDir pa) = pa := by
  have hflags : (ptePresent ||| pteWrite ||| pteUser) &&& pteAddress = 0 := by decide
  have hpa : pa &&& pteAddress = pa := h
  rw [ptePaddr, pteMakeDir, BitVec.and_or_distrib_right, hflags, hpa]
  exact BitVec.zero_or

theorem pteIsZero_makeDir (pa : Paddr) : pteIsZero (pteMakeDir pa) = false := by
  apply decide_eq_false
  intro hzero
  have hbit := congrArg (fun x : BitVec 64 => x.getLsbD 0) hzero
  simp [pteMakeDir, ptePresent, pteWrite, pteUser] at hbit

theorem pteIsLarge_makeDir {pa : Paddr} (h : ptePaddr pa = pa) (lvl : ℕ) :
    pteIsLarge (pteMakeDir pa) lvl = false := by
  have hflags : (ptePresent ||| pteWrite ||| pteUser) &&& ptePagesize = 0 := by decide
  have hmask : pteAddress &&& ptePagesize = 0 := by decide
  have hpa : pa &&& ptePagesize = 0 := by
    have hpa : pa &&& pteAddress = pa := h
    rw [← hpa, BitVec.and_assoc, hmask]
    exact BitVec.and_zero
  apply decide_eq_false
  rintro ⟨_, hbit⟩
  rw [pteMakeDir, BitVec.and_or_distrib_right, hflags, hpa] at hbit
  exact hbit rfl

theorem pteChild_zero (lvl : ℕ) : pteChild lvl 0 = none :=
  if_neg (fun h => Bool.noConfusion h.2.1)

theorem pteChild_leaf (pte : Pte) : pteChild 0 pte = none := if_neg (fun h => h.1 rfl)

theorem pteChild_makeDir {pa : Paddr} {lvl : ℕ} (h : ptePaddr pa = pa) (hlvl : lvl ≠ 0) :
    pteChild lvl (pteMakeDir pa) = some pa := by
  rw [pteChild, if_pos ⟨hlvl, pteIsZero_makeDir pa, pteIsLarge_makeDir h lvl⟩,
    ptePaddr_makeDir h]

theorem pteChild_make (level : ℕ) (pa : Paddr) (prot : VmProt) (cache : VmCache) :
    pteChild level (pteMake level pa prot cache) = none := by
  apply if_neg
  rintro ⟨hlvl, _, hlarge⟩
  have hpos : 0 < level := Nat.pos_of_ne_zero hlvl
  have hsmall := of_decide_eq_false hlarge
  apply hsmall
  refine ⟨hpos, fun hzero => ?_⟩
  have hbit := congrArg (fun x : BitVec 64 => x.getLsbD 7) hzero
  simp [pteMake, ptePagesize, hpos] at hbit

theorem child_of_lt {mem : Paddr → ℕ → Pte} {lvl i : ℕ} {table : Paddr} (hi : i < 512) :
    child mem lvl table i = pteChild lvl (mem table i) := if_pos hi

theorem child_leaf (mem : Paddr → ℕ → Pte) (table : Paddr) (i : ℕ) :
    child mem 0 table i = none := by
  rw [child, pteChild_leaf, ite_self]

theorem lt_of_child {mem : Paddr → ℕ → Pte} {lvl i : ℕ} {table c : Paddr}
    (h : child mem lvl table i = some c) : i < 512 := by
  by_contra hi
  rw [child, if_neg hi] at h
  cases h

theorem child_congr {mem mem' : Paddr → ℕ → Pte} {lvl i : ℕ} {table table' : Paddr}
    (h : mem' table' i = mem table i) : child mem' lvl table' i = child mem lvl table i := by
  rw [child, child, h]

theorem child_eq_none {mem : Paddr → ℕ → Pte} {lvl i : ℕ} {table : Paddr} {pte : Pte}
    (h : mem table i = pte) (hnone : pteChild lvl pte = none) : child mem lvl table i = none := by
  rw [child, h, hnone, ite_self]

variable {P : Type} [DecidableEq P] {kernel p q : P} {s s' : State P} {pa pg t : Paddr} {i : ℕ}

theorem ownerOf_concat {path : List ℕ} (hne : path ≠ []) (i : ℕ) :
    ownerOf kernel p (path ++ [i]) = ownerOf kernel p path := by
  cases path with
  | nil => exact absurd rfl hne
  | cons j path => rfl

theorem ownerOf_ownerOf (path : List ℕ) :
    ownerOf kernel (ownerOf kernel p path) path = ownerOf kernel p path := by
  cases path with
  | nil => rfl
  | cons j path =>
    by_cases hj : j < 256
    · simp only [ownerOf, hj, if_true]
    · simp only [ownerOf, hj, if_false]

theorem ownerOf_kernel (path : List ℕ) : ownerOf kernel kernel path = kernel := by
  cases path with
  | nil => rfl
  | cons j path => rw [ownerOf, ite_self]

theorem State.pteStore_apply (s : State P) (t pg : Paddr) (i j : ℕ) (pte : Pte) :
    (s.pteStore t i pte).mem pg j = if pg = t ∧ j = i then pte else s.mem pg j := by
  rw [State.pteStore_mem]
  by_cases hpg : pg = t
  · subst hpg
    rw [Function.update_self]
    by_cases hj : j = i
    · rw [hj, Function.update_self, if_pos ⟨rfl, rfl⟩]
    · rw [Function.update_of_ne hj, if_neg (fun hand => hj hand.2)]
  · rw [Function.update_of_ne hpg, if_neg (fun hand => hpg hand.1)]

/-! ## The invariant -/

/-- The table at the end of a path of `p`. -/
def State.tableAt (s : State P) (p : P) (path : List ℕ) : Option Paddr :=
  walk (child s.mem) 3 (s.topLevel p) path

/-- The tables in use are the ends of the paths, and each is at the end of one. -/
structure State.Tree (kernel : P) (s : State P) : Prop where
  tableAt_iff : ∀ p, s.live p = true → ∀ path pg,
    s.tableAt p path = some pg ↔ s.tables pg = some ⟨ownerOf kernel p path, path⟩
  owner : ∀ pg table, s.tables pg = some table →
    s.live table.owner = true ∧ ownerOf kernel table.owner table.path = table.owner
  page : ∀ pg table, s.tables pg = some table → pg ≠ 0 ∧ ptePaddr pg = pg
  kernel : s.live kernel = true

/-- The upper half of every root is that of the kernel, all of whose entries point to tables. -/
structure State.Shared (kernel : P) (s : State P) : Prop where
  same : ∀ p, s.live p = true → ∀ i, 256 ≤ i → i < 512 →
    s.mem (s.topLevel p) i = s.mem (s.topLevel kernel) i
  dir : ∀ i, 256 ≤ i → i < 512 → child s.mem 3 (s.topLevel kernel) i ≠ none

/-- **The invariant of the page tables.** -/
structure State.Inv (kernel : P) (s : State P) : Prop where
  tree : s.Tree kernel
  shared : s.Shared kernel

/-- Every table of `p` was allocated for the place where it is. -/
def State.Labelled (kernel p : P) (s : State P) : Prop :=
  ∀ path pg, s.tableAt p path = some pg → s.tables pg = some ⟨ownerOf kernel p path, path⟩

theorem State.Tree.labelled (h : s.Tree kernel) (hp : s.live p = true) : s.Labelled kernel p :=
  fun path pg => (h.tableAt_iff p hp path pg).mp

theorem State.Labelled.distinct (h : s.Labelled kernel p) :
    Distinct (child s.mem) 3 (s.topLevel p) := by
  intro path path' c hw hw'
  have hl := h path c hw
  have hl' := h path' c hw'
  rw [hl, Option.some.injEq, Table.mk.injEq] at hl'
  exact hl'.2

theorem State.Tree.root (h : s.Tree kernel) (hp : s.live p = true) :
    s.tables (s.topLevel p) = some ⟨p, []⟩ :=
  (h.tableAt_iff p hp [] _).mp rfl

theorem State.Tree.distinct (h : s.Tree kernel) (hp : s.live p = true) :
    Distinct (child s.mem) 3 (s.topLevel p) := (h.labelled hp).distinct

theorem State.Inv.upper (h : s.Inv kernel) (hp : s.live p = true) (hlo : 256 ≤ i) (hhi : i < 512) :
    child s.mem 3 (s.topLevel p) i ≠ none := by
  rw [child_congr (h.shared.same p hp i hlo hhi)]
  exact h.shared.dir i hlo hhi

theorem State.Tree.root_of_label (h : s.Tree kernel) (hp : s.live p = true) {path : List ℕ} {o : P}
    (ht : s.tables t = some ⟨o, path⟩) (hroot : t = s.topLevel p) : path = [] ∧ o = p := by
  rw [hroot, h.root hp, Option.some.injEq, Table.mk.injEq] at ht
  exact ⟨ht.2.symm, ht.1.symm⟩

/-! ## Stores -/

/-- The tree depends on the memory only through what the entries of the tables in use point to. -/
theorem State.Tree.of_child (h : s.Tree kernel) (htop : s'.topLevel = s.topLevel)
    (hlive : s'.live = s.live) (htables : s'.tables = s.tables)
    (hchild : ∀ pg table i, s.tables pg = some table →
      child s'.mem (3 - table.path.length) pg i = child s.mem (3 - table.path.length) pg i) :
    s'.Tree kernel where
  tableAt_iff := by
    intro p hp path pg
    rw [hlive] at hp
    have hwalk : s'.tableAt p path = s.tableAt p path := by
      rw [State.tableAt, State.tableAt, htop]
      apply walk_congr
      intro path' c i hc
      exact hchild c _ i ((h.tableAt_iff p hp path' c).mp hc)
    rw [hwalk, htables]
    exact h.tableAt_iff p hp path pg
  owner := by
    rw [htables, hlive]
    exact h.owner
  page := by
    rw [htables]
    exact h.page
  kernel := by
    rw [hlive]
    exact h.kernel

/-- **A store of an entry** that pointed to no table and points to none. -/
theorem State.Inv.store (h : s.Inv kernel) {table : Table P} {pte : Pte}
    (ht : s.tables t = some table) (hold : child s.mem (3 - table.path.length) t i = none)
    (hnew : pteChild (3 - table.path.length) pte = none) : (s.pteStore t i pte).Inv kernel where
  tree := by
    refine h.tree.of_child rfl rfl rfl ?_
    intro pg table' j htable'
    by_cases hhere : pg = t ∧ j = i
    · obtain ⟨rfl, rfl⟩ := hhere
      rw [ht, Option.some.injEq] at htable'
      rw [← htable', hold]
      refine child_eq_none ?_ hnew
      rw [State.pteStore_apply]
      exact if_pos ⟨rfl, rfl⟩
    · apply child_congr
      rw [State.pteStore_apply, if_neg hhere]
  shared := by
    have hframe : ∀ q, s.live q = true → ∀ j, 256 ≤ j → j < 512 →
        (s.pteStore t i pte).mem (s.topLevel q) j = s.mem (s.topLevel q) j := by
      intro q hq j hlo hhi
      rw [State.pteStore_apply]
      apply if_neg
      rintro ⟨hroot, rfl⟩
      have hpath := (h.tree.root_of_label hq ht hroot.symm).1
      rw [hpath, ← hroot] at hold
      exact h.upper hq hlo hhi hold
    constructor
    · intro q hq j hlo hhi
      show (s.pteStore t i pte).mem (s.topLevel q) j =
        (s.pteStore t i pte).mem (s.topLevel kernel) j
      rw [hframe q hq j hlo hhi, hframe kernel h.tree.kernel j hlo hhi]
      exact h.shared.same q hq j hlo hhi
    · intro j hlo hhi
      show child (s.pteStore t i pte).mem 3 (s.topLevel kernel) j ≠ none
      rw [child_congr (hframe kernel h.tree.kernel j hlo hhi)]
      exact h.shared.dir j hlo hhi

/-! ## A new table -/

/-- The state after a table was allocated and entry `i` of table `t` was set to point to it. -/
def State.grow (s : State P) (rest : List Paddr) (t : Paddr) (i : ℕ) (pa : Paddr)
    (table : Table P) : State P :=
  ((s.takePage pa rest).pteStore t i (pteMakeDir pa)).record pa (some table)

theorem State.grow_mem (s : State P) (rest : List Paddr) (t : Paddr) (i : ℕ) (pa : Paddr)
    (table : Table P) (pg : Paddr) (j : ℕ) : (s.grow rest t i pa table).mem pg j =
      if pg = t ∧ j = i then pteMakeDir pa else if pg = pa then 0 else s.mem pg j := by
  show ((s.takePage pa rest).pteStore t i (pteMakeDir pa)).mem pg j = _
  rw [State.pteStore_apply, State.takePage_mem]
  by_cases hpg : pg = pa
  · rw [hpg, Function.update_self, if_pos rfl]
  · rw [Function.update_of_ne hpg, if_neg hpg]

section

variable {path : List ℕ} {rest : List Paddr} {table : Table P}

theorem State.Labelled.tableAt_grow {o : P} (h : s.Labelled kernel q) (rest : List Paddr)
    (table : Table P) (ht : s.tables t = some ⟨o, path⟩) (hlen : path.length < 3) (hi : i < 512)
    (hzero : s.mem t i = 0) (hfresh : s.Fresh pa) (path' : List ℕ) :
    (s.grow rest t i pa table).tableAt q path' =
      if path' = path ++ [i] ∧ s.tableAt q path = some t then some pa
      else s.tableAt q path' := by
  obtain ⟨hfree, _, haddr⟩ := hfresh
  have htpa : t ≠ pa := by
    rintro rfl
    rw [hfree] at ht
    cases ht
  refine walk_add ?_ ?_ ?_ ?_ ?_ ?_ path'
  · intro path' hw
    have hlabel' := h path' t hw
    rw [ht, Option.some.injEq, Table.mk.injEq] at hlabel'
    exact hlabel'.2.symm
  · intro path' hw
    have hlabel' := h path' pa hw
    rw [hfree] at hlabel'
    cases hlabel'
  · intro k c j hc hother
    apply child_congr
    rw [State.grow_mem, if_neg hother, if_neg hc]
  · intro k j
    refine child_eq_none ?_ (pteChild_zero k)
    rw [State.grow_mem, if_neg (fun hand => htpa hand.1.symm), if_pos rfl]
  · exact child_eq_none hzero (pteChild_zero _)
  · rw [child_of_lt hi, State.grow_mem, if_pos ⟨rfl, rfl⟩]
    exact pteChild_makeDir haddr (by omega)

theorem State.Tree.tableAt_grow (h : s.Tree kernel) (rest : List Paddr) (table : Table P)
    (hp : s.live p = true)
    (ht : s.tableAt p path = some t) (hlen : path.length < 3) (hi : i < 512)
    (hzero : s.mem t i = 0) (hfresh : s.Fresh pa) (hq : s.live q = true) (path' : List ℕ) :
    (s.grow rest t i pa table).tableAt q path' =
      if path' = path ++ [i] ∧ s.tableAt q path = some t then some pa
      else s.tableAt q path' :=
  (h.labelled hq).tableAt_grow rest table (h.labelled hp path t ht) hlen hi hzero hfresh path'

/-- **A table is added to the tree.** -/
theorem State.Tree.grow (h : s.Tree kernel) (rest : List Paddr) (hp : s.live p = true)
    (ht : s.tableAt p path = some t) (hlen : path.length < 3) (hi : i < 512)
    (hzero : s.mem t i = 0) (hfresh : s.Fresh pa)
    (hhalf : path = [] → i < 256 ∨ ∀ q, s.live q = true → q = p) :
    (s.grow rest t i pa ⟨ownerOf kernel p (path ++ [i]), path ++ [i]⟩).Tree kernel := by
  have hlabel := (h.tableAt_iff p hp path t).mp ht
  have htables : ∀ pg, (s.grow rest t i pa ⟨ownerOf kernel p (path ++ [i]), path ++ [i]⟩).tables pg
      = if pg = pa then some ⟨ownerOf kernel p (path ++ [i]), path ++ [i]⟩ else s.tables pg := by
    intro pg
    exact Function.update_apply _ _ _ _
  have howner : s.live (ownerOf kernel p (path ++ [i])) = true := by
    cases hcase : path ++ [i] with
    | nil => exact hp
    | cons j path' =>
      by_cases hj : j < 256
      · rw [ownerOf, if_pos hj]
        exact hp
      · rw [ownerOf, if_neg hj]
        exact h.kernel
  constructor
  · intro q hq path' pg
    change s.live q = true at hq
    rw [h.tableAt_grow rest _ hp ht hlen hi hzero hfresh hq path', htables]
    -- who has the table on its way, has the new one
    have hshares : s.tableAt q path = some t ↔
        ownerOf kernel p (path ++ [i]) = ownerOf kernel q (path ++ [i]) := by
      rw [h.tableAt_iff q hq path t, hlabel, Option.some.injEq, Table.mk.injEq]
      by_cases hpath : path = []
      · subst hpath
        show p = q ∧ _ ↔ ownerOf kernel p [i] = ownerOf kernel q [i]
        rcases hhalf rfl with hi' | hone
        · simp only [ownerOf, if_pos hi', and_true]
        · rw [hone q hq]
          exact ⟨fun _ => rfl, fun _ => ⟨rfl, rfl⟩⟩
      · rw [ownerOf_concat hpath, ownerOf_concat hpath]
        exact ⟨fun hand => hand.1, fun heq => ⟨heq, rfl⟩⟩
    by_cases hpg : pg = pa
    · rw [hpg, if_pos rfl, Option.some.injEq, Table.mk.injEq]
      by_cases hnew : path' = path ++ [i] ∧ s.tableAt q path = some t
      · rw [if_pos hnew, hnew.1]
        exact ⟨fun _ => ⟨hshares.mp hnew.2, rfl⟩, fun _ => rfl⟩
      · rw [if_neg hnew]
        constructor
        · intro hw
          have hno := (h.tableAt_iff q hq path' pa).mp hw
          rw [hfresh.1] at hno
          cases hno
        · rintro ⟨howners, rfl⟩
          exact absurd ⟨rfl, hshares.mpr howners⟩ hnew
    · rw [if_neg hpg]
      by_cases hnew : path' = path ++ [i] ∧ s.tableAt q path = some t
      · rw [if_pos hnew]
        constructor
        · intro hno
          exact absurd (Option.some.inj hno).symm hpg
        · intro hno
          have hw := (h.tableAt_iff q hq path' pg).mpr hno
          rw [State.tableAt, hnew.1, walk_concat] at hw
          have hq' : walk (child s.mem) 3 (s.topLevel q) path = some t := hnew.2
          rw [hq', Option.bind_some, child_eq_none hzero (pteChild_zero _)] at hw
          cases hw
      · rw [if_neg hnew]
        exact h.tableAt_iff q hq path' pg
  · intro pg table' htable'
    rw [htables] at htable'
    by_cases hpg : pg = pa
    · rw [if_pos hpg, Option.some.injEq] at htable'
      rw [← htable']
      exact ⟨howner, ownerOf_ownerOf _⟩
    · rw [if_neg hpg] at htable'
      exact h.owner pg table' htable'
  · intro pg table' htable'
    rw [htables] at htable'
    by_cases hpg : pg = pa
    · rw [hpg]
      exact hfresh.2
    · rw [if_neg hpg] at htable'
      exact h.page pg table' htable'
  · exact h.kernel

theorem State.Inv.grow (h : s.Inv kernel) (rest : List Paddr) (hp : s.live p = true)
    (ht : s.tableAt p path = some t) (hlen : path.length < 3) (hi : i < 512)
    (hzero : s.mem t i = 0) (hfresh : s.Fresh pa) :
    (s.grow rest t i pa ⟨ownerOf kernel p (path ++ [i]), path ++ [i]⟩).Inv kernel := by
  have hlabel := (h.tree.tableAt_iff p hp path t).mp ht
  have hlow : ∀ q, s.live q = true → t = s.topLevel q → i < 256 := by
    intro q hq hroot
    by_contra hno
    refine h.upper hq (Nat.le_of_not_lt hno) hi (child_eq_none ?_ (pteChild_zero _))
    rw [← hroot, hzero]
  have hframe : ∀ q, s.live q = true → ∀ j, 256 ≤ j →
      (s.grow rest t i pa ⟨ownerOf kernel p (path ++ [i]), path ++ [i]⟩).mem (s.topLevel q) j =
        s.mem (s.topLevel q) j := by
    intro q hq j hlo
    rw [State.grow_mem, if_neg, if_neg]
    · intro hno
      have hroot := h.tree.root hq
      rw [hno, hfresh.1] at hroot
      cases hroot
    · rintro ⟨hroot, rfl⟩
      exact absurd (hlow q hq hroot.symm) (Nat.not_lt_of_le hlo)
  refine ⟨h.tree.grow rest hp ht hlen hi hzero hfresh ?_, ?_, ?_⟩
  · intro hpath
    subst hpath
    have hroot : t = s.topLevel p := (Option.some.inj ht).symm
    exact Or.inl (hlow p hp hroot)
  · intro q hq j hlo hhi
    exact (hframe q hq j hlo).trans
      ((h.shared.same q hq j hlo hhi).trans (hframe kernel h.tree.kernel j hlo).symm)
  · intro j hlo hhi
    have hsame := hframe kernel h.tree.kernel j hlo
    show child (s.grow rest t i pa _).mem 3 (s.topLevel kernel) j ≠ none
    rw [child_congr hsame]
    exact h.shared.dir j hlo hhi

end

end Pmap
