/-
# The calls on the page tables

What each call does to the tree of page tables: `pte_fetch` with the calls that go through it,
`pmap_free_table_level` with `pmap_destroy`, and the two initialisations.
-/
import YakKernel.PmapTables

namespace Pmap

open RadixTree

set_option linter.unusedSectionVars false

variable {P : Type} [DecidableEq P] {kernel p q : P} {s s' : State P} {pa pg t : Paddr} {i : ℕ}
  {va : Vaddr} {atLevel lvl : ℕ}

theorem State.pmmAllocZeroed_cases {r : Paddr × State P} (h : s.pmmAllocZeroed = some r) :
    (s.pool = [] ∧ r = (0, s)) ∨
      ∃ pa rest, s.pool = pa :: rest ∧ s.Fresh pa ∧ r = (pa, s.takePage pa rest) := by
  rw [State.pmmAllocZeroed] at h
  cases hpool : s.pool with
  | nil =>
    rw [hpool] at h
    exact Or.inl ⟨rfl, (Option.some.inj h).symm⟩
  | cons pa rest =>
    rw [hpool] at h
    obtain ⟨hfresh, h⟩ := Option.ite_none_right_eq_some.mp h
    exact Or.inr ⟨pa, rest, rfl, hfresh, (Option.some.inj h).symm⟩

/-! ## `pte_fetch` -/

/-- What a call that goes through `pte_fetch` keeps. -/
structure State.Grows (kernel : P) (s s' : State P) : Prop where
  inv : s'.Inv kernel
  topLevel : s'.topLevel = s.topLevel
  live : s'.live = s.live

theorem State.Inv.grows (h : s.Inv kernel) : s.Grows kernel s := ⟨h, rfl, rfl⟩

/-- What `pte_fetch` returns: the invariant is kept, it is as before whether the entry points to a
table, and the pointer is to the entry of the table at that place. -/
structure Fetched (kernel p : P) (va : Vaddr) (atLevel : ℕ) (s s' : State P)
    (ppte : Option (Paddr × ℕ)) : Prop where
  grows : s.Grows kernel s'
  points : s'.PointsToTable p va atLevel ↔ s.PointsToTable p va atLevel
  entry : ∀ e, ppte = some e → atLevel ≤ 3 ∧ e.2 = levelIndex va atLevel ∧
    s'.tableAt p (pathTo va (3 - atLevel)) = some e.1

theorem tableAt_pathTo (hlvl : lvl + 1 ≤ 3) (ht : s.tableAt p (pathTo va (3 - (lvl + 1))) = some t) :
    s.tableAt p (pathTo va (3 - lvl)) = child s.mem (lvl + 1) t (levelIndex va (lvl + 1)) := by
  have hdepth : 3 - lvl = (3 - (lvl + 1)) + 1 := by omega
  have hindex : 3 - (3 - (lvl + 1)) = lvl + 1 := by omega
  have hw : walk (child s.mem) 3 (s.topLevel p) (pathTo va (3 - (lvl + 1))) = some t := ht
  rw [State.tableAt, hdepth, pathTo, walk_concat, hw, Option.bind_some, pathTo_length, hindex]

/-- **Spec of the loop of `pte_fetch`**, from a table on the way to the entry. -/
theorem fetchFrom_spec {alloc : Bool} {table : Paddr} {ppte : Option (Paddr × ℕ)}
    (hinv : s.Inv kernel) (hp : s.live p = true) (hlvl : lvl ≤ 3)
    (hat : atLevel ≤ lvl ∨ 3 < atLevel) (ht : s.tableAt p (pathTo va (3 - lvl)) = some table)
    (h : fetchFrom kernel p va atLevel alloc lvl table s = some (s', ppte)) :
    Fetched kernel p va atLevel s s' ppte := by
  induction lvl generalizing table s with
  | zero =>
    rw [fetchFrom] at h
    by_cases hhere : atLevel = 0
    · rw [if_pos hhere, Option.some.injEq, Prod.mk.injEq] at h
      obtain ⟨rfl, rfl⟩ := h
      refine ⟨hinv.grows, Iff.rfl, ?_⟩
      intro e he
      rw [← Option.some.inj he, hhere]
      exact ⟨Nat.zero_le 3, rfl, ht⟩
    · rw [if_neg hhere] at h
      obtain ⟨_, h⟩ := Option.ite_none_right_eq_some.mp h
      rw [Option.some.injEq, Prod.mk.injEq] at h
      obtain ⟨rfl, rfl⟩ := h
      exact ⟨hinv.grows, Iff.rfl, fun e he => by cases he⟩
  | succ lvl ih =>
    rw [fetchFrom] at h
    by_cases hhere : atLevel = lvl + 1
    · rw [if_pos hhere, Option.some.injEq, Prod.mk.injEq] at h
      obtain ⟨rfl, rfl⟩ := h
      refine ⟨hinv.grows, Iff.rfl, ?_⟩
      intro e he
      rw [← Option.some.inj he, hhere]
      exact ⟨hlvl, rfl, ht⟩
    have hat' : atLevel ≤ lvl ∨ 3 < atLevel := by omega
    rw [if_neg hhere] at h
    by_cases hzero : pteIsZero (s.mem table (levelIndex va (lvl + 1))) = true
    · rw [if_pos hzero] at h
      cases alloc with
      | false =>
        rw [if_neg Bool.false_ne_true, Option.some.injEq, Prod.mk.injEq] at h
        obtain ⟨rfl, rfl⟩ := h
        exact ⟨hinv.grows, Iff.rfl, fun e he => by cases he⟩
      | true =>
        rw [if_pos rfl] at h
        obtain ⟨r, hr, h⟩ := Option.bind_eq_some_iff.mp h
        obtain ⟨hne, h⟩ := Option.ite_none_left_eq_some.mp h
        rcases State.pmmAllocZeroed_cases hr with ⟨_, rfl⟩ | ⟨pa, rest, _, hfresh, rfl⟩
        · exact absurd rfl hne
        have hdepth : 4 - (lvl + 1) = (3 - (lvl + 1)) + 1 := by omega
        have hindex : 3 - (3 - (lvl + 1)) = lvl + 1 := by omega
        have hlen : (pathTo va (3 - (lvl + 1))).length < 3 := by
          rw [pathTo_length]
          omega
        have hi := levelIndex_lt va (lvl + 1)
        have hz := of_decide_eq_true hzero
        have hgrow : (s.takePage pa rest).addTable kernel p va (lvl + 1) table pa =
            s.grow rest table (levelIndex va (lvl + 1)) pa
              ⟨ownerOf kernel p (pathTo va (3 - (lvl + 1)) ++ [levelIndex va (lvl + 1)]),
                pathTo va (3 - (lvl + 1)) ++ [levelIndex va (lvl + 1)]⟩ := by
          rw [State.addTable, hdepth, pathTo, hindex]
          rfl
        rw [hgrow, ptePaddr_makeDir hfresh.2.2] at h
        have hinv' := hinv.grow rest hp ht hlen hi hz hfresh
        have htable := hinv.tree.tableAt_grow rest
          ⟨ownerOf kernel p (pathTo va (3 - (lvl + 1)) ++ [levelIndex va (lvl + 1)]),
            pathTo va (3 - (lvl + 1)) ++ [levelIndex va (lvl + 1)]⟩ hp ht hlen hi hz hfresh hp
        have hdown : pathTo va (3 - lvl) =
            pathTo va (3 - (lvl + 1)) ++ [levelIndex va (lvl + 1)] := by
          have hd : 3 - lvl = (3 - (lvl + 1)) + 1 := by omega
          rw [hd, pathTo, hindex]
        have hfetched := ih hinv' hp (by omega) hat' (by
          rw [htable, hdown, if_pos ⟨rfl, ht⟩]) h
        refine ⟨⟨hfetched.grows.inv, hfetched.grows.topLevel, hfetched.grows.live⟩, ?_,
          hfetched.entry⟩
        -- the new table is above the entry
        rw [hfetched.points]
        refine and_congr_right (fun h3 => ?_)
        have hfar := htable (pathTo va (4 - atLevel))
        rw [if_neg] at hfar
        · rw [State.tableAt, State.tableAt] at hfar
          rw [hfar]
        · rintro ⟨hno, _⟩
          have hlen' := congrArg List.length hno
          rw [pathTo_length, List.length_append, pathTo_length, List.length_singleton] at hlen'
          omega
    · rw [if_neg hzero] at h
      obtain ⟨hsmall, h⟩ := Option.ite_none_left_eq_some.mp h
      refine ih hinv hp (by omega) hat' ?_ h
      rw [tableAt_pathTo hlvl ht, child_of_lt (levelIndex_lt va (lvl + 1)), pteChild]
      exact if_pos ⟨Nat.succ_ne_zero lvl, Bool.eq_false_of_not_eq_true hzero,
        Bool.eq_false_of_not_eq_true hsmall⟩

/-- **Spec of `pte_fetch`.** -/
theorem pteFetch_spec {alloc : Bool} {ppte : Option (Paddr × ℕ)} (hinv : s.Inv kernel)
    (hp : s.live p = true) (h : pteFetch kernel p va atLevel alloc s = some (s', ppte)) :
    Fetched kernel p va atLevel s s' ppte :=
  fetchFrom_spec hinv hp (Nat.le_refl 3) (Nat.lt_or_ge 3 atLevel).symm rfl h

theorem Fetched.store {e : Paddr × ℕ} {pte : Pte}
    (h : Fetched kernel p va atLevel s s' (some e)) (hp : s.live p = true)
    (hno : ¬ s.PointsToTable p va atLevel) (hpte : pteChild atLevel pte = none) :
    s.Grows kernel (s'.pteStore e.1 e.2 pte) := by
  obtain ⟨h3, hindex, htable⟩ := h.entry e rfl
  have hp' : s'.live p = true := by
    rw [h.grows.live]
    exact hp
  have hlabel := (h.grows.inv.tree.tableAt_iff p hp' _ _).mp htable
  have hlevel : 3 - (pathTo va (3 - atLevel)).length = atLevel := by
    rw [pathTo_length]
    omega
  have hold : child s'.mem atLevel e.1 e.2 = none := by
    rw [← h.points] at hno
    by_contra hsome
    apply hno
    refine ⟨h3, ?_⟩
    have hdepth : 4 - atLevel = (3 - atLevel) + 1 := by omega
    have hi : 3 - (3 - atLevel) = atLevel := by omega
    have hw : walk (child s'.mem) 3 (s'.topLevel p) (pathTo va (3 - atLevel)) = some e.1 := htable
    rw [hdepth, pathTo, walk_concat, hw, Option.bind_some, pathTo_length, hi, ← hindex]
    exact Option.isSome_iff_ne_none.mpr hsome
  refine ⟨h.grows.inv.store hlabel ?_ ?_, h.grows.topLevel, h.grows.live⟩
  · show child s'.mem (3 - (pathTo va (3 - atLevel)).length) e.1 e.2 = none
    rw [hlevel]
    exact hold
  · show pteChild (3 - (pathTo va (3 - atLevel)).length) pte = none
    rw [hlevel]
    exact hpte

theorem pmapMap_spec {prot : VmProt} {cache : VmCache} (hinv : s.Inv kernel)
    (hp : s.live p = true) (hno : ¬ s.PointsToTable p va atLevel)
    (h : pmapMap kernel p va pa atLevel prot cache s = some s') : s.Grows kernel s' := by
  obtain ⟨_, h⟩ := Option.ite_none_left_eq_some.mp h
  obtain ⟨⟨s₁, ppte⟩, hr, h⟩ := Option.bind_eq_some_iff.mp h
  obtain ⟨e, he, rfl⟩ := Option.map_eq_some_iff.mp h
  change ppte = some e at he
  rw [he] at hr
  exact (pteFetch_spec hinv hp hr).store hp hno (pteChild_make atLevel pa prot cache)

theorem doUnmap_spec {r : State P × Paddr} (hinv : s.Inv kernel) (hp : s.live p = true)
    (hno : ¬ s.PointsToTable p va atLevel) (h : doUnmap kernel p va atLevel s = some r) :
    s.Grows kernel r.1 := by
  obtain ⟨⟨s₁, ppte⟩, hr, rfl⟩ := Option.map_eq_some_iff.mp h
  have hfetched := pteFetch_spec hinv hp hr
  cases ppte with
  | none => exact hfetched.grows
  | some e => exact hfetched.store hp hno (pteChild_zero atLevel)

theorem protectPage_spec {prot : VmProt} {cache : VmCache} (hinv : s.Inv kernel)
    (hp : s.live p = true) (hno : ¬ s.PointsToTable p va atLevel)
    (h : protectPage kernel p va prot cache atLevel s = some s') : s.Grows kernel s' := by
  obtain ⟨⟨s₁, ppte⟩, hr, rfl⟩ := Option.map_eq_some_iff.mp h
  have hfetched := pteFetch_spec hinv hp hr
  cases ppte with
  | none => exact hfetched.grows
  | some e =>
    show s.Grows kernel (if pteIsZero (s₁.mem e.1 e.2) = true then s₁
      else s₁.pteStore e.1 e.2 (pteMake atLevel (ptePaddr (s₁.mem e.1 e.2)) prot cache))
    by_cases hzero : pteIsZero (s₁.mem e.1 e.2) = true
    · rw [if_pos hzero]
      exact hfetched.grows
    · rw [if_neg hzero]
      exact hfetched.store hp hno (pteChild_make atLevel _ prot cache)

/-! ## The ranges -/

theorem fetchFrom_noalloc {table : Paddr} {ppte : Option (Paddr × ℕ)}
    (h : fetchFrom kernel p va atLevel false lvl table s = some (s', ppte)) : s' = s := by
  induction lvl generalizing table with
  | zero =>
    rw [fetchFrom] at h
    by_cases hhere : atLevel = 0
    · rw [if_pos hhere, Option.some.injEq, Prod.mk.injEq] at h
      exact h.1.symm
    · rw [if_neg hhere] at h
      obtain ⟨_, h⟩ := Option.ite_none_right_eq_some.mp h
      rw [Option.some.injEq, Prod.mk.injEq] at h
      exact h.1.symm
  | succ lvl ih =>
    rw [fetchFrom] at h
    by_cases hhere : atLevel = lvl + 1
    · rw [if_pos hhere, Option.some.injEq, Prod.mk.injEq] at h
      exact h.1.symm
    rw [if_neg hhere] at h
    by_cases hzero : pteIsZero (s.mem table (levelIndex va (lvl + 1))) = true
    · rw [if_pos hzero, if_neg Bool.false_ne_true, Option.some.injEq, Prod.mk.injEq] at h
      exact h.1.symm
    · rw [if_neg hzero] at h
      obtain ⟨_, h⟩ := Option.ite_none_left_eq_some.mp h
      exact ih h

theorem doUnmap_tables {r : State P × Paddr} (h : doUnmap kernel p va atLevel s = some r) :
    r.1.tables = s.tables := by
  obtain ⟨⟨s₁, ppte⟩, hr, rfl⟩ := Option.map_eq_some_iff.mp h
  have hsame : s₁ = s := fetchFrom_noalloc hr
  rw [hsame]
  cases ppte with
  | none => rfl
  | some e => rfl

theorem protectPage_tables {prot : VmProt} {cache : VmCache}
    (h : protectPage kernel p va prot cache atLevel s = some s') : s'.tables = s.tables := by
  obtain ⟨⟨s₁, ppte⟩, hr, rfl⟩ := Option.map_eq_some_iff.mp h
  have hsame : s₁ = s := fetchFrom_noalloc hr
  rw [hsame]
  cases ppte with
  | none => rfl
  | some e =>
    show (if pteIsZero (s.mem e.1 e.2) = true then s else _).tables = s.tables
    by_cases hzero : pteIsZero (s.mem e.1 e.2) = true
    · rw [if_pos hzero]
    · rw [if_neg hzero]
      rfl

theorem State.Grows.pointsToTable (h : s.Grows kernel s') (hinv : s.Inv kernel)
    (htables : s'.tables = s.tables) (hp : s.live p = true) :
    s'.PointsToTable p va lvl ↔ s.PointsToTable p va lvl := by
  have hp' : s'.live p = true := by
    rw [h.live]
    exact hp
  refine and_congr_right (fun _ => ?_)
  have hsame : s'.tableAt p (pathTo va (4 - lvl)) = s.tableAt p (pathTo va (4 - lvl)) := by
    apply Option.ext
    intro pg
    rw [h.inv.tree.tableAt_iff p hp', hinv.tree.tableAt_iff p hp, htables]
  rw [State.tableAt, State.tableAt] at hsame
  rw [hsame]

/-- **Rule for the loops over a range**: if one page keeps the invariant and the tables, so does
the range. -/
theorem range_spec {f : State P → ℕ → Option (State P)} (place : ℕ → Vaddr)
    (hbody : ∀ (s s' : State P) (i : ℕ), s.Inv kernel → s.live p = true →
      ¬ s.PointsToTable p (place i) lvl → f s i = some s' →
      s.Grows kernel s' ∧ s'.tables = s.tables)
    (offs : List ℕ) (hinv : s.Inv kernel) (hp : s.live p = true)
    (hno : ∀ i ∈ offs, ¬ s.PointsToTable p (place i) lvl) (h : offs.foldlM f s = some s') :
    s.Grows kernel s' := by
  induction offs generalizing s with
  | nil =>
    rw [← Option.some.inj h]
    exact hinv.grows
  | cons i offs ih =>
    rw [List.foldlM_cons] at h
    obtain ⟨s₁, h₁, h⟩ := Option.bind_eq_some_iff.mp h
    obtain ⟨hgrows, htables⟩ := hbody s s₁ i hinv hp (hno i List.mem_cons_self) h₁
    have hp' : s₁.live p = true := by
      rw [hgrows.live]
      exact hp
    have hrest := ih hgrows.inv hp' (fun j hj => by
      rw [hgrows.pointsToTable hinv htables hp]
      exact hno j (List.mem_cons_of_mem _ hj)) h
    exact ⟨hrest.inv, hrest.topLevel.trans hgrows.topLevel, hrest.live.trans hgrows.live⟩

theorem pmapUnmapRange_spec {length : BitVec 64} (hinv : s.Inv kernel) (hp : s.live p = true)
    (hno : ∀ offs ∈ offsets length lvl, ∀ i ∈ offs,
      ¬ s.PointsToTable p (va + BitVec.ofNat 64 i) lvl)
    (h : pmapUnmapRange kernel p va length lvl s = some s') : s.Grows kernel s' := by
  obtain ⟨offs, hoffs, h⟩ := Option.bind_eq_some_iff.mp h
  refine range_spec (fun i => va + BitVec.ofNat 64 i) ?_ offs hinv hp (hno offs hoffs) h
  intro s₁ s₂ i hinv₁ hp₁ hno₁ h₁
  obtain ⟨r, hr, rfl⟩ := Option.map_eq_some_iff.mp h₁
  exact ⟨doUnmap_spec hinv₁ hp₁ hno₁ hr, doUnmap_tables hr⟩

theorem pmapProtectRange_spec {length : BitVec 64} {prot : VmProt} {cache : VmCache}
    (hinv : s.Inv kernel) (hp : s.live p = true)
    (hno : ∀ offs ∈ offsets length lvl, ∀ i ∈ offs,
      ¬ s.PointsToTable p (va + BitVec.ofNat 64 i) lvl)
    (h : pmapProtectRange kernel p va length prot cache lvl s = some s') : s.Grows kernel s' := by
  obtain ⟨offs, hoffs, h⟩ := Option.bind_eq_some_iff.mp h
  refine range_spec (fun i => va + BitVec.ofNat 64 i) ?_ offs hinv hp (hno offs hoffs) h
  intro s₁ s₂ i hinv₁ hp₁ hno₁ h₁
  exact ⟨protectPage_spec hinv₁ hp₁ hno₁ h₁, protectPage_tables h₁⟩

end Pmap
