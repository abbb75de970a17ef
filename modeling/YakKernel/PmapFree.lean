/-
# The end and the start of a pmap

`pmap_free_table_level` frees the tables below a table, each once, and touches no other table; so
`pmap_destroy` frees what was allocated for the user half, and the root.  `pmap_init` adds a root
with the kernel's upper half, which `pmap_kernel_bootstrap` has filled.
-/
import YakKernel.PmapCalls

namespace Pmap

open RadixTree

set_option linter.unusedSectionVars false

variable {P : Type} [DecidableEq P] {kernel p q : P} {s s' s₁ s₂ : State P}
  {pa pg t root : Paddr} {i lvl : ℕ} {l l' : List Paddr} {mem : Paddr → ℕ → Pte}

/-! ## `pmap_free_table_level` -/

/-- The tables `l` are freed and entries of table `t` are cleared. -/
structure State.Frees (s s' : State P) (t : Paddr) (l : List Paddr) : Prop where
  freed : s'.freed = s.freed ++ l
  mem : ∀ pg, pg ≠ t → pg ∉ l → s'.mem pg = s.mem pg
  tables : ∀ pg, s'.tables pg = if pg ∈ l then none else s.tables pg
  topLevel : s'.topLevel = s.topLevel
  live : s'.live = s.live

theorem State.Frees.refl (s : State P) (t : Paddr) : s.Frees s t [] where
  freed := (List.append_nil _).symm
  mem := fun _ _ _ => rfl
  tables := fun _ => (if_neg List.not_mem_nil).symm
  topLevel := rfl
  live := rfl

theorem State.Frees.trans (h : s.Frees s₁ t l) (h' : s₁.Frees s₂ t l') :
    s.Frees s₂ t (l ++ l') where
  freed := by rw [h'.freed, h.freed, List.append_assoc]
  mem := by
    intro pg ht hl
    rw [h'.mem pg ht (fun hin => hl (List.mem_append_right _ hin)),
      h.mem pg ht (fun hin => hl (List.mem_append_left _ hin))]
  tables := by
    intro pg
    rw [h'.tables, h.tables]
    by_cases hin' : pg ∈ l'
    · rw [if_pos hin', if_pos (List.mem_append_right _ hin')]
    · by_cases hin : pg ∈ l
      · rw [if_neg hin', if_pos hin, if_pos (List.mem_append_left _ hin)]
      · rw [if_neg hin', if_neg hin, if_neg]
        intro hno
        exact (List.mem_append.mp hno).elim hin hin'
  topLevel := h'.topLevel.trans h.topLevel
  live := h'.live.trans h.live

theorem State.Frees.clear (s : State P) (t : Paddr) (i : ℕ) : s.Frees (s.pteStore t i 0) t [] where
  freed := (List.append_nil _).symm
  mem := by
    intro pg ht _
    exact Function.update_of_ne ht _ _
  tables := fun _ => (if_neg List.not_mem_nil).symm
  topLevel := rfl
  live := rfl

theorem State.Frees.pmmFree (h : s.Frees s' pg l) (t : Paddr) :
    s.Frees (s'.pmmFree pg) t (l ++ [pg]) where
  freed := by rw [State.pmmFree_freed, h.freed, List.append_assoc]
  mem := by
    intro pg' _ hl
    exact h.mem pg' (fun hno => hl (List.mem_append_right _ (List.mem_singleton.mpr hno)))
      (fun hin => hl (List.mem_append_left _ hin))
  tables := by
    intro pg'
    rw [State.pmmFree_tables]
    by_cases hpg : pg' = pg
    · rw [hpg, Function.update_self, if_pos (List.mem_append_right _ (List.mem_singleton.mpr rfl))]
    · rw [Function.update_of_ne hpg, h.tables]
      have hmem : pg' ∈ l ++ [pg] ↔ pg' ∈ l := by
        rw [List.mem_append, List.mem_singleton]
        exact ⟨fun hor => hor.resolve_right hpg, Or.inl⟩
      simp only [hmem]
  topLevel := h.topLevel
  live := h.live

theorem limit_le (lvl : ℕ) : limit lvl ≤ 512 := by
  rw [limit]
  split
  · decide
  · exact Nat.le_refl 512

theorem limit_top : limit 3 = 256 := rfl

theorem lt_limit (hlvl : lvl < 3) {n : Paddr} {c : Paddr} (h : child mem lvl n i = some c) :
    i < limit lvl := by
  rw [limit, if_neg (Nat.ne_of_lt hlvl)]
  exact lt_of_child h

/-- **Spec of `pmap_free_table_level`.**  In the subtree of the table the memory is `mem`; the
tables below are freed, each after those below it. -/
theorem freeTableLevel_spec (hlvl : lvl ≤ 3) (hdistinct : Distinct (child mem) lvl t)
    (hagree : ∀ path pg, walk (child mem) lvl t path = some pg → s.mem pg = mem pg) :
    s.Frees (freeTableLevel lvl t s) t (below (child mem) limit lvl t) := by
  induction lvl generalizing t s with
  | zero =>
    rw [freeTableLevel, below]
    generalize List.range (limit 0) = entries
    clear hagree hdistinct
    induction entries generalizing s with
    | nil => exact State.Frees.refl s t
    | cons i entries ih =>
      rw [List.foldl_cons]
      by_cases hzero : pteIsZero (s.mem t i) = true
      · rw [if_pos hzero]
        exact ih
      · rw [if_neg hzero]
        exact (State.Frees.clear s t i).trans ih
  | succ lvl ih =>
    rw [below_succ]
    have hleaf : ∀ n i, child mem 0 n i = none := child_leaf mem
    have hlimit : ∀ k, k < lvl → ∀ n i c, child mem k n i = some c → i < limit k :=
      fun k hk n i c hc => lt_limit (by omega) hc
    -- after `n` entries, the later ones are as they were
    have hloop : ∀ n, n ≤ limit (lvl + 1) → ∀ s₁, (List.range n).foldl (fun s i =>
        if pteIsZero (s.mem t i) then s
        else if pteIsLarge (s.mem t i) (lvl + 1) then s.pteStore t i 0
        else (freeTableLevel lvl (ptePaddr (s.mem t i)) s).pmmFree (ptePaddr (s.mem t i))) s = s₁ →
        s.Frees s₁ t ((List.range n).flatMap (belowEntry (child mem) limit lvl t)) ∧
          ∀ i, n ≤ i → s₁.mem t i = mem t i := by
      intro n
      induction n with
      | zero =>
        intro _ s₁ hs₁
        rw [← hs₁]
        refine ⟨State.Frees.refl s t, ?_⟩
        intro i _
        rw [List.range_zero, List.foldl_nil, hagree [] t rfl]
      | succ n ihn =>
        intro hn s₁ hs₁
        rw [List.range_succ, List.foldl_append] at hs₁
        generalize hbefore : (List.range n).foldl _ s = s₀ at hs₁
        obtain ⟨hfrees, hlater⟩ := ihn (by omega) s₀ hbefore
        rw [List.range_succ, List.flatMap_append, List.flatMap_singleton]
        rw [List.foldl_cons, List.foldl_nil, hlater n (Nat.le_refl n)] at hs₁
        have hn' : n < 512 := by
          have hle := limit_le (lvl + 1)
          omega
        by_cases hzero : pteIsZero (mem t n) = true
        · have hnone : child mem (lvl + 1) t n = none := by
            rw [child_of_lt hn', pteChild, if_neg]
            rintro ⟨_, hno, _⟩
            rw [hzero] at hno
            cases hno
          rw [if_pos hzero] at hs₁
          rw [belowEntry, hnone, ← hs₁]
          refine ⟨hfrees.trans (State.Frees.refl s₀ t), ?_⟩
          intro i hi
          exact hlater i (by omega)
        rw [if_neg hzero] at hs₁
        by_cases hlarge : pteIsLarge (mem t n) (lvl + 1) = true
        · have hnone : child mem (lvl + 1) t n = none := by
            rw [child_of_lt hn', pteChild, if_neg]
            rintro ⟨_, _, hno⟩
            rw [hlarge] at hno
            cases hno
          rw [if_pos hlarge] at hs₁
          rw [belowEntry, hnone, ← hs₁]
          refine ⟨hfrees.trans (State.Frees.clear s₀ t n), ?_⟩
          intro i hi
          rw [State.pteStore_apply, if_neg (fun hand => by omega)]
          exact hlater i (by omega)
        · rw [if_neg hlarge] at hs₁
          generalize hc : ptePaddr (mem t n) = c at hs₁
          have hsome : child mem (lvl + 1) t n = some c := by
            rw [child_of_lt hn', pteChild, if_pos, hc]
            exact ⟨Nat.succ_ne_zero lvl, Bool.eq_false_of_not_eq_true hzero,
              Bool.eq_false_of_not_eq_true hlarge⟩
          -- the subtree of the entry was not touched before
          have hdown : ∀ path pg, walk (child mem) lvl c path = some pg →
              walk (child mem) (lvl + 1) t (n :: path) = some pg := by
            intro path pg hw
            rw [walk_cons, hsome]
            exact hw
          have hself : ∀ path, walk (child mem) lvl c path ≠ some t := by
            intro path hw
            exact List.cons_ne_nil _ _ (hdistinct _ [] t (hdown path t hw) rfl)
          have hagree' : ∀ path pg, walk (child mem) lvl c path = some pg →
              s₀.mem pg = mem pg := by
            intro path pg hw
            rw [hfrees.mem pg]
            · exact hagree (n :: path) pg (hdown path pg hw)
            · rintro rfl
              exact hself path hw
            · intro hin
              obtain ⟨j, hj, hin⟩ := List.mem_flatMap.mp hin
              rw [belowEntry] at hin
              cases hd : child mem (lvl + 1) t j with
              | none =>
                rw [hd] at hin
                exact List.not_mem_nil hin
              | some d =>
                rw [hd] at hin
                have hpath : ∃ path', walk (child mem) (lvl + 1) t (j :: path') = some pg := by
                  rcases List.mem_append.mp hin with hin | hin
                  · obtain ⟨k, path', _, hw'⟩ := (mem_below hleaf hlimit).mp hin
                    exact ⟨k :: path', by rw [walk_cons, hd]; exact hw'⟩
                  · rw [List.mem_singleton.mp hin]
                    exact ⟨[], by rw [walk_cons, hd]; rfl⟩
                obtain ⟨path', hw'⟩ := hpath
                have heq := hdistinct _ _ pg (hdown path pg hw) hw'
                have hlt := List.mem_range.mp hj
                rw [(List.cons.inj heq).1] at hlt
                exact Nat.lt_irrefl j hlt
          have hfreed := (ih (by omega) (hdistinct.entry hsome) hagree').pmmFree t
          rw [belowEntry, hsome, ← hs₁]
          refine ⟨hfrees.trans hfreed, ?_⟩
          intro i hi
          have hkeep : ((freeTableLevel lvl c s₀).pmmFree c).mem t = s₀.mem t := by
            refine (ih (by omega) (hdistinct.entry hsome) hagree').mem t ?_ ?_
            · intro hno
              exact hself [] (congrArg some hno.symm)
            · intro hin
              obtain ⟨j, path, _, hw⟩ := (mem_below hleaf hlimit).mp hin
              exact hself _ hw
          rw [hkeep]
          exact hlater i (by omega)
    exact (hloop _ (Nat.le_refl _) _ rfl).1

/-! ## `pmap_destroy` -/

/-- The pages that `pmap_destroy` frees: the tables below the lower half of the root, and it. -/
def State.userTables (s : State P) (p : P) : List Paddr :=
  below (child s.mem) limit 3 (s.topLevel p) ++ [s.topLevel p]

/-- What was allocated for `p`: its root, and the tables of its user half. -/
theorem State.Tree.mem_userTables (h : s.Tree kernel) (hp : s.live p = true) (hker : p ≠ kernel) :
    pg ∈ s.userTables p ↔ ∃ path, s.tables pg = some ⟨p, path⟩ := by
  rw [State.userTables, List.mem_append, List.mem_singleton,
    mem_below (child_leaf s.mem) (fun k hk n i c hc => lt_limit hk hc)]
  constructor
  · rintro (⟨i, path, hi, hw⟩ | rfl)
    · refine ⟨i :: path, ?_⟩
      have hlabel := (h.tableAt_iff p hp (i :: path) pg).mp hw
      rw [limit_top] at hi
      rw [ownerOf, if_pos hi] at hlabel
      exact hlabel
    · exact ⟨[], h.root hp⟩
  · rintro ⟨path, hlabel⟩
    have howner := (h.owner pg _ hlabel).2
    cases path with
    | nil =>
      refine Or.inr ?_
      have hw := (h.tableAt_iff p hp [] pg).mpr hlabel
      exact (Option.some.inj hw).symm
    | cons i path =>
      refine Or.inl ⟨i, path, ?_, ?_⟩
      · by_contra hi
        rw [limit_top] at hi
        change ownerOf kernel p (i :: path) = p at howner
        rw [ownerOf, if_neg hi] at howner
        exact hker howner.symm
      · refine (h.tableAt_iff p hp (i :: path) pg).mpr ?_
        rw [hlabel]
        exact congrArg (fun o => some (Table.mk o (i :: path))) howner.symm

theorem State.Tree.nodup_userTables (h : s.Tree kernel) (hp : s.live p = true) :
    (s.userTables p).Nodup := by
  have hlimit : ∀ k, k < 3 → ∀ n i c, child s.mem k n i = some c → i < limit k :=
    fun k hk n i c hc => lt_limit hk hc
  refine List.nodup_append.mpr ⟨(h.distinct hp).nodup_below (child_leaf s.mem) hlimit,
    List.nodup_singleton _, ?_⟩
  intro a ha b hb hab
  rw [hab, List.mem_singleton.mp hb] at ha
  obtain ⟨i, path, _, hw⟩ := (mem_below (child_leaf s.mem) hlimit).mp ha
  exact List.cons_ne_nil _ _ (h.distinct hp _ [] _ hw rfl)

/-- The parts of the state after `pmap_destroy`. -/
structure State.Destroys (s s' : State P) (p : P) : Prop where
  freed : s'.freed = s.userTables p
  mem : ∀ pg, pg ∉ s.userTables p → s'.mem pg = s.mem pg
  tables : ∀ pg, s'.tables pg = if pg ∈ s.userTables p then none else s.tables pg
  topLevel : s'.topLevel = Function.update s.topLevel p 0
  live : s'.live = Function.update s.live p false

/-- **Spec of `pmap_destroy`.** -/
theorem pmapDestroy_spec (h : s.Tree kernel) (hp : s.live p = true)
    (hd : pmapDestroy kernel p s = some s') : p ≠ kernel ∧ s.Destroys s' p := by
  obtain ⟨hguard, hd⟩ := Option.ite_none_left_eq_some.mp hd
  refine ⟨fun hker => hguard (Or.inr (Or.inl hker)), ?_⟩
  have hfrees := (freeTableLevel_spec (s := { s with freed := [] }) (Nat.le_refl 3)
    (h.distinct hp) (fun _ _ _ => rfl)).pmmFree (s.topLevel p)
  dsimp only at hd
  generalize (freeTableLevel 3 (s.topLevel p) { s with freed := [] }).pmmFree (s.topLevel p) = s₁
    at hfrees hd
  rw [← Option.some.inj hd]
  constructor
  · exact hfrees.freed.trans (List.nil_append _)
  · intro pg hpg
    refine hfrees.mem pg ?_ hpg
    rintro rfl
    exact hpg (List.mem_append_right _ (List.mem_singleton.mpr rfl))
  · exact hfrees.tables
  · exact congrArg (fun f => Function.update f p 0) hfrees.topLevel
  · exact congrArg (fun f => Function.update f p false) hfrees.live

/-- `pmap_destroy` keeps the invariant: no other pmap had the freed tables on its paths. -/
theorem State.Inv.destroy (h : s.Inv kernel) (hp : s.live p = true) (hker : p ≠ kernel)
    (hd : s.Destroys s' p) : s'.Inv kernel := by
  have hmem : ∀ pg, pg ∈ s.userTables p ↔ ∃ path, s.tables pg = some ⟨p, path⟩ :=
    fun pg => h.tree.mem_userTables hp hker
  have hlive : ∀ q, s'.live q = true → q ≠ p ∧ s.live q = true := by
    intro q hq
    rw [hd.live] at hq
    by_cases hqp : q = p
    · rw [hqp, Function.update_self] at hq
      cases hq
    · rw [Function.update_of_ne hqp] at hq
      exact ⟨hqp, hq⟩
  have hother : ∀ q, q ≠ p → ∀ path pg, s.tables pg = some ⟨ownerOf kernel q path, path⟩ →
      pg ∉ s.userTables p := by
    intro q hqp path pg hlabel hin
    obtain ⟨path', hlabel'⟩ := (hmem pg).mp hin
    rw [hlabel, Option.some.injEq, Table.mk.injEq] at hlabel'
    have howner := hlabel'.1
    cases path with
    | nil => exact hqp howner
    | cons i path =>
      rw [ownerOf] at howner
      by_cases hi : i < 256
      · rw [if_pos hi] at howner
        exact hqp howner
      · rw [if_neg hi] at howner
        exact hker howner.symm
  have htop : ∀ q, q ≠ p → s'.topLevel q = s.topLevel q := by
    intro q hqp
    rw [hd.topLevel, Function.update_of_ne hqp]
  have hroot : ∀ q, q ≠ p → s.live q = true → s'.mem (s'.topLevel q) = s.mem (s.topLevel q) := by
    intro q hqp hq
    rw [htop q hqp]
    exact hd.mem _ (hother q hqp [] _ (h.tree.root hq))
  refine ⟨⟨?_, ?_, ?_, ?_⟩, ?_, ?_⟩
  · intro q hq path pg
    obtain ⟨hqp, hq⟩ := hlive q hq
    have hwalk : s'.tableAt q path = s.tableAt q path := by
      rw [State.tableAt, State.tableAt, htop q hqp]
      apply walk_congr
      intro path' c i hc
      apply child_congr
      rw [hd.mem c (hother q hqp path' c ((h.tree.tableAt_iff q hq path' c).mp hc))]
    rw [hwalk, h.tree.tableAt_iff q hq, hd.tables]
    constructor
    · intro hlabel
      rw [if_neg (hother q hqp path pg hlabel)]
      exact hlabel
    · intro hlabel
      exact (Option.ite_none_left_eq_some.mp hlabel).2
  · intro pg table htable
    rw [hd.tables] at htable
    obtain ⟨hout, htable⟩ := Option.ite_none_left_eq_some.mp htable
    obtain ⟨howner, hself⟩ := h.tree.owner pg table htable
    refine ⟨?_, hself⟩
    rw [hd.live, Function.update_of_ne]
    · exact howner
    · intro hno
      exact hout ((hmem pg).mpr ⟨table.path, by rw [htable, ← hno]⟩)
  · intro pg table htable
    rw [hd.tables] at htable
    exact h.tree.page pg table (Option.ite_none_left_eq_some.mp htable).2
  · rw [hd.live, Function.update_of_ne (Ne.symm hker)]
    exact h.tree.kernel
  · intro q hq i hlo hhi
    obtain ⟨hqp, hq⟩ := hlive q hq
    rw [hroot q hqp hq, hroot kernel (Ne.symm hker) h.tree.kernel]
    exact h.shared.same q hq i hlo hhi
  · intro i hlo hhi
    rw [child_congr (congrFun (hroot kernel (Ne.symm hker) h.tree.kernel) i)]
    exact h.shared.dir i hlo hhi

end Pmap
