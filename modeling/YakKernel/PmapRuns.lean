/-
# Page tables, in every run

The invariant of the page tables holds after the start and is kept by every call that meets the
condition.  So the kernel's half is the same in all pmaps, and `pmap_destroy` frees what was
allocated for the user half.
-/
import YakKernel.PmapFree

namespace Pmap

open RadixTree

set_option linter.unusedSectionVars false

variable {P : Type} [DecidableEq P] {kernel p q : P} {s s' : State P} {pa pg root : Paddr}

/-! ## `pmap_init` -/

/-- The first `n` entries of the kernel's upper half are copied. -/
def State.copied (s : State P) (kernel : P) (root : Paddr) (n : ℕ) : State P :=
  { s with mem := fun pg j =>
      if pg = root ∧ 256 ≤ j ∧ j < 256 + n then s.mem (s.topLevel kernel) j else s.mem pg j }

theorem copyEntries (n : ℕ) (hroot : root ≠ s.topLevel kernel)
    (hne : ∀ j, 256 ≤ j → j < 256 + n → s.mem (s.topLevel kernel) j ≠ 0) :
    (List.range n).foldlM (copyEntry kernel root) s = some (s.copied kernel root n) := by
  induction n with
  | zero =>
    have hsame : s.copied kernel root 0 = s := by
      rw [State.copied]
      congr 1
      funext pg j
      apply if_neg
      omega
    rw [hsame]
    rfl
  | succ n ih =>
    have hsrc : (s.copied kernel root n).mem (s.topLevel kernel) (256 + n) =
        s.mem (s.topLevel kernel) (256 + n) := if_neg (fun hand => hroot hand.1.symm)
    have hstep : copyEntry kernel root (s.copied kernel root n) n =
        some (s.copied kernel root (n + 1)) := by
      rw [copyEntry]
      change (if (s.copied kernel root n).mem (s.topLevel kernel) (256 + n) = 0 then none
        else some ((s.copied kernel root n).pteStore root (256 + n)
          ((s.copied kernel root n).mem (s.topLevel kernel) (256 + n)))) = _
      rw [hsrc, if_neg (hne _ (by omega) (by omega))]
      have hframe : (s.copied kernel root n).pteStore root (256 + n)
          (s.mem (s.topLevel kernel) (256 + n)) = { s with
            mem := ((s.copied kernel root n).pteStore root (256 + n)
              (s.mem (s.topLevel kernel) (256 + n))).mem } := rfl
      rw [hframe, State.copied]
      congr 2
      funext pg j
      rw [State.pteStore_apply]
      by_cases hhere : pg = root ∧ j = 256 + n
      · rw [if_pos hhere, if_pos ⟨hhere.1, by omega, by omega⟩, hhere.2]
      · rw [if_neg hhere]
        have hiff : (pg = root ∧ 256 ≤ j ∧ j < 256 + n) ↔
            (pg = root ∧ 256 ≤ j ∧ j < 256 + (n + 1)) := by
          constructor
          · rintro ⟨hpg, hlo, hhi⟩
            exact ⟨hpg, hlo, by omega⟩
          · rintro ⟨hpg, hlo, hhi⟩
            have hj : j ≠ 256 + n := fun hno => hhere ⟨hpg, hno⟩
            exact ⟨hpg, hlo, by omega⟩
        simp only [hiff]
    rw [List.range_succ, List.foldlM_append, ih (fun j hlo hhi => hne j hlo (by omega))]
    show (List.foldlM (copyEntry kernel root) (s.copied kernel root n) [n]) = _
    rw [List.foldlM_cons, hstep]
    rfl

/-- The parts of the state after `pmap_init`. -/
structure State.Inits (kernel : P) (s s' : State P) (p : P) (root : Paddr) : Prop where
  mem : ∀ pg j, s'.mem pg j =
    if pg = root then (if 256 ≤ j ∧ j < 512 then s.mem (s.topLevel kernel) j else 0)
    else s.mem pg j
  tables : ∀ pg, s'.tables pg = if pg = root then some ⟨p, []⟩ else s.tables pg
  topLevel : s'.topLevel = Function.update s.topLevel p root
  live : s'.live = Function.update s.live p true

/-- **Spec of `pmap_init`**, when it gets a page. -/
theorem pmapInit_spec (hinv : s.Inv kernel) (hker : p ≠ kernel) (hpool : s.pool ≠ [])
    (h : pmapInit kernel p s = some s') : ∃ root, s.Fresh root ∧ s.Inits kernel s' p root := by
  obtain ⟨r, hr, h⟩ := Option.bind_eq_some_iff.mp h
  rcases State.pmmAllocZeroed_cases hr with ⟨hnil, _⟩ | ⟨root, rest, _, hfresh, rfl⟩
  · exact absurd hnil hpool
  have hne : root ≠ s.topLevel kernel := by
    intro hno
    have hlabel := hinv.tree.root hinv.tree.kernel
    rw [← hno, hfresh.1] at hlabel
    cases hlabel
  have htop : ((s.takePage root rest).setRoot p root).topLevel kernel = s.topLevel kernel :=
    Function.update_of_ne (Ne.symm hker) _ _
  have hdir : ∀ j, 256 ≤ j → j < 256 + 256 → s.mem (s.topLevel kernel) j ≠ 0 := by
    intro j hlo hhi hzero
    exact hinv.shared.dir j hlo hhi (child_eq_none hzero (pteChild_zero 3))
  have hcopied : s' = ((s.takePage root rest).setRoot p root).copied kernel root 256 := by
    have hloop := copyEntries (s := (s.takePage root rest).setRoot p root) 256
      (by rw [htop]; exact hne) (by
        intro j hlo hhi
        show Function.update s.mem root (fun _ => 0)
          (((s.takePage root rest).setRoot p root).topLevel kernel) j ≠ 0
        rw [htop, Function.update_of_ne (Ne.symm hne)]
        exact hdir j hlo hhi)
    exact (Option.some.inj (hloop.symm.trans h)).symm
  refine ⟨root, hfresh, ?_, ?_, ?_, ?_⟩
  · intro pg j
    rw [hcopied]
    show (if pg = root ∧ 256 ≤ j ∧ j < 256 + 256 then
      Function.update s.mem root (fun _ => 0)
        (((s.takePage root rest).setRoot p root).topLevel kernel) j
      else Function.update s.mem root (fun _ => 0) pg j) = _
    rw [htop, Function.update_of_ne (Ne.symm hne)]
    by_cases hpg : pg = root
    · subst hpg
      rw [Function.update_self, if_pos rfl]
      by_cases hj : 256 ≤ j ∧ j < 512
      · rw [if_pos hj, if_pos ⟨rfl, hj.1, by omega⟩]
      · rw [if_neg hj, if_neg]
        rintro ⟨_, hlo, hhi⟩
        exact hj ⟨hlo, by omega⟩
    · rw [Function.update_of_ne hpg, if_neg (fun hand => hpg hand.1), if_neg hpg]
  · intro pg
    rw [hcopied]
    exact Function.update_apply _ _ _ _
  · rw [hcopied]
    rfl
  · rw [hcopied]
    rfl

theorem State.Inv.init (h : s.Inv kernel) (hp : s.live p = false) (hfresh : s.Fresh root)
    (hi : s.Inits kernel s' p root) : s'.Inv kernel := by
  obtain ⟨hfree, hne0, haddr⟩ := hfresh
  have hkp : kernel ≠ p := by
    intro hno
    have hlive := h.tree.kernel
    rw [hno, hp] at hlive
    cases hlive
  have hold : ∀ q, q ≠ p → s'.live q = true → s.live q = true := by
    intro q hqp hq
    rw [hi.live, Function.update_of_ne hqp] at hq
    exact hq
  have htop : ∀ q, q ≠ p → s'.topLevel q = s.topLevel q := by
    intro q hqp
    rw [hi.topLevel, Function.update_of_ne hqp]
  have hself : s'.topLevel p = root := by rw [hi.topLevel, Function.update_self]
  have hused : ∀ pg table, s.tables pg = some table → pg ≠ root := by
    rintro pg table htable rfl
    rw [hfree] at htable
    cases htable
  have hmem : ∀ pg, pg ≠ root → s'.mem pg = s.mem pg := by
    intro pg hpg
    funext j
    rw [hi.mem, if_neg hpg]
  have hwalk : ∀ q, s.live q = true → ∀ path,
      walk (child s'.mem) 3 (s.topLevel q) path = s.tableAt q path := by
    intro q hq path
    apply walk_congr
    intro path' c i hc
    apply child_congr
    rw [hmem c (hused c _ ((h.tree.tableAt_iff q hq path' c).mp hc))]
  have hktop : s.topLevel kernel ≠ root := hused _ _ (h.tree.root h.tree.kernel)
  have hupper : ∀ j, 256 ≤ j → j < 512 → s'.mem root j = s'.mem (s.topLevel kernel) j := by
    intro j hlo hhi
    rw [hi.mem, if_pos rfl, if_pos ⟨hlo, hhi⟩, hmem _ hktop]
  refine ⟨⟨?_, ?_, ?_, ?_⟩, ?_, ?_⟩
  · intro q hq path pg
    by_cases hqp : q = p
    · subst hqp
      rw [State.tableAt, hself, hi.tables]
      cases path with
      | nil =>
        rw [walk_nil, Option.some.injEq]
        constructor
        · rintro rfl
          rw [if_pos rfl]
          rfl
        · intro hlabel
          by_contra hpg
          rw [if_neg (Ne.symm hpg)] at hlabel
          have hno := (h.tree.owner pg _ hlabel).1
          change s.live q = true at hno
          rw [hp] at hno
          cases hno
      | cons i path =>
        by_cases hlow : i < 256
        · have hnone : child s'.mem 3 root i = none := by
            refine child_eq_none ?_ (pteChild_zero 3)
            rw [hi.mem, if_pos rfl, if_neg (by omega)]
          rw [walk_cons, hnone, ownerOf, if_pos hlow]
          constructor
          · intro hno
            cases hno
          · intro hlabel
            by_cases hpg : pg = root
            · rw [if_pos hpg, Option.some.injEq, Table.mk.injEq] at hlabel
              exact absurd hlabel.2.symm (List.cons_ne_nil i path)
            · rw [if_neg hpg] at hlabel
              have hno := (h.tree.owner pg _ hlabel).1
              change s.live q = true at hno
              rw [hp] at hno
              cases hno
        · have hsame : child s'.mem 3 root i = child s'.mem 3 (s.topLevel kernel) i := by
            by_cases hhi : i < 512
            · exact child_congr (hupper i (by omega) hhi)
            · rw [child, child, if_neg hhi, if_neg hhi]
          have hkernel := hwalk kernel h.tree.kernel (i :: path)
          rw [walk_cons] at hkernel
          rw [walk_cons, hsame, hkernel, h.tree.tableAt_iff kernel h.tree.kernel,
            ownerOf_kernel, ownerOf, if_neg hlow]
          constructor
          · intro hlabel
            rw [if_neg (hused pg _ hlabel)]
            exact hlabel
          · intro hlabel
            by_cases hpg : pg = root
            · rw [if_pos hpg, Option.some.injEq, Table.mk.injEq] at hlabel
              exact absurd hlabel.2.symm (List.cons_ne_nil i path)
            · rw [if_neg hpg] at hlabel
              exact hlabel
    · have hq' := hold q hqp hq
      rw [State.tableAt, htop q hqp, hwalk q hq', h.tree.tableAt_iff q hq', hi.tables]
      constructor
      · intro hlabel
        rw [if_neg (hused pg _ hlabel)]
        exact hlabel
      · intro hlabel
        by_cases hpg : pg = root
        · rw [if_pos hpg, Option.some.injEq, Table.mk.injEq] at hlabel
          rw [← hlabel.2] at hlabel
          exact absurd hlabel.1.symm hqp
        · rw [if_neg hpg] at hlabel
          exact hlabel
  · intro pg table htable
    rw [hi.tables] at htable
    by_cases hpg : pg = root
    · rw [if_pos hpg, Option.some.injEq] at htable
      rw [← htable, hi.live]
      exact ⟨Function.update_self _ _ _, rfl⟩
    · rw [if_neg hpg] at htable
      obtain ⟨howner, hown⟩ := h.tree.owner pg table htable
      refine ⟨?_, hown⟩
      rw [hi.live]
      by_cases hop : table.owner = p
      · rw [hop, Function.update_self]
      · rw [Function.update_of_ne hop]
        exact howner
  · intro pg table htable
    rw [hi.tables] at htable
    by_cases hpg : pg = root
    · rw [hpg]
      exact ⟨hne0, haddr⟩
    · rw [if_neg hpg] at htable
      exact h.tree.page pg table htable
  · rw [hi.live, Function.update_of_ne hkp]
    exact h.tree.kernel
  · intro q hq j hlo hhi
    rw [htop kernel hkp]
    by_cases hqp : q = p
    · rw [hqp, hself]
      exact hupper j hlo hhi
    · have hq' := hold q hqp hq
      rw [htop q hqp, hmem _ (hused _ _ (h.tree.root hq')), hmem _ hktop]
      exact h.shared.same q hq' j hlo hhi
  · intro j hlo hhi
    rw [htop kernel hkp, child_congr (congrFun (hmem _ hktop) j)]
    exact h.shared.dir j hlo hhi

/-! ## `pmap_kernel_bootstrap` -/

/-- The state after `n` tables of the upper half were allocated. -/
structure State.Booting (kernel : P) (s : State P) (root : Paddr) (n : ℕ) : Prop where
  tree : s.Tree kernel
  alone : ∀ q, s.live q = true → q = kernel
  top : s.topLevel kernel = root
  zero : ∀ j, 256 + n ≤ j → s.mem root j = 0
  dir : ∀ j, 256 ≤ j → j < 256 + n → child s.mem 3 root j ≠ none
  pool : 256 ≤ s.pool.length + n

theorem State.Booting.share {n : ℕ} (h : s.Booting kernel root n) (hn : n < 256)
    (hs : shareEntry kernel root s n = some s') : s'.Booting kernel root (n + 1) := by
  have hzero : pteIsZero (s.mem root (256 + n)) = true :=
    decide_eq_true (h.zero _ (Nat.le_refl _))
  rw [shareEntry, if_pos hzero] at hs
  obtain ⟨r, hr, rfl⟩ := Option.map_eq_some_iff.mp hs
  rcases State.pmmAllocZeroed_cases hr with ⟨hnil, _⟩ | ⟨pa, rest, hpool, hfresh, rfl⟩
  · have hlen := h.pool
    rw [hnil, List.length_nil] at hlen
    omega
  have hroot : s.tableAt kernel [] = some root := congrArg some h.top
  have hi : 256 + n < 512 := by omega
  have hgrow := h.tree.grow rest h.tree.kernel hroot (by decide) hi
    (h.zero _ (Nat.le_refl _)) hfresh (fun _ => Or.inr h.alone)
  rw [ownerOf_kernel] at hgrow
  have hne : root ≠ pa := by
    intro hno
    have hlabel := h.tree.root h.tree.kernel
    rw [h.top, hno, hfresh.1] at hlabel
    cases hlabel
  have hmem : ∀ j, (s.grow rest root (256 + n) pa ⟨kernel, [256 + n]⟩).mem root j =
      if j = 256 + n then pteMakeDir pa else s.mem root j := by
    intro j
    rw [State.grow_mem, if_neg hne]
    simp only [true_and]
  show (s.grow rest root (256 + n) pa ⟨kernel, [256 + n]⟩).Booting kernel root (n + 1)
  refine ⟨hgrow, h.alone, h.top, ?_, ?_, ?_⟩
  · intro j hj
    rw [hmem, if_neg (by omega)]
    exact h.zero j (by omega)
  · intro j hlo hhi
    by_cases hj : j = 256 + n
    · rw [child_of_lt (by omega), hmem, if_pos hj, pteChild_makeDir hfresh.2.2 (by decide)]
      exact Option.some_ne_none pa
    · have hsame : (s.grow rest root (256 + n) pa ⟨kernel, [256 + n]⟩).mem root j =
          s.mem root j := by rw [hmem, if_neg hj]
      rw [child_congr hsame]
      exact h.dir j hlo (by omega)
  · have hlen := h.pool
    rw [hpool, List.length_cons] at hlen
    show 256 ≤ rest.length + (n + 1)
    omega

theorem State.Booting.loop (n : ℕ) (hn : n ≤ 256) (h : s.Booting kernel root 0)
    (hs : (List.range n).foldlM (shareEntry kernel root) s = some s') :
    s'.Booting kernel root n := by
  induction n generalizing s' with
  | zero =>
    rw [← Option.some.inj hs]
    exact h
  | succ n ih =>
    rw [List.range_succ, List.foldlM_append] at hs
    obtain ⟨s₁, h₁, hs⟩ := Option.bind_eq_some_iff.mp hs
    rw [List.foldlM_cons] at hs
    obtain ⟨s₂, h₂, hs⟩ := Option.bind_eq_some_iff.mp hs
    rw [← Option.some.inj hs]
    exact (ih (by omega) h₁).share (by omega) h₂

theorem pmapKernelBootstrap_spec (hblank : s.Blank) (h : pmapKernelBootstrap kernel s = some s') :
    s'.Inv kernel := by
  obtain ⟨r, hr, h⟩ := Option.bind_eq_some_iff.mp h
  rcases State.pmmAllocZeroed_cases hr with ⟨hnil, _⟩ | ⟨root, rest, hpool, hfresh, rfl⟩
  · have hlen := hblank.pool
    rw [hnil, List.length_nil] at hlen
    omega
  generalize hs₀ : (s.takePage root rest).setRoot kernel root = s₀ at h
  have hlive : ∀ q, s₀.live q = true ↔ q = kernel := by
    intro q
    rw [← hs₀]
    show Function.update s.live kernel true q = true ↔ q = kernel
    rw [Function.update_apply, hblank.live]
    by_cases hq : q = kernel
    · rw [if_pos hq]
      exact ⟨fun _ => hq, fun _ => rfl⟩
    · rw [if_neg hq]
      exact ⟨fun hno => absurd hno Bool.false_ne_true, fun hno => absurd hno hq⟩
  have htables : ∀ pg, s₀.tables pg = if pg = root then some ⟨kernel, []⟩ else none := by
    intro pg
    rw [← hs₀]
    show Function.update s.tables root (some ⟨kernel, []⟩) pg = _
    rw [Function.update_apply, hblank.tables]
  have htop : s₀.topLevel kernel = root := by
    rw [← hs₀]
    exact Function.update_self _ _ _
  have hzero : ∀ j, s₀.mem root j = 0 := by
    intro j
    rw [← hs₀]
    show Function.update s.mem root (fun _ => 0) root j = 0
    rw [Function.update_self]
  have htree : s₀.Tree kernel := by
    refine ⟨?_, ?_, ?_, (hlive kernel).mpr rfl⟩
    · intro q hq path pg
      rw [(hlive q).mp hq, ownerOf_kernel, State.tableAt, htop, htables]
      cases path with
      | nil =>
        rw [walk_nil, Option.some.injEq]
        by_cases hpg : pg = root
        · rw [if_pos hpg]
          exact ⟨fun _ => rfl, fun _ => hpg.symm⟩
        · rw [if_neg hpg]
          exact ⟨fun hno => absurd hno.symm hpg, fun hno => by cases hno⟩
      | cons i path =>
        rw [walk_cons, child_eq_none (hzero i) (pteChild_zero 3)]
        constructor
        · intro hno
          cases hno
        · intro hlabel
          obtain ⟨_, hlabel⟩ := Option.ite_none_right_eq_some.mp hlabel
          rw [Option.some.injEq, Table.mk.injEq] at hlabel
          exact absurd hlabel.2.symm (List.cons_ne_nil i path)
    · intro pg table htable
      rw [htables] at htable
      obtain ⟨_, htable⟩ := Option.ite_none_right_eq_some.mp htable
      rw [← Option.some.inj htable]
      exact ⟨(hlive kernel).mpr rfl, rfl⟩
    · intro pg table htable
      rw [htables] at htable
      rw [(Option.ite_none_right_eq_some.mp htable).1]
      exact hfresh.2
  have hboot : s₀.Booting kernel root 0 := by
    refine ⟨htree, fun q hq => (hlive q).mp hq, htop, fun j _ => hzero j, ?_, ?_⟩
    · intro j hlo hhi
      omega
    · have hlen := hblank.pool
      rw [hpool, List.length_cons] at hlen
      rw [← hs₀]
      show 256 ≤ rest.length + 0
      omega
  have hdone := hboot.loop 256 (Nat.le_refl 256) h
  refine ⟨hdone.tree, ?_, ?_⟩
  · intro q hq i _ _
    rw [hdone.alone q hq]
  · intro i hlo hhi
    rw [hdone.top]
    exact hdone.dir i hlo (by omega)

/-! ## Every run -/

theorem State.Inv.setPool (h : s.Inv kernel) (pages : List Paddr) :
    State.Inv kernel { s with pool := pages } :=
  ⟨⟨h.tree.tableAt_iff, h.tree.owner, h.tree.page, h.tree.kernel⟩, h.shared.same, h.shared.dir⟩

theorem State.Inv.setMapped (h : s.Inv kernel) (mappedOn : P → Bool) :
    State.Inv kernel { s with mappedOn := mappedOn } :=
  ⟨⟨h.tree.tableAt_iff, h.tree.owner, h.tree.page, h.tree.kernel⟩, h.shared.same, h.shared.dir⟩

/-- **Step lemma.** -/
theorem State.Inv.step {e : Event P} (h : s.Inv kernel) (hC : Careful s e)
    (hs : step kernel s e = some s') : s'.Inv kernel := by
  cases e with
  | init p pages =>
    obtain ⟨hguard, hs⟩ := Option.ite_none_left_eq_some.mp hs
    have hdead : s.live p = false := Bool.eq_false_of_not_eq_true (fun hno => hguard (Or.inl hno))
    have hpool := h.setPool pages
    obtain ⟨root, hfresh, hinits⟩ :=
      pmapInit_spec hpool (fun hno => hguard (Or.inr hno)) hC hs
    exact hpool.init hdead hfresh hinits
  | map p va pa level prot cache pages =>
    obtain ⟨hp, hs⟩ := Option.ite_none_right_eq_some.mp hs
    have hpool := h.setPool pages
    exact (pmapMap_spec hpool hp hC hs).inv
  | unmap p va level =>
    obtain ⟨hp, hs⟩ := Option.ite_none_right_eq_some.mp hs
    obtain ⟨r, hr, rfl⟩ := Option.map_eq_some_iff.mp hs
    exact (doUnmap_spec h hp hC hr).inv
  | unmapRange p va length level =>
    obtain ⟨hp, hs⟩ := Option.ite_none_right_eq_some.mp hs
    exact (pmapUnmapRange_spec h hp hC hs).inv
  | protectRange p va length prot cache level =>
    obtain ⟨hp, hs⟩ := Option.ite_none_right_eq_some.mp hs
    exact (pmapProtectRange_spec h hp hC hs).inv
  | destroy p =>
    obtain ⟨hp, hs⟩ := Option.ite_none_right_eq_some.mp hs
    obtain ⟨hker, hd⟩ := pmapDestroy_spec h.tree hp hs
    exact h.destroy hp hker hd
  | mark p mapped =>
    obtain ⟨hp, hs⟩ := Option.ite_none_right_eq_some.mp hs
    rw [← Option.some.inj hs]
    exact h.setMapped _

/-- **Run lemma.** -/
theorem inv_of_reachable (h : (system kernel).ReachableUnder Careful s) : s.Inv kernel := by
  refine h.invariant ?_ ?_
  · rintro s₀ ⟨blank, hblank, hboot⟩
    exact pmapKernelBootstrap_spec hblank hboot
  · intro s₁ e s₂ hinv hC hs
    exact hinv.step hC hs

theorem State.Inv.sharesKernelHalf (h : s.Inv kernel) : s.SharesKernelHalf kernel := by
  intro p hp va hva
  have hsame := h.shared.same p hp (levelIndex va 3) hva (levelIndex_lt va 3)
  have htop : ∀ q, s.translation q va =
      if pteIsZero (s.mem (s.topLevel q) (levelIndex va 3)) = true then none
      else if pteIsLarge (s.mem (s.topLevel q) (levelIndex va 3)) 3 = true then
        some (s.mem (s.topLevel q) (levelIndex va 3), 3)
      else translate s.mem va 2 (ptePaddr (s.mem (s.topLevel q) (levelIndex va 3))) := by
    intro q
    rfl
  rw [htop, htop, hsame]

theorem State.Inv.destroysExactly (h : s.Inv kernel) (hp : s.live p = true) (hker : p ≠ kernel) :
    s.DestroysExactly kernel p (s.userTables p) where
  table := by
    intro pg path _ hlabel
    exact List.count_eq_one_of_mem (h.tree.nodup_userTables hp)
      ((h.tree.mem_userTables hp hker).mpr ⟨path, hlabel⟩)
  root := List.count_eq_one_of_mem (h.tree.nodup_userTables hp)
    ((h.tree.mem_userTables hp hker).mpr ⟨[], h.tree.root hp⟩)
  nothingElse := by
    intro pg hpg
    obtain ⟨path, hlabel⟩ := (h.tree.mem_userTables hp hker).mp hpg
    cases path with
    | nil =>
      have hw := (h.tree.tableAt_iff p hp [] pg).mpr hlabel
      exact Or.inl (Option.some.inj hw).symm
    | cons i path =>
      refine Or.inr ⟨i, path, ?_, hlabel⟩
      by_contra hi
      have howner := (h.tree.owner pg _ hlabel).2
      change ownerOf kernel p (i :: path) = p at howner
      rw [ownerOf, if_neg hi] at howner
      exact hker howner.symm
  kernelHalf := by
    intro pg path hlabel hin
    obtain ⟨path', hlabel'⟩ := (h.tree.mem_userTables hp hker).mp hin
    rw [hlabel, Option.some.injEq, Table.mk.injEq] at hlabel'
    exact hker hlabel'.1.symm
  frame := by
    intro q va pte lvl _ _ hno hin
    obtain ⟨path, hlabel⟩ := (h.tree.mem_userTables hp hker).mp hin
    exact hno path hlabel

/-- **Ownership of page tables.**  In every run in which `pmap_init` gets its page and no entry
that points to a table is overwritten, the kernel's half is the same in all pmaps, and
`pmap_destroy` frees the tables of the user half and the root, each once, and nothing else. -/
theorem page_tables_owned (h : (system kernel).ReachableUnder Careful s) :
    s.SharesKernelHalf kernel ∧
      ∀ p s', step kernel s (.destroy p) = some s' → s.DestroysExactly kernel p s'.freed := by
  have hinv := inv_of_reachable h
  refine ⟨hinv.sharesKernelHalf, ?_⟩
  intro p s' hs
  obtain ⟨hp, hs⟩ := Option.ite_none_right_eq_some.mp hs
  obtain ⟨hker, hd⟩ := pmapDestroy_spec hinv.tree hp hs
  rw [hd.freed]
  exact hinv.destroysExactly hp hker

/-! ## A kernel and a process -/

/-- Page frame `k`. -/
def frame (k : ℕ) : Paddr := BitVec.ofNat 64 (k * 4096)

theorem frame_inj {j k : ℕ} (hj : j < 1000) (hk : k < 1000) : frame j = frame k ↔ j = k := by
  constructor
  · intro h
    have hnat := congrArg BitVec.toNat h
    rw [frame, frame, BitVec.toNat_ofNat, BitVec.toNat_ofNat, Nat.mod_eq_of_lt (by omega),
      Nat.mod_eq_of_lt (by omega)] at hnat
    omega
  · intro h
    rw [h]

theorem ptePaddr_frame : ∀ k, k < 305 → ptePaddr (frame k) = frame k := by decide +kernel

/-- The page tables after `n` tables of the kernel's upper half were allocated. -/
def booting (n : ℕ) : State Bool where
  mem := fun pg j =>
    if pg = frame 1 ∧ 256 ≤ j ∧ j < 256 + n then pteMakeDir (frame (j - 254)) else 0
  topLevel := fun q => if q then frame 1 else 0
  live := fun q => q
  mappedOn := fun _ => false
  pool := (List.range' (n + 2) (256 - n)).map frame
  tables := fun pg => if pg = frame 1 then some ⟨true, []⟩ else
    ((List.range n).find? (fun k => pg = frame (k + 2))).map (fun k => ⟨true, [256 + k]⟩)
  freed := []

/-- Physical memory of zeros, with pages enough. -/
def blank : State Bool where
  mem := fun _ _ => 0
  topLevel := fun _ => 0
  live := fun _ => false
  mappedOn := fun _ => false
  pool := (List.range' 1 257).map frame
  tables := fun _ => none
  freed := []

theorem booting_tables_frame {n k : ℕ} (hlo : n + 2 ≤ k) (hhi : k < 1000) :
    (booting n).tables (frame k) = none := by
  show (if frame k = frame 1 then _ else _) = none
  rw [if_neg (fun hno => by have heq := (frame_inj hhi (by decide)).mp hno; omega)]
  rw [Option.map_eq_none_iff, List.find?_eq_none]
  intro j hj hno
  have hlt := List.mem_range.mp hj
  have heq := (frame_inj hhi (by omega)).mp (of_decide_eq_true hno)
  omega

theorem share_booting {n : ℕ} (hn : n < 256) :
    shareEntry true (frame 1) (booting n) n = some (booting (n + 1)) := by
  have hzero : (booting n).mem (frame 1) (256 + n) = 0 := if_neg (by omega)
  have hpool : (booting n).pool = frame (n + 2) :: (List.range' (n + 3) (255 - n)).map frame := by
    have hlen : 256 - n = (255 - n) + 1 := by omega
    show (List.range' (n + 2) (256 - n)).map frame = _
    rw [hlen, List.range'_succ, List.map_cons]
  have hfresh : (booting n).Fresh (frame (n + 2)) := by
    refine ⟨booting_tables_frame (Nat.le_refl _) (by omega), ?_, ptePaddr_frame _ (by omega)⟩
    intro hno
    have heq := (frame_inj (k := 0) (by omega) (by decide)).mp hno
    omega
  have hother : frame (n + 2) ≠ frame 1 := by
    intro hno
    have heq := (frame_inj (by omega) (by decide)).mp hno
    omega
  have hz : pteIsZero ((booting n).mem (frame 1) (256 + n)) = true := decide_eq_true hzero
  have halloc : (booting n).pmmAllocZeroed = some (frame (n + 2),
      (booting n).takePage (frame (n + 2)) ((List.range' (n + 3) (255 - n)).map frame)) := by
    rw [State.pmmAllocZeroed, hpool]
    exact if_pos hfresh
  rw [shareEntry, if_pos hz, halloc, Option.map_some, Option.some.injEq]
  have hparts : ((((booting n).takePage (frame (n + 2))
      ((List.range' (n + 3) (255 - n)).map frame)).pteStore (frame 1) (256 + n)
      (pteMakeDir (frame (n + 2)))).record (frame (n + 2)) (some ⟨true, [256 + n]⟩)) =
      { booting (n + 1) with
        mem := ((booting n).grow ((List.range' (n + 3) (255 - n)).map frame) (frame 1) (256 + n)
          (frame (n + 2)) ⟨true, [256 + n]⟩).mem
        pool := (List.range' (n + 3) (255 - n)).map frame
        tables := Function.update (booting n).tables (frame (n + 2))
          (some ⟨true, [256 + n]⟩) } := rfl
  rw [hparts]
  have hmem : ((booting n).grow ((List.range' (n + 3) (255 - n)).map frame) (frame 1) (256 + n)
      (frame (n + 2)) ⟨true, [256 + n]⟩).mem = (booting (n + 1)).mem := by
    funext pg j
    rw [State.grow_mem]
    show _ = if pg = frame 1 ∧ 256 ≤ j ∧ j < 256 + (n + 1) then pteMakeDir (frame (j - 254)) else 0
    by_cases hhere : pg = frame 1 ∧ j = 256 + n
    · have hk : 256 + n - 254 = n + 2 := by omega
      rw [if_pos hhere, if_pos ⟨hhere.1, by omega, by omega⟩, hhere.2, hk]
    · rw [if_neg hhere]
      by_cases hpg : pg = frame (n + 2)
      · rw [if_pos hpg, if_neg]
        rintro ⟨hno, _⟩
        exact hother (hpg.symm.trans hno)
      · rw [if_neg hpg]
        have hiff : (pg = frame 1 ∧ 256 ≤ j ∧ j < 256 + (n + 1)) ↔
            (pg = frame 1 ∧ 256 ≤ j ∧ j < 256 + n) := by
          constructor
          · rintro ⟨hp, hlo, hhi⟩
            have hj : j ≠ 256 + n := fun hno => hhere ⟨hp, hno⟩
            exact ⟨hp, hlo, by omega⟩
          · rintro ⟨hp, hlo, hhi⟩
            exact ⟨hp, hlo, by omega⟩
        have hold : (booting n).mem pg j = if pg = frame 1 ∧ 256 ≤ j ∧ j < 256 + n then
            pteMakeDir (frame (j - 254)) else 0 := rfl
        rw [hold]
        simp only [hiff]
  have htables : Function.update (booting n).tables (frame (n + 2)) (some ⟨true, [256 + n]⟩) =
      (booting (n + 1)).tables := by
    funext pg
    rw [Function.update_apply]
    show _ = if pg = frame 1 then some (Table.mk true []) else
      ((List.range (n + 1)).find? (fun k => pg = frame (k + 2))).map
        (fun k => Table.mk true [256 + k])
    rw [List.range_succ, List.find?_append]
    by_cases hpg : pg = frame (n + 2)
    · subst hpg
      have hnone : (List.range n).find? (fun k => frame (n + 2) = frame (k + 2)) = none := by
        rw [List.find?_eq_none]
        intro k hk hno
        have hlt := List.mem_range.mp hk
        have heq := (frame_inj (by omega) (by omega)).mp (of_decide_eq_true hno)
        omega
      rw [if_pos rfl, if_neg hother, hnone]
      simp
    · have hlast : [n].find? (fun k => pg = frame (k + 2)) = none := by
        rw [List.find?_singleton, if_neg]
        exact fun hno => hpg (of_decide_eq_true hno)
      rw [if_neg hpg, hlast, Option.or_none]
      rfl
  have hpool' : (List.range' (n + 3) (255 - n)).map frame = (booting (n + 1)).pool := by
    show _ = (List.range' (n + 1 + 2) (256 - (n + 1))).map frame
    have hlen : 255 - n = 256 - (n + 1) := by omega
    rw [hlen]
  rw [hmem, htables, hpool']

theorem booted : (system true).init (booting 256) := by
  refine ⟨blank, ⟨fun _ => rfl, fun _ => rfl, fun _ => rfl, ?_⟩, ?_⟩
  · show 257 ≤ ((List.range' 1 257).map frame).length
    rw [List.length_map, List.length_range']
  · have hpool : blank.pool = frame 1 :: (List.range' 2 256).map frame := by
      show (List.range' 1 (256 + 1)).map frame = _
      rw [List.range'_succ, List.map_cons]
    have hfresh : blank.Fresh (frame 1) := by decide
    have halloc : blank.pmmAllocZeroed = some (frame 1,
        blank.takePage (frame 1) ((List.range' 2 256).map frame)) := by
      rw [State.pmmAllocZeroed, hpool]
      exact if_pos hfresh
    have hstart : (blank.takePage (frame 1) ((List.range' 2 256).map frame)).setRoot true (frame 1) =
        booting 0 := by
      have hmem : Function.update blank.mem (frame 1) (fun _ => 0) = (booting 0).mem := by
        funext pg j
        have hzero : (booting 0).mem pg j = 0 := if_neg (by omega)
        rw [hzero, Function.update_apply]
        split
        · rfl
        · rfl
      have htables : Function.update blank.tables (frame 1) (some (Table.mk true [])) =
          (booting 0).tables := by
        funext pg
        rw [Function.update_apply]
        rfl
      have htop : Function.update blank.topLevel true (frame 1) = (booting 0).topLevel := by
        funext q
        cases q with
        | true => rfl
        | false => rfl
      have hlive : Function.update blank.live true true = (booting 0).live := by
        funext q
        cases q with
        | true => rfl
        | false => rfl
      have hparts : (blank.takePage (frame 1) ((List.range' 2 256).map frame)).setRoot true
          (frame 1) = { booting 0 with
            mem := Function.update blank.mem (frame 1) (fun _ => 0)
            topLevel := Function.update blank.topLevel true (frame 1)
            live := Function.update blank.live true true
            tables := Function.update blank.tables (frame 1) (some (Table.mk true [])) } := rfl
      rw [hparts, hmem, htables, htop, hlive]
    rw [pmapKernelBootstrap, halloc, Option.bind_some]
    show (List.range 256).foldlM (shareEntry true (frame 1))
      ((blank.takePage (frame 1) ((List.range' 2 256).map frame)).setRoot true (frame 1)) = _
    rw [hstart]
    have hloop : ∀ n, n ≤ 256 → (List.range n).foldlM (shareEntry true (frame 1)) (booting 0) =
        some (booting n) := by
      intro n hn
      induction n with
      | zero => rfl
      | succ n ih =>
        rw [List.range_succ, List.foldlM_append, ih (by omega)]
        show [n].foldlM (shareEntry true (frame 1)) (booting n) = _
        rw [List.foldlM_cons, share_booting (by omega)]
        rfl
    exact hloop 256 (Nat.le_refl _)

theorem step_init (pages : List Paddr) (hp : s.live p = false) (hker : p ≠ kernel) :
    step kernel s (.init p pages) = pmapInit kernel p { s with pool := pages } := by
  have hguard : ¬ (s.live p = true ∨ p = kernel) := by
    rw [hp]
    exact fun hno => hno.elim Bool.false_ne_true hker
  exact if_neg hguard

/-- A call gets one page. -/
def supplied : State Bool := { booting 256 with pool := [frame 300] }

/-- A process has got its root. -/
def rooted : State Bool := (supplied.takePage (frame 300) []).setRoot false (frame 300)

theorem frame_one_ne : frame 1 ≠ frame 300 := by
  rw [ne_eq, frame_inj (by decide) (by decide)]
  decide

theorem init_supplied :
    pmapInit true false supplied = some (rooted.copied true (frame 300) 256) := by
  have hfresh : supplied.Fresh (frame 300) := by
    refine ⟨booting_tables_frame (n := 256) (k := 300) (by decide) (by decide), ?_,
      ptePaddr_frame 300 (by decide)⟩
    decide
  have halloc : supplied.pmmAllocZeroed =
      some (frame 300, supplied.takePage (frame 300) []) := by
    have hpool : supplied.pool = [frame 300] := rfl
    rw [State.pmmAllocZeroed, hpool]
    exact if_pos hfresh
  have hupper : ∀ j, 256 ≤ j → j < 256 + 256 → rooted.mem (frame 1) j ≠ 0 := by
    intro j hlo hhi hzero
    have hmem : rooted.mem (frame 1) j = pteMakeDir (frame (j - 254)) := by
      show Function.update (booting 256).mem (frame 300) (fun _ => 0) (frame 1) j = _
      rw [Function.update_of_ne frame_one_ne]
      exact if_pos ⟨rfl, hlo, hhi⟩
    rw [hmem] at hzero
    exact Bool.noConfusion ((pteIsZero_makeDir _).symm.trans (decide_eq_true hzero))
  have hne : frame 300 ≠ rooted.topLevel true := Ne.symm frame_one_ne
  have hloop := copyEntries 256 hne hupper
  rw [pmapInit, halloc, Option.bind_some]
  exact hloop

theorem system_step : (system kernel).step = step kernel := rfl

theorem rooted_reachable : (system true).ReachableUnder Careful
    (rooted.copied true (frame 300) 256) := by
  have hstart : (system true).ReachableUnder Careful (booting 256) := .init booted
  have hC : Careful (booting 256) (.init false [frame 300]) := List.cons_ne_nil _ _
  have hinit : step true (booting 256) (.init false [frame 300]) =
      pmapInit true false supplied :=
    step_init (s := booting 256) [frame 300] (p := false) rfl Bool.false_ne_true
  have hs : (system true).step (booting 256) (.init false [frame 300]) =
      some (rooted.copied true (frame 300) 256) := by
    rw [system_step]
    exact hinit.trans init_supplied
  exact TransitionSystem.ReachableUnder.step hstart hC hs

/-- A page of the process is mapped, and unmapped. -/
theorem page_tables_owned_two : ∃ s : State Bool, (system true).ReachableUnder Careful s ∧
    (s.tables (frame 303) = some ⟨false, [0, 0, 0]⟩ ∧ s.translation false 0x1000 = none) ∧
    s.SharesKernelHalf true ∧
      ∀ p s', step true s (.destroy p) = some s' → s.DestroysExactly true p s'.freed := by
  obtain ⟨s, hreach, hend⟩ := rooted_reachable.exists_runUnder
    [.map false 0x1000 0x5000 0 0x3 vmWb [frame 301, frame 302, frame 303],
      .unmap false 0x1000 0]
    (fun s => decide (s.tables (frame 303) = some ⟨false, [0, 0, 0]⟩ ∧
      s.translation false 0x1000 = none)) (by decide +kernel)
  exact ⟨s, hreach, of_decide_eq_true hend, page_tables_owned hreach⟩

/-- The entry of the root is unmapped: `pmap_destroy` does not find the tables below it. -/
theorem unmap_leaks_table : ¬ ∀ s : State Bool, (system true).Reachable s →
    s.SharesKernelHalf true ∧
      ∀ p s', step true s (.destroy p) = some s' → s.DestroysExactly true p s'.freed := by
  intro hall
  obtain ⟨s, hreach, hend⟩ := rooted_reachable.reachable.exists_run
    [.map false 0x1000 0x5000 0 0x3 vmWb [frame 301, frame 302, frame 303], .unmap false 0 3]
    (fun s => decide (s.tables (frame 303) = some ⟨false, [0, 0, 0]⟩ ∧
      (step true s (.destroy false)).any (fun s' => decide (frame 303 ∉ s'.freed)) = true))
    (by decide +kernel)
  obtain ⟨hlabel, hfreed⟩ := of_decide_eq_true hend
  obtain ⟨s', hs', hnot⟩ := (Option.any_eq_true _ _).mp hfreed
  have hone := ((hall s hreach).2 false s' hs').table _ _ (List.cons_ne_nil _ _) hlabel
  rw [List.count_eq_zero_of_not_mem (of_decide_eq_true hnot)] at hone
  cases hone

end Pmap
