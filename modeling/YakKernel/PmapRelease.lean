/-
# Unmapping a range and freeing its frames

`pmap_unmap_range_and_free` of `vm/generic_pmap.c`.  The frames of 32 pages are collected, the
pages are shot down together, and the frames are freed.  What the call does besides its stores is
recorded in the order in which it is done.
-/
import YakKernel.PmapDecode

namespace Pmap

set_option linter.unusedSectionVars false

/-! ## The call -/

/-- What the call does: `do_unmap`, `do_tlb_shootdown` and `pmm_free`. -/
inductive ReleaseEvent where
  | unmap (va : Vaddr)
  | shootdown (va : Vaddr) (length : BitVec 64)
  | free (pa : Paddr)
  deriving DecidableEq

/-- The tables, what was done so far, and `batch`. -/
structure Release (P : Type) where
  state : State P
  log : List ReleaseEvent
  batch : List Paddr

/-- `FREE_BATCH`. -/
def freeBatch : ℕ := 32

section

variable {P : Type} [DecidableEq P] (kernel p : P)

/-- The pages of the batch are shot down, and its frames are freed. -/
def Release.flush (r : Release P) (va : Vaddr) (length : BitVec 64) : Release P where
  state := r.batch.foldl State.pmmFree r.state
  log := r.log ++ .shootdown va length :: r.batch.map .free
  batch := []

/-- The page is unmapped, and its frame is in the batch. -/
def Release.collect (r : Release P) (vaddr : Vaddr) (u : State P × Paddr) : Release P where
  state := u.1
  log := r.log ++ [.unmap vaddr]
  batch := r.batch ++ [u.2]

/-- The body of the loop. -/
def releasePage (base : Vaddr) (r : Release P) (offset : ℕ) : Option (Release P) :=
  (doUnmap kernel p (base + BitVec.ofNat 64 offset) 0 r.state).map (fun u =>
    if (r.batch ++ [u.2]).length = freeBatch then
      (r.collect (base + BitVec.ofNat 64 offset) u).flush
        (base + BitVec.ofNat 64 offset - BitVec.ofNat 64 ((freeBatch - 1) * 4096))
        (BitVec.ofNat 64 (freeBatch * 4096))
    else r.collect (base + BitVec.ofNat 64 offset) u)

/-- What is left in the batch. -/
def Release.finish (r : Release P) (base : Vaddr) (length : BitVec 64) : Release P :=
  if 0 < r.batch.length then
    r.flush (base + length - BitVec.ofNat 64 (r.batch.length * 4096))
      (BitVec.ofNat 64 (r.batch.length * 4096))
  else r

/-- `pmap_unmap_range_and_free`. -/
def pmapUnmapRangeAndFree (base : Vaddr) (length : BitVec 64) (level : ℕ) (s : State P) :
    Option (Release P) :=
  -- `assert(level == 0)`
  if level ≠ 0 then none
  else (offsets length level).bind (fun offs =>
    (offs.foldlM (releasePage kernel p base) ⟨s, [], []⟩).map (fun r => r.finish base length))

end

/-! ## What is to hold -/

/-- Page `i` of the range. -/
def page (base : Vaddr) (i : ℕ) : Vaddr := base + BitVec.ofNat 64 (i * 4096)

/-- The frame of an address. -/
def State.frameOf {P : Type} (s : State P) (p : P) (va : Vaddr) : Paddr :=
  (s.translation p va).elim 0 (fun e => ptePaddr e.1)

/-- The frame that is freed. -/
def ReleaseEvent.freed : ReleaseEvent → Option Paddr
  | .free pa => some pa
  | _ => none

/-- The frames that are freed, in order. -/
def freedFrames (log : List ReleaseEvent) : List Paddr := log.filterMap ReleaseEvent.freed

/-- Page `i` is unmapped and then shot down. -/
def ShotDown (base : Vaddr) (i : ℕ) (log : List ReleaseEvent) : Prop :=
  ∃ before after va length, log = before ++ .shootdown va length :: after ∧
    .unmap (page base i) ∈ before ∧ (page base i - va).toNat + 4096 ≤ length.toNat

/-- No frame is freed before the page, whose frame it is, was shot down. -/
def ShotDownFirst (base : Vaddr) (log : List ReleaseEvent) : Prop :=
  ∀ before pa after, log = before ++ .free pa :: after →
    ShotDown base (freedFrames before).length before

/-! ## The log -/

section

variable {base : Vaddr} {log log' : List ReleaseEvent} {i : ℕ}

theorem freedFrames_append (log log' : List ReleaseEvent) :
    freedFrames (log ++ log') = freedFrames log ++ freedFrames log' := List.filterMap_append

theorem freedFrames_map_free (pas : List Paddr) : freedFrames (pas.map .free) = pas := by
  rw [freedFrames, List.filterMap_map]
  exact List.filterMap_some

theorem append_eq_cons {α : Type} {l l' before after : List α} {x : α}
    (h : l ++ l' = before ++ x :: after) :
    (∃ rest, l = before ++ x :: rest) ∨ ∃ rest, before = l ++ rest ∧ l' = rest ++ x :: after := by
  rcases List.append_eq_append_iff.mp h with ⟨rest, hbefore, hl'⟩ | ⟨rest, hl, hcons⟩
  · exact Or.inr ⟨rest, hbefore, hl'⟩
  · cases rest with
    | nil =>
      rw [List.append_nil] at hl
      exact Or.inr ⟨[], by rw [hl, List.append_nil], hcons.symm⟩
    | cons y rest =>
      rw [List.cons_append] at hcons
      obtain ⟨rfl, _⟩ := List.cons.inj hcons
      exact Or.inl ⟨rest, hl⟩

theorem ShotDownFirst.unmap (h : ShotDownFirst base log) (va : Vaddr) :
    ShotDownFirst base (log ++ [.unmap va]) := by
  intro before pa after heq
  rcases append_eq_cons heq with ⟨rest, hlog⟩ | ⟨rest, _, hlast⟩
  · exact h before pa rest hlog
  · cases rest with
    | nil => cases hlast
    | cons y rest =>
      have hlen := congrArg List.length hlast
      simp at hlen

/-- **The frames of pages that are shot down together.** -/
theorem ShotDownFirst.flush (h : ShotDownFirst base log) {pas : List Paddr} {va : Vaddr}
    {length : BitVec 64} (hcover : ∀ k, k < pas.length →
      .unmap (page base ((freedFrames log).length + k)) ∈ log ∧
        (page base ((freedFrames log).length + k) - va).toNat + 4096 ≤ length.toNat) :
    ShotDownFirst base (log ++ .shootdown va length :: pas.map .free) := by
  intro before pa after heq
  rcases append_eq_cons heq with ⟨rest, hlog⟩ | ⟨rest, hbefore, hrest⟩
  · exact h before pa rest hlog
  · cases rest with
    | nil => cases hrest
    | cons y rest =>
      rw [List.cons_append] at hrest
      obtain ⟨rfl, hfree⟩ := List.cons.inj hrest
      obtain ⟨done, todo, rfl, hdone, htodo⟩ := List.map_eq_append_iff.mp hfree
      have hlt : done.length < (done ++ todo).length := by
        have hlen := congrArg List.length htodo
        rw [List.length_map, List.length_cons] at hlen
        rw [List.length_append]
        omega
      have hcount : (freedFrames before).length = (freedFrames log).length + done.length := by
        have hskip : freedFrames (.shootdown va length :: rest) = freedFrames rest := rfl
        rw [hbefore, freedFrames_append, List.length_append, hskip, ← hdone, freedFrames_map_free]
      obtain ⟨hin, hle⟩ := hcover done.length hlt
      rw [hcount]
      exact ⟨log, rest, va, length, hbefore, hin, hle⟩

end

/-! ## The loop -/

section

variable {P : Type} [DecidableEq P] {kernel p : P} {s s₀ : State P} {r : Release P} {base va : Vaddr}
  {j : ℕ}

theorem doUnmap_mapped (kernel : P) {pte : Pte} (h : s.translation p va = some (pte, 0)) :
    ∃ t, s.tableAt p (pathTo va 3) = some t ∧
      doUnmap kernel p va 0 s = some (s.pteStore t (levelIndex va 0) 0, ptePaddr pte) := by
  obtain ⟨_, t, ht, hmem⟩ := exists_table_of_translate (Nat.le_refl 3) rfl h
  refine ⟨t, ht, ?_⟩
  rw [doUnmap, pteFetch_of_tableAt false (Nat.zero_le 3) ht, Option.map_some, Option.elim_some]
  exact congrArg (fun x : Pte => some (s.pteStore t (levelIndex va 0) 0, ptePaddr x)) hmem

/-- **The invariant of the loop**: the first `j` pages are unmapped, their frames are freed or in
the batch, and nothing else is changed. -/
structure Releasing (p : P) (base : Vaddr) (s₀ : State P) (j : ℕ) (r : Release P) : Prop where
  tables : ∀ path, r.state.tableAt p path = s₀.tableAt p path
  cleared : ∀ va, Canonical va → (va - base).toNat < j * 4096 → r.state.entry p va 0 = some 0
  others : ∀ va, Canonical va → j * 4096 ≤ (va - base).toNat →
    r.state.translation p va = s₀.translation p va
  frees : freedFrames r.log ++ r.batch
    = (List.range j).map (fun i => s₀.frameOf p (page base i))
  unmapped : ∀ i, i < j → .unmap (page base i) ∈ r.log
  ordered : ShotDownFirst base r.log

theorem foldl_pmmFree (pas : List Paddr) (s : State P) :
    (pas.foldl State.pmmFree s).mem = s.mem ∧ (pas.foldl State.pmmFree s).topLevel = s.topLevel := by
  induction pas generalizing s with
  | nil => exact ⟨rfl, rfl⟩
  | cons pa pas ih => exact ih (s.pmmFree pa)

theorem page_sub_page (base : Vaddr) {k m : ℕ} (hk : m * 4096 + k * 4096 < 2 ^ 64) :
    (page base (m + k) - page base m).toNat = k * 4096 := by
  have hlt := base.isLt
  rw [page, page, BitVec.toNat_sub, BitVec.toNat_add, BitVec.toNat_add, BitVec.toNat_ofNat,
    BitVec.toNat_ofNat]
  omega

/-- **The batch is freed.** -/
theorem Releasing.flush (h : Releasing p base s₀ j r) (hj : j * 4096 < 2 ^ 64) {length : BitVec 64}
    (hva : va = page base (j - r.batch.length)) (hlength : length.toNat = r.batch.length * 4096) :
    Releasing p base s₀ j (r.flush va length) := by
  obtain ⟨hmem, htop⟩ := foldl_pmmFree r.batch r.state
  have hcount : (freedFrames r.log).length + r.batch.length = j := by
    rw [← List.length_append, h.frees, List.length_map, List.length_range]
  have htable : ∀ path, (r.flush va length).state.tableAt p path = r.state.tableAt p path := by
    intro path
    rw [State.tableAt, Release.flush, hmem, htop]
    rfl
  have hlog : freedFrames (r.flush va length).log = freedFrames r.log ++ r.batch := by
    have hskip : freedFrames (.shootdown va length :: r.batch.map .free) = r.batch :=
      freedFrames_map_free r.batch
    rw [Release.flush, freedFrames_append, hskip]
  constructor
  · intro path
    rw [htable, h.tables]
  · intro va' hcan hlt
    rw [State.entry, htable, Release.flush, hmem]
    exact h.cleared va' hcan hlt
  · intro va' hcan hge
    rw [State.translation, Release.flush, hmem, htop]
    exact h.others va' hcan hge
  · rw [hlog, ← h.frees]
    exact List.append_nil _
  · intro i hi
    exact List.mem_append_left _ (h.unmapped i hi)
  · apply h.ordered.flush
    intro k hk
    have hfirst : j - r.batch.length = (freedFrames r.log).length := by omega
    have hbound : (freedFrames r.log).length * 4096 + k * 4096 < 2 ^ 64 := by
      rw [← Nat.add_mul]
      exact Nat.lt_of_le_of_lt (Nat.mul_le_mul_right 4096 (by omega)) hj
    refine ⟨h.unmapped _ (by omega), ?_⟩
    rw [hva, hlength, hfirst, page_sub_page base hbound]
    omega

/-- **A page is unmapped.** -/
theorem Releasing.collect (h : Releasing p base s₀ j r) (hsep : s₀.Separate p)
    (hbase : base.toNat % 4096 = 0) (hj : (j + 1) * 4096 < 2 ^ 64)
    (hcanon : Canonical (page base j)) {pte : Pte}
    (hmapped : s₀.translation p (page base j) = some (pte, 0)) :
    ∃ u, doUnmap kernel p (page base j) 0 r.state = some u ∧
      Releasing p base s₀ (j + 1) (r.collect (page base j) u) := by
  have hdist : ∀ va : Vaddr, (va - page base j).toNat < 4096 ↔
      j * 4096 ≤ (va - base).toNat ∧ (va - base).toNat < j * 4096 + 4096 := by
    intro va
    have hlt := va.isLt
    have hlt' := base.isLt
    rw [page, BitVec.toNat_sub, BitVec.toNat_add, BitVec.toNat_sub, BitVec.toNat_ofNat]
    omega
  have hself : (page base j - base).toNat = j * 4096 := by
    rw [page, BitVec.add_comm, BitVec.add_sub_cancel, BitVec.toNat_ofNat]
    omega
  have haligned : (page base j).toNat % 4096 = 0 := by
    rw [page, BitVec.toNat_add, BitVec.toNat_ofNat]
    omega
  have hsep' : r.state.Separate p := by
    intro path path' c hc hc'
    have hc₀ : r.state.tableAt p path = some c := hc
    have hc₀' : r.state.tableAt p path' = some c := hc'
    rw [h.tables] at hc₀ hc₀'
    exact hsep path path' c hc₀ hc₀'
  have hhere : r.state.translation p (page base j) = some (pte, 0) := by
    rw [h.others _ hcanon (by omega)]
    exact hmapped
  obtain ⟨t, ht, hunmap⟩ := doUnmap_mapped kernel hhere
  have hmoved := hsep'.tableAt_pteStore_leaf ht (pathTo_length _ 3)
    (levelIndex (page base j) 0) 0
  refine ⟨_, hunmap, ?_, ?_, ?_, ?_, ?_, ?_⟩
  · intro path
    exact (hmoved path).trans (h.tables path)
  · intro va hcan hlt
    show ((r.state.pteStore t _ 0).tableAt p (pathTo va 3)).map _ = some 0
    rw [hmoved]
    by_cases hold : (va - base).toNat < j * 4096
    · obtain ⟨t', ht', hzero⟩ := Option.map_eq_some_iff.mp (h.cleared va hcan hold)
      change r.state.tableAt p (pathTo va 3) = some t' at ht'
      rw [ht', Option.map_some, Option.some.injEq]
      show (r.state.pteStore t _ 0).mem t' _ = 0
      rw [State.pteStore_apply, hzero, ite_self]
    · have hin : (va - page base j).toNat < 4096 := (hdist va).mpr ⟨by omega, by omega⟩
      have hblock := (pathTo_eq_iff_sub_lt (Nat.zero_le 2) hcanon hcan haligned).mpr hin
      obtain ⟨hpath, hindex⟩ := pathTo_of_entry (Nat.zero_le 3) hblock
      change pathTo va 3 = pathTo (page base j) 3 at hpath
      rw [hpath, ht, Option.map_some, Option.some.injEq]
      show (r.state.pteStore t _ 0).mem t _ = 0
      rw [State.pteStore_apply, hindex, if_pos ⟨rfl, rfl⟩]
  · intro va hcan hge
    have hout : ¬ pathTo va (4 - 0) = pathTo (page base j) (4 - 0) := by
      intro hno
      have hin := (hdist va).mp ((pathTo_eq_iff_sub_lt (Nat.zero_le 2) hcanon hcan haligned).mp hno)
      omega
    have hstore := hsep'.translation_pteStore (Nat.zero_le 3) ht (pteChild_zero 0) va
    rw [if_neg hout] at hstore
    have hbefore : j * 4096 ≤ (va - base).toNat :=
      Nat.le_trans (Nat.mul_le_mul_right 4096 (Nat.le_succ j)) hge
    exact hstore.trans (h.others va hcan hbefore)
  · have hframe : s₀.frameOf p (page base j) = ptePaddr pte := by
      rw [State.frameOf, hmapped]
      rfl
    rw [List.range_succ, List.map_append, ← h.frees, List.map_singleton, hframe,
      List.append_assoc]
    show freedFrames (r.log ++ [.unmap (page base j)]) ++ (r.batch ++ [ptePaddr pte]) = _
    have hnone : freedFrames [.unmap (page base j)] = [] := rfl
    rw [freedFrames_append, hnone, List.append_nil]
  · intro i hi
    rcases Nat.lt_succ_iff_lt_or_eq.mp hi with hlt | rfl
    · exact List.mem_append_left _ (h.unmapped i hlt)
    · exact List.mem_append_right _ List.mem_cons_self
  · exact h.ordered.unmap _

theorem releasePages (hsep : s.Separate p) (hbase : base.toNat % 4096 = 0) {n : ℕ}
    (hn : n * 4096 < 2 ^ 64) (hcanon : ∀ i, i < n → Canonical (page base i))
    (hmapped : ∀ i, i < n → ∃ pte, s.translation p (page base i) = some (pte, 0)) (hj : j ≤ n) :
    ∃ r, ((List.range j).map (fun k => k * 4096)).foldlM (releasePage kernel p base) ⟨s, [], []⟩
        = some r ∧ Releasing p base s j r ∧ r.batch.length = j % freeBatch := by
  induction j with
  | zero =>
    refine ⟨⟨s, [], []⟩, rfl, ⟨fun _ => rfl, ?_, fun _ _ _ => rfl, rfl, ?_, ?_⟩, rfl⟩
    · intro va _ hno
      exact absurd hno (by omega)
    · intro i hno
      exact absurd hno (Nat.not_lt_zero i)
    · intro before pa after hno
      have hlen := congrArg List.length hno
      simp at hlen
  | succ j ih =>
    obtain ⟨r, hr, hinv, hcount⟩ := ih (Nat.le_of_succ_le hj)
    obtain ⟨pte, hpte⟩ := hmapped j hj
    have hsize : (j + 1) * 4096 < 2 ^ 64 :=
      Nat.lt_of_le_of_lt (Nat.mul_le_mul_right 4096 hj) hn
    obtain ⟨u, hu, hinv'⟩ := @Releasing.collect _ _ kernel _ _ _ _ _ hinv hsep hbase hsize
      (hcanon j hj) pte hpte
    have hpage : base + BitVec.ofNat 64 (j * 4096) = page base j := rfl
    rw [List.range_succ, List.map_append, List.foldlM_append, hr]
    show ∃ r', (List.foldlM (releasePage kernel p base) r [j * 4096]) = some r' ∧ _
    rw [List.foldlM_cons, releasePage, hpage, hu, Option.map_some]
    have hlen : (r.batch ++ [u.2]).length = j % freeBatch + 1 := by
      rw [List.length_append, hcount]
      rfl
    rw [hlen]
    by_cases hfull : j % freeBatch + 1 = freeBatch
    · rw [if_pos hfull]
      have hbatch : (r.collect (page base j) u).batch.length = freeBatch := hlen.trans hfull
      have hfirst : page base j - BitVec.ofNat 64 ((freeBatch - 1) * 4096) =
          page base (j + 1 - freeBatch) := by
        have hmod : freeBatch - 1 ≤ j := by
          have hle := Nat.mod_le j freeBatch
          omega
        have hsum : j * 4096 = (j + 1 - freeBatch) * 4096 + (freeBatch - 1) * 4096 := by
          rw [← Nat.add_mul]
          congr 1
          rw [freeBatch] at hmod ⊢
          omega
        rw [page, page, hsum, BitVec.ofNat_add, ← BitVec.add_assoc, BitVec.add_sub_cancel]
      refine ⟨_, rfl, hinv'.flush hsize ?_ ?_, ?_⟩
      · rw [hbatch, hfirst]
      · rw [hbatch]
        rfl
      · show 0 = (j + 1) % freeBatch
        rw [freeBatch] at hfull ⊢
        omega
    · rw [if_neg hfull]
      refine ⟨_, rfl, hinv', ?_⟩
      refine hlen.trans ?_
      have hlt := Nat.mod_lt j (show 0 < freeBatch by decide)
      rw [freeBatch] at hfull hlt ⊢
      omega

end

/-! ## Every page is shot down before its frame is freed -/

/-- **Unmapping a range and freeing its frames.**  If every page of the range is mapped by an entry
of level 0, the call returns, their entries are cleared and no other address is translated in
another way; the frames are freed once for each page, and none before its page was unmapped and
shot down. -/
theorem pmapUnmapRangeAndFree_exact {P : Type} [DecidableEq P] {p : P} {s : State P}
    {base : Vaddr} {length : BitVec 64} (kernel : P) (hsep : s.Separate p)
    (hbase : base.toNat % 4096 = 0) (hlength : length.toNat % 4096 = 0)
    (hcanon : ∀ va, (va - base).toNat < length.toNat → Canonical va)
    (hmapped : ∀ i, i < length.toNat / 4096 →
      ∃ pte, s.translation p (page base i) = some (pte, 0)) :
    ∃ r, pmapUnmapRangeAndFree kernel p base length 0 s = some r ∧
      (∀ va, (va - base).toNat < length.toNat → r.state.entry p va 0 = some 0) ∧
      (∀ va, Canonical va → length.toNat ≤ (va - base).toNat →
        r.state.translation p va = s.translation p va) ∧
      freedFrames r.log = (List.range (length.toNat / 4096)).map
        (fun i => s.frameOf p (page base i)) ∧
      ShotDownFirst base r.log := by
  have hlt := length.isLt
  have hn : length.toNat / 4096 * 4096 = length.toNat := by omega
  have hpages : ∀ i, i < length.toNat / 4096 → Canonical (page base i) := by
    intro i hi
    apply hcanon
    rw [page, BitVec.add_comm, BitVec.add_sub_cancel, BitVec.toNat_ofNat]
    omega
  have hoffs : offsets length 0 =
      some ((List.range (length.toNat / 4096)).map (fun k => k * 4096)) := by
    have hpgsz : pgsz 0 = some 4096 := rfl
    have hround : (length.toNat + 4096 - 1) / 4096 = length.toNat / 4096 := by omega
    rw [offsets, hpgsz, Option.bind_some, hround, if_pos (by omega)]
  obtain ⟨r, hr, hinv, hcount⟩ := @releasePages _ _ kernel _ _ _ (length.toNat / 4096) hsep hbase
    (length.toNat / 4096) (by omega) hpages hmapped (Nat.le_refl _)
  have hfinish : Releasing p base s (length.toNat / 4096) (r.finish base length) ∧
      (r.finish base length).batch = [] := by
    rw [Release.finish]
    by_cases hleft : 0 < r.batch.length
    · rw [if_pos hleft]
      have hle : r.batch.length ≤ length.toNat / 4096 := by
        rw [hcount]
        exact Nat.mod_le _ _
      refine ⟨hinv.flush (by omega) ?_ ?_, rfl⟩
      · have hsum : length = BitVec.ofNat 64 ((length.toNat / 4096 - r.batch.length) * 4096) +
            BitVec.ofNat 64 (r.batch.length * 4096) := by
          rw [← BitVec.ofNat_add, ← Nat.add_mul, Nat.sub_add_cancel hle, hn, BitVec.ofNat_toNat,
            BitVec.setWidth_eq]
        rw [page]
        conv_lhs => rw [hsum, ← BitVec.add_assoc, BitVec.add_sub_cancel]
      · rw [BitVec.toNat_ofNat]
        omega
    · rw [if_neg hleft]
      exact ⟨hinv, List.eq_nil_of_length_eq_zero (Nat.eq_zero_of_not_pos hleft)⟩
  obtain ⟨hdone, hbatch⟩ := hfinish
  refine ⟨r.finish base length, ?_, ?_, ?_, ?_, hdone.ordered⟩
  · rw [pmapUnmapRangeAndFree, if_neg (fun hno => hno rfl), hoffs, Option.bind_some, hr,
      Option.map_some]
  · intro va hin
    exact hdone.cleared va (hcanon va hin) (by omega)
  · intro va hcan hge
    exact hdone.others va hcan (by omega)
  · rw [← hdone.frees, hbatch, List.append_nil]

/-- Two pages are mapped, and their range is unmapped and freed. -/
theorem pmapUnmapRangeAndFree_exact_two : ∃ s₁ s₂ r,
    pmapMap () () 0x400000 0x10000 0 vmRead vmWb unmapped = some s₁ ∧
      pmapMap () () 0x401000 0x20000 0 vmRead vmWb s₁ = some s₂ ∧
      pmapUnmapRangeAndFree () () 0x400000 0x2000 0 s₂ = some r ∧
      r.state.entry () 0x400000 0 = some 0 ∧ freedFrames r.log = [0x10000, 0x20000] ∧
      ShotDownFirst 0x400000 r.log := by
  obtain ⟨s₁, hmap₁, h₁⟩ := @pmapMap_maps Unit _ () () unmapped 0x400000 0 3 vmRead 0x10000 vmWb
    unmapped_labelled (by decide) (by decide) rfl ⟨by decide, unmapped_fresh, by decide⟩
  have hnone : s₁.translation () 0x401000 = none := by
    rw [h₁.translation, if_neg (by decide)]
    rfl
  obtain ⟨s₂, hmap₂, h₂⟩ := @pmapMap_maps Unit _ () () s₁ 0x401000 0 0 vmRead 0x20000 vmWb
    h₁.labelled (by decide) (by decide) hnone h₁.supplied
  have hfirst : s₂.translation () (page 0x400000 0) =
      some (pteMake 0 0x10000 vmRead vmWb, 0) := by
    rw [h₂.translation, if_neg (by decide), h₁.translation, if_pos (by decide)]
  have hsecond : s₂.translation () (page 0x400000 1) =
      some (pteMake 0 0x20000 vmRead vmWb, 0) := by
    rw [h₂.translation, if_pos (by decide)]
  have hlen : (0x2000 : BitVec 64).toNat = 0x2000 := rfl
  have hbase : (0x400000 : BitVec 64).toNat = 0x400000 := rfl
  have hcanon : ∀ va : Vaddr, (va - 0x400000).toNat < (0x2000 : BitVec 64).toNat →
      Canonical va := by
    intro va hva
    have hlt := va.isLt
    rw [BitVec.toNat_sub, hbase, hlen] at hva
    rw [Canonical]
    omega
  have hmapped : ∀ i, i < (0x2000 : BitVec 64).toNat / 4096 →
      ∃ pte, s₂.translation () (page 0x400000 i) = some (pte, 0) := by
    intro i hi
    rw [hlen] at hi
    obtain rfl | rfl : i = 0 ∨ i = 1 := by omega
    · exact ⟨_, hfirst⟩
    · exact ⟨_, hsecond⟩
  obtain ⟨r, hr, hcleared, _, hfreed, hordered⟩ := pmapUnmapRangeAndFree_exact ()
    h₂.labelled.separate (by decide) (by decide) hcanon hmapped
  refine ⟨s₁, s₂, r, hmap₁, hmap₂, hr, hcleared 0x400000 (by decide), ?_, hordered⟩
  have htwo : List.range ((0x2000 : BitVec 64).toNat / 4096) = [0, 1] := by decide
  rw [hfreed, htwo, List.map_cons, List.map_singleton, State.frameOf, State.frameOf, hfirst, hsecond]
  decide

end Pmap
