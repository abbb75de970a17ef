/-
# Duplicating descriptors

`fd_duplicate` under `sys_dup`, `sys_dup2` and `fcntl`, with the variable that the new descriptor is
written to.  The table grows by four, and the search goes on at its old end, wherever that is.
-/
import YakKernel.FileRefs

namespace FileTable

open Prog

variable {P : Type} {p : P} {env : Env} {s s' s'' : Kernel P} {m i fd oldfd : ℤ} {f : ℕ}

/-! ## Free descriptors -/

/-- The first free descriptor from `m` on. -/
structure Process.FirstFree (proc : Process) (m fd : ℤ) : Prop where
  le : m ≤ fd
  free : proc.get fd = none
  first : ∀ d, m ≤ d → d < fd → proc.get d ≠ none

/-- From `m` on no slot of the table is free. -/
def Process.Full (proc : Process) (m : ℤ) : Prop :=
  ∀ d, m ≤ d → d < proc.fdCap → proc.get d ≠ none

theorem Process.FirstFree.not_full {proc : Process} (h : proc.FirstFree m fd)
    (hlt : fd < proc.fdCap) : ¬ proc.Full m :=
  fun hfull => hfull fd h.le hlt h.free

/-- In a full table the first free descriptor is the one after its end, or the one asked for. -/
theorem Process.Full.firstFree {proc : Process} (h : proc.Full m) :
    proc.FirstFree m (max m proc.fdCap) where
  le := le_max_left _ _
  free := proc.get_of_le (le_max_right _ _)
  first := by
    intro d hd hlt
    refine h d hd ?_
    rcases lt_max_iff.mp hlt with hlt | hlt
    · omega
    · exact hlt

theorem findFree_first :
    ∀ (n : ℕ) (i : ℤ), (findFree p n i).Ends env s
      (fun r _ => ∀ j, r = some j → ∀ d, i ≤ d → d < j → (s.procs p).get d ≠ none)
      (fun _ => True) := by
  intro n
  induction n with
  | zero =>
    intro i j hj
    cases hj
  | succ n ih =>
    intro i
    rw [findFree, ends_bind, ends_readSlot]
    refine ⟨fun _ => ?_, fun _ => trivial⟩
    cases hget : (s.procs p).get i with
    | none =>
      intro j hj d hd hlt
      cases hj
      omega
    | some desc =>
      refine (ih (i + 1)).imp ?_
      intro r s' hr j hj d hd hlt
      by_cases hdi : d = i
      · rw [hdi, hget]
        exact Option.some_ne_none desc
      · exact hr j hj d (by omega) hlt

theorem findFreeFrom_first (h0 : 0 ≤ m) :
    (findFreeFrom p m).Ends env s
      (fun r s' => s' = s ∧
        ((∃ i, r = some i ∧ (s.procs p).FirstFree m i ∧ i < (s.procs p).fdCap) ∨
          (r = none ∧ (s.procs p).Full m)))
      (fun _ => False) := by
  have hfirst : (findFreeFrom p m).Ends env s
      (fun r _ => ∀ j, r = some j → ∀ d, m ≤ d → d < j → (s.procs p).get d ≠ none)
      (fun _ => True) := by
    rw [findFreeFrom, ends_bind, ends_getProc]
    exact findFree_first _ m
  refine ((findFreeFrom_ends h0).and hfirst).mono ?_ (fun _ hno => hno.1)
  rintro r s' ⟨⟨rfl, hr⟩, hlow⟩
  refine ⟨rfl, ?_⟩
  cases r with
  | some i => exact Or.inl ⟨i, rfl, ⟨hr.1, hr.2.2, hlow i rfl⟩, hr.2.1⟩
  | none => exact Or.inr ⟨rfl, hr⟩

/-! ## What the searches leave -/

/-- A new descriptor without a file is at `fd`; else only the table may have grown. -/
structure Kernel.Placed (p : P) (fd : ℤ) (s s' : Kernel P) : Prop where
  nonneg : 0 ≤ fd
  lt : fd < (s'.procs p).fdCap
  slot : (s'.procs p).get fd = some ⟨none, false⟩
  slots : ∀ j, 0 ≤ j → j ≠ fd → (s'.procs p).get j = (s.procs p).get j
  others : ∀ q, q ≠ p → s'.procs q = s.procs q

/-- The table has no descriptor at `fd`, where one should be. -/
structure Kernel.Hole (p : P) (fd : ℤ) (s : Kernel P) : Prop where
  nonneg : 0 ≤ fd
  lt : fd < (s.procs p).fdCap
  slot : (s.procs p).get fd = none

/-- `fd_grow(proc, proc->fd_cap + FD_GROW_BY)` fails. -/
def Kernel.GrowFails (p : P) (s : Kernel P) : Prop :=
  fdLimit < (s.procs p).fdCap + 4 ∨ s.hasMemory = false

/-- What a search from `m` on returns and leaves; `tested` says whether it looks at what `kzalloc`
returned for a free slot. -/
inductive Kernel.Searched (p : P) (tested : Bool) (m : ℤ) (s : Kernel P) :
    Except Status ℤ → Kernel P → Prop
  | found {i : ℤ} {s' : Kernel P} (first : (s.procs p).FirstFree m i) (lt : i < (s.procs p).fdCap)
      (memory : s.hasMemory = true) (placed : s.Placed p i s') : Searched p tested m s (.ok i) s'
  | refused {i : ℤ} {s' : Kernel P} (test : tested = true) (first : (s.procs p).FirstFree m i)
      (lt : i < (s.procs p).fdCap) (memory : s.hasMemory = false) :
      Searched p tested m s (.error .oom) s'
  | missing {i : ℤ} {s' : Kernel P} (test : tested = false) (first : (s.procs p).FirstFree m i)
      (lt : i < (s.procs p).fdCap) (memory : s.hasMemory = false) (hole : s'.Hole p i) :
      Searched p tested m s (.ok i) s'
  | stuck {e : Status} {s' : Kernel P} (full : (s.procs p).Full m) (fails : s.GrowFails p) :
      Searched p tested m s (.error e) s'
  | grown {s' : Kernel P} (full : (s.procs p).Full m) (grows : ¬ s.GrowFails p)
      (memory : s.answered.hasMemory = true) (placed : s.Placed p (s.procs p).fdCap s') :
      Searched p tested m s (.ok (s.procs p).fdCap) s'
  | unfilled {s' : Kernel P} (full : (s.procs p).Full m) (grows : ¬ s.GrowFails p)
      (memory : s.answered.hasMemory = false) (hole : s'.Hole p (s.procs p).fdCap) :
      Searched p tested m s (.ok (s.procs p).fdCap) s'

theorem Kernel.Grown.placed (h : s.Grown p none s') (h' : s'.Placed p fd s'') :
    s.Placed p fd s'' where
  nonneg := h'.nonneg
  lt := h'.lt
  slot := h'.slot
  slots := fun j hj hne => (h'.slots j hj hne).trans (h.slots j hj (Option.some_ne_none j))
  others := fun q hq => (h'.others q hq).trans (h.others q hq)

variable [DecidableEq P]

theorem newSlot_placed (h0 : 0 ≤ i) (hi : i < (s.procs p).fdCap) :
    (newSlot p i).Ends env s
      (fun ok s' => ok = s.hasMemory ∧ (ok = true → s.Placed p i s') ∧
        (ok = false → s'.Hole p i))
      (fun _ => False) := by
  refine (newSlot_ends h0 hi).imp ?_
  rintro ok s' ⟨hok, hg, hlt, hslot⟩
  refine ⟨hok, ?_, ?_⟩
  · rintro rfl
    exact ⟨h0, hlt, hslot, fun j hj hne => hg.slots j hj (fun h => hne (Option.some.inj h)),
      hg.others⟩
  · rintro rfl
    exact ⟨h0, hlt, hslot⟩

theorem growByFour_outcome :
    (growByFour p).Ends env s
      (fun rv s' => (rv.isErr = true ∧ s.GrowFails p) ∨
        (rv = .success ∧ ¬ s.GrowFails p ∧ s.Grown p none s' ∧
          (s'.procs p).fdCap = (s.procs p).fdCap + 4 ∧ s'.hasMemory = s.answered.hasMemory))
      (fun _ => False) := by
  have hle := (s.procs p).fdCap_le
  have h0 := (s.procs p).fdCap_nonneg
  rw [growByFour, ends_bind, ends_getProc, ends_bind, ends_addInt]
  refine ⟨fun _ => ?_, fun h => ?_⟩
  · rw [fdGrow, ends_bind, ends_getProc, ends_ite, fdGrowBy]
    refine ⟨fun h => by omega, fun _ => ?_⟩
    by_cases hlimit : ((s.procs p).fdCap + 4).toNat ≤ fdLimit
    · rw [dif_pos hlimit, ends_bind, ends_kzalloc, ends_ite, ends_bind, ends_change, ends_pure,
        ends_pure]
      refine ⟨fun hm => Or.inr ⟨rfl, ?_, Kernel.grown_grow p s _ hlimit, ?_, rfl⟩,
        fun hm => Or.inl ⟨rfl, Or.inr (Bool.eq_false_iff.mpr hm)⟩⟩
      · rintro (hfull | hno)
        · omega
        · rw [hm] at hno
          cases hno
      · rw [Kernel.setProc_procs, Function.update_self, Process.fdCap_grow]
        omega
    · rw [dif_neg hlimit]
      refine Or.inl ⟨rfl, Or.inl ?_⟩
      omega
  · rw [intMax_eq, fdGrowBy] at h
    omega

theorem newSlot_grown {tested : Bool} (hfull : (s.procs p).Full m) (hgrows : ¬ s.GrowFails p)
    (hg : s.Grown p none s') (hcap : (s'.procs p).fdCap = (s.procs p).fdCap + 4)
    (hmem : s'.hasMemory = s.answered.hasMemory) :
    (newSlot p (s.procs p).fdCap).Ends env s'
      (fun _ s'' => s.Searched p tested m (.ok (s.procs p).fdCap) s'') (fun _ => False) := by
  refine (newSlot_placed (s.procs p).fdCap_nonneg (by omega)).imp ?_
  rintro ok s'' ⟨hok, hplaced, hhole⟩
  rw [hmem] at hok
  cases ok with
  | true => exact .grown hfull hgrows hok.symm (hg.placed (hplaced rfl))
  | false => exact .unfilled hfull hgrows hok.symm (hhole rfl)

/-- **`fd_allocate_next`.** -/
theorem fdAllocateNext_searched :
    (fdAllocateNext p).Ends env s (fun r s' => s.Searched p true 0 r s') (fun _ => False) := by
  rw [fdAllocateNext, ends_bind]
  refine (findFreeFrom_first (le_refl 0)).imp ?_
  rintro r s₁ ⟨rfl, ⟨i, rfl, hfirst, hlt⟩ | ⟨rfl, hfull⟩⟩
  · simp only [ends_bind]
    refine (newSlot_placed hfirst.le hlt).imp ?_
    rintro ok s' ⟨hok, hplaced, _⟩
    rw [ends_ite, ends_pure, ends_pure]
    refine ⟨fun h => ?_, fun h => ?_⟩
    · exact .found hfirst hlt (hok.symm.trans h) (hplaced h)
    · exact .refused rfl hfirst hlt (hok.symm.trans (Bool.eq_false_iff.mpr h))
  · simp only [ends_bind]
    refine growByFour_outcome.imp ?_
    rintro rv s₂ (⟨herr, hfails⟩ | ⟨rfl, hgrows, hg, hcap, hmem⟩)
    · rw [ends_ite, ends_pure]
      exact ⟨fun _ => .stuck hfull hfails, fun h => absurd herr h⟩
    · rw [ends_ite]
      refine ⟨fun herr => absurd herr Bool.false_ne_true, fun _ => ?_⟩
      have hstart : (s₂.procs p).fdCap - fdGrowBy = (s₁.procs p).fdCap := by
        rw [hcap, fdGrowBy]
        omega
      simp only [ends_bind, ends_getProc, ends_pure, hstart]
      exact newSlot_grown hfull hgrows hg hcap hmem

/-- **`fd_allocate_min`**: a table that is full from the minimum on gets four new slots, of which
the first is taken, whether or not it is above the minimum. -/
theorem fdAllocateMin_searched (h0 : 0 ≤ m) :
    (fdAllocateMin p m).Ends env s (fun r s' => s.Searched p false m r s') (fun _ => False) := by
  rw [fdAllocateMin, Prog.loop, ends_bind, allocateMinRound, ends_bind]
  refine (findFreeFrom_first h0).imp ?_
  rintro r s₁ ⟨rfl, ⟨i, rfl, hfirst, hlt⟩ | ⟨rfl, hfull⟩⟩
  · simp only [ends_bind, ends_pure]
    refine (newSlot_placed (h0.trans hfirst.le) hlt).imp ?_
    rintro ok s' ⟨hok, hplaced, hhole⟩
    cases ok with
    | true => exact .found hfirst hlt hok.symm (hplaced rfl)
    | false => exact .missing rfl hfirst hlt hok.symm (hhole rfl)
  · simp only [ends_bind]
    refine growByFour_outcome.imp ?_
    rintro rv s₂ (⟨herr, hfails⟩ | ⟨rfl, hgrows, hg, hcap, hmem⟩)
    · rw [ends_ite, ends_pure]
      exact ⟨fun _ => .stuck hfull hfails, fun h => absurd herr h⟩
    · rw [ends_ite]
      refine ⟨fun herr => absurd herr Bool.false_ne_true, fun _ => ?_⟩
      have hstart : (s₂.procs p).fdCap - fdGrowBy = (s₁.procs p).fdCap := by
        rw [hcap, fdGrowBy]
        omega
      simp only [ends_bind, ends_getProc, ends_pure, hstart]
      -- the second round
      have hnone : (s₂.procs p).get (s₁.procs p).fdCap = none := by
        rw [hg.slots _ (s₁.procs p).fdCap_nonneg (Option.some_ne_none _)]
        exact Process.get_of_le _ (le_refl _)
      rw [Prog.loop, ends_bind, allocateMinRound, ends_bind]
      refine (findFreeFrom_first (s₁.procs p).fdCap_nonneg).imp ?_
      rintro r s₃ ⟨rfl, ⟨i, rfl, hfirst, _⟩ | ⟨rfl, hno⟩⟩
      · have hi : i = (s₁.procs p).fdCap := by
          by_contra hne
          exact hfirst.first _ (le_refl _) (lt_of_le_of_ne hfirst.le (Ne.symm hne)) hnone
        simp only [ends_bind, ends_pure, hi]
        exact newSlot_grown hfull hgrows hg hcap hmem
      · exact absurd hnone (hno _ (le_refl _) (by omega))

/-! ## A descriptor of one's choice -/

theorem Kernel.procs_cleared_of_ne (s : Kernel P) (fd : ℤ) {q : P} (hq : q ≠ p) :
    (s.cleared p fd).procs q = s.procs q := by
  cases h : (s.procs p).get fd with
  | none => rw [Kernel.cleared_of_none h]
  | some desc =>
    rw [Kernel.cleared_of_some h, Kernel.setProc_procs, Function.update_of_ne hq,
      Kernel.drop_procs]

theorem takeSlot_placed (h0 : 0 ≤ fd) (hlt : fd < (s.procs p).fdCap) :
    (takeSlot p fd).Ends env s
      (fun r s' => ∀ fd', r = .ok fd' → fd' = fd ∧ s.Placed p fd s') (fun _ => False) := by
  have hcap := Kernel.fdCap_cleared (s := s) (p := p) fd
  rw [takeSlot, ends_bind]
  refine (closeOld_ends h0 hlt).imp ?_
  rintro _ s₁ rfl
  rw [ends_bind, ends_readSlot, hcap, Kernel.get_cleared h0 hlt]
  refine ⟨fun _ => ?_, fun h => h ⟨h0, hlt⟩⟩
  rw [ends_bind, ends_check]
  refine ⟨fun _ => ?_, fun h => h rfl⟩
  rw [ends_bind]
  refine (newSlot_placed h0 (hcap.symm ▸ hlt)).imp ?_
  rintro ok s' ⟨_, hplaced, _⟩
  rw [ends_ite, ends_pure, ends_pure]
  refine ⟨fun hok fd' hfd => ?_, fun _ fd' hfd => ?_⟩
  · cases hfd
    have hp := hplaced hok
    refine ⟨rfl, h0, hp.lt, hp.slot, ?_, ?_⟩
    · intro j hj hne
      rw [hp.slots j hj hne, Kernel.get_cleared_of_ne h0 hlt hj hne]
    · intro q hq
      rw [hp.others q hq, Kernel.procs_cleared_of_ne s fd hq]
  · cases hfd

/-- **`fd_allocate_at`** returns the descriptor that it was asked for, or fails. -/
theorem fdAllocateAt_placed (h0 : 0 ≤ fd) (hmax : fd + 4 ≤ intMax) :
    (fdAllocateAt p fd).Ends env s
      (fun r s' => ∀ fd', r = .ok fd' → fd' = fd ∧ s.Placed p fd s') (fun _ => False) := by
  have herror : ∀ (e : Status) (s' : Kernel P) (fd' : ℤ),
      (.error e : Except Status ℤ) = .ok fd' → fd' = fd ∧ s.Placed p fd s' := by
    intro e s' fd' hfd
    cases hfd
  rw [fdAllocateAt, ends_bind, ends_getProc, ends_ite]
  refine ⟨fun hcap => ?_, fun hcap => takeSlot_placed h0 (by omega)⟩
  rw [ends_bind, ends_addInt]
  refine ⟨fun _ => ?_, fun h => h hmax⟩
  rw [ends_bind]
  apply ends_fdGrow
  · intro h
    rw [fdGrowBy] at h
    omega
  · intro h _ _
    have hg := Kernel.grown_grow p s (fd + fdGrowBy).toNat h
    rw [ends_ite]
    refine ⟨fun herr => absurd herr Bool.false_ne_true, fun _ => ?_⟩
    refine (takeSlot_placed h0 ?_).imp ?_
    · rw [Kernel.setProc_procs, Function.update_self, Process.fdCap_grow, fdGrowBy]
      omega
    · intro r s' hr fd' hfd
      obtain ⟨rfl, hp⟩ := hr fd' hfd
      exact ⟨rfl, hg.placed hp⟩
  · intro _
    rw [ends_ite, ends_pure]
    exact ⟨fun _ => herror _ _, fun h => absurd rfl h⟩
  · rw [ends_ite, ends_pure]
    exact ⟨fun _ => herror _ _, fun h => absurd rfl h⟩

/-! ## The requests -/

/-- `fd_duplicate`, with what `*outfd` holds before and afterwards; `none` is a variable that was
not initialised. -/
def fdDuplicateOut (p : P) (oldfd newfd : ℤ) (flags : DupeFlags) (out : Option ℤ) :
    FdM P (Except Status (Option ℤ)) := do
  match ← fdSafeGet p oldfd with
  | none => pure (.error .badf)
  | some src =>
    if flags.minimum = false ∧ oldfd = newfd then pure (.ok out)
    else
      match ← allocateFor p newfd flags with
      | .error rv => pure (.error rv)
      | .ok fd =>
        fdAssign p fd src flags
        pure (.ok (some fd))

/-- What is asked for: a descriptor from a minimum on, below the limit; the lowest one, as by
`sys_dup`; or a certain one, as by `sys_dup2`. -/
inductive Request where
  | atLeast (minimum : ℤ) (nonneg : 0 ≤ minimum) (lt : minimum < fdLimit)
      (noCloexec cloexec : Bool)
  | dup
  | dup2 (newfd : CInt)

/-- The argument `newfd`. -/
def Request.newfd : Request → ℤ
  | .atLeast minimum _ _ _ _ => minimum
  | .dup => -1
  | .dup2 newfd => newfd.val

/-- The argument `flags`. -/
def Request.flags : Request → DupeFlags
  | .atLeast _ _ _ noCloexec cloexec => ⟨noCloexec, cloexec, true⟩
  | .dup => ⟨true, false, false⟩
  | .dup2 _ => ⟨true, false, false⟩

/-- The right number. -/
def Request.Right (proc : Process) (fd : ℤ) : Request → Prop
  | .atLeast minimum _ _ _ _ => proc.FirstFree minimum fd
  | .dup => proc.FirstFree 0 fd
  | .dup2 newfd => fd = newfd.val

/-- The descriptor `fd` is of the file `f`, the others are as they were. -/
structure Kernel.Duplicated (p : P) (fd : ℤ) (f : ℕ) (s s' : Kernel P) : Prop where
  file : ∃ cloexec, (s'.procs p).get fd = some ⟨some f, cloexec⟩
  slots : ∀ j, 0 ≤ j → j ≠ fd → (s'.procs p).get j = (s.procs p).get j
  others : ∀ q, q ≠ p → s'.procs q = s.procs q

/-- The request returns, and if it succeeds then `*outfd` is set to the right number, which is now
a descriptor of the file. -/
def Request.Duplicates (rq : Request) (p : P) (oldfd : ℤ) (f : ℕ) (out : Option ℤ) (env : Env)
    (s : Kernel P) : Prop :=
  (fdDuplicateOut p oldfd rq.newfd rq.flags out).Ends env s
    (fun r s' => ∀ out', r = .ok out' →
      ∃ fd, out' = some fd ∧ rq.Right (s.procs p) fd ∧ s.Duplicated p fd f s')
    (fun _ => False)

/-- When it does.  A search needs a free slot from the minimum on, or the minimum must not be
above the table that grows; there has to be memory for the descriptor, where that is not tested.
`dup2` needs a descriptor that is not negative and does not overflow, and `*outfd` already set if
it is the old one. -/
def Request.Fits (p : P) (oldfd : ℤ) (out : Option ℤ) (s : Kernel P) : Request → Prop
  | .atLeast minimum _ _ _ _ =>
    (¬ (s.procs p).Full minimum ∧ s.hasMemory = true) ∨
      ((s.procs p).Full minimum ∧ (s.GrowFails p ∨
        (minimum ≤ (s.procs p).fdCap ∧ s.answered.hasMemory = true)))
  | .dup =>
    (s.procs p).Full 0 → s.GrowFails p ∨ s.answered.hasMemory = true
  | .dup2 newfd =>
    if oldfd = newfd.val then out = some newfd.val
    else (0 ≤ newfd.val ∧ newfd.val + 4 ≤ intMax) ∨
      (newfd.val = -1 ∧ (((s.procs p).Full 0 ∧ s.GrowFails p) ∨
        (¬ (s.procs p).Full 0 ∧ s.hasMemory = false)))

/-! ## Filling the descriptor -/

theorem fdAssign_placed (hp : s.Placed p fd s') (cloexec : Bool) (flags : DupeFlags) :
    (fdAssign p fd ⟨some f, cloexec⟩ flags).Ends env s' (fun _ s'' => s.Duplicated p fd f s'')
      (fun _ => False) := by
  refine (fdAssign_ends hp.nonneg hp.lt ⟨some f, cloexec⟩ flags).mono ?_ ?_
  · rintro _ s'' ⟨f', hf, _, rfl⟩
    cases hf
    have hset := Kernel.grown_set s' hp.nonneg hp.lt (some ⟨some f, flags.apply cloexec⟩)
    refine ⟨⟨flags.apply cloexec, ?_⟩, ?_, ?_⟩
    · rw [Kernel.ref_procs, Kernel.setProc_procs, Function.update_self,
        Process.get_set _ hp.nonneg hp.lt hp.nonneg, if_pos rfl]
    · intro j hj hne
      rw [Kernel.ref_procs, hset.slots j hj (fun h => hne (Option.some.inj h)),
        hp.slots j hj hne]
    · intro q hq
      rw [Kernel.ref_procs, hset.others q hq, hp.others q hq]
  · rintro e ⟨_, hno | hno⟩
    · rw [hp.slot] at hno
      cases hno
    · cases hno

theorem fdAssign_hole (hh : s.Hole p fd) (src : Fd) (flags : DupeFlags)
    {Q : Unit → Kernel P → Prop} :
    ¬ (fdAssign p fd src flags).Ends env s Q (fun _ => False) := by
  intro h
  rw [fdAssign, ends_bind, ends_readSlot, hh.slot] at h
  exact h.1 ⟨hh.nonneg, hh.lt⟩

theorem Request.duplicates_iff {rq : Request} {cloexec : Bool} {out : Option ℤ} (h0 : 0 ≤ oldfd)
    (hget : (s.procs p).get oldfd = some ⟨some f, cloexec⟩)
    (hne : ¬ (rq.flags.minimum = false ∧ oldfd = rq.newfd)) :
    rq.Duplicates p oldfd f out env s ↔
      (allocateFor p rq.newfd rq.flags).Ends env s
        (fun r s' => ∀ fd, r = .ok fd →
          (fdAssign p fd ⟨some f, cloexec⟩ rq.flags).Ends env s'
            (fun _ s'' => rq.Right (s.procs p) fd ∧ s.Duplicated p fd f s'') (fun _ => False))
        (fun _ => False) := by
  have hopen := Process.Opened.of_get h0 hget
  have hlook : (fdSafeGet p oldfd).Ends env s
      (fun src s' => src = some ⟨some f, cloexec⟩ ∧ s' = s) (fun _ => False) := by
    rw [ends_lookup]
    refine ⟨fun hno => hno (Or.inr h0), fun _ hno => absurd hopen hno, ?_⟩
    intro desc _ hdesc
    exact ⟨hdesc.symm.trans hget, rfl⟩
  obtain ⟨_, s₁, hrun, rfl, rfl⟩ := hlook.exists_ok
  rw [Request.Duplicates, fdDuplicateOut, ends_bind, ends_of_ok hrun]
  dsimp only
  rw [if_neg hne, ends_bind]
  refine iff_of_eq (congrArg (fun Q' => (allocateFor p rq.newfd rq.flags).Ends env s₁ Q' _) ?_)
  funext r s₂
  refine propext ?_
  cases r with
  | error rv =>
    refine iff_of_true ?_ ?_
    · intro out' hout
      cases hout
    · intro fd hfd
      cases hfd
  | ok fd =>
    dsimp only
    rw [ends_bind]
    constructor
    · intro h fd' hfd
      cases hfd
      refine h.imp ?_
      intro _ s₃ hs₃
      obtain ⟨fd', hfd, hright, hdup⟩ := hs₃ (some fd) rfl
      cases hfd
      exact ⟨hright, hdup⟩
    · intro h
      refine (h fd rfl).imp ?_
      intro _ s₃ hs₃ out' hout
      cases hout
      exact ⟨fd, rfl, hs₃⟩

theorem Kernel.Searched.right_iff {tested cloexec : Bool} {flags : DupeFlags}
    {r : Except Status ℤ} (h : s.Searched p tested m r s') :
    (∀ fd, r = .ok fd → (fdAssign p fd ⟨some f, cloexec⟩ flags).Ends env s'
        (fun _ s'' => (s.procs p).FirstFree m fd ∧ s.Duplicated p fd f s'') (fun _ => False)) ↔
      ((¬ (s.procs p).Full m ∧ (s.hasMemory = true ∨ tested = true)) ∨
        ((s.procs p).Full m ∧ (s.GrowFails p ∨
          (m ≤ (s.procs p).fdCap ∧ s.answered.hasMemory = true)))) := by
  have hplaced : ∀ fd, (s.procs p).FirstFree m fd → s.Placed p fd s' →
      (fdAssign p fd ⟨some f, cloexec⟩ flags).Ends env s'
        (fun _ s'' => (s.procs p).FirstFree m fd ∧ s.Duplicated p fd f s'') (fun _ => False) :=
    fun fd hfirst hp => (fdAssign_placed hp cloexec flags).imp (fun _ _ hdup => ⟨hfirst, hdup⟩)
  cases h with
  | found first lt memory placed =>
    refine iff_of_true ?_ (Or.inl ⟨first.not_full lt, Or.inl memory⟩)
    intro fd hfd
    cases hfd
    exact hplaced _ first placed
  | refused test first lt memory =>
    refine iff_of_true ?_ (Or.inl ⟨first.not_full lt, Or.inr test⟩)
    intro fd hfd
    cases hfd
  | missing test first lt memory hole =>
    refine iff_of_false (fun h => fdAssign_hole hole _ _ (h _ rfl)) ?_
    rintro (⟨_, hm | ht⟩ | ⟨hfull, _⟩)
    · rw [memory] at hm
      cases hm
    · rw [test] at ht
      cases ht
    · exact first.not_full lt hfull
  | stuck full fails =>
    refine iff_of_true ?_ (Or.inr ⟨full, Or.inl fails⟩)
    intro fd hfd
    cases hfd
  | grown full grows memory placed =>
    by_cases hle : m ≤ (s.procs p).fdCap
    · refine iff_of_true ?_ (Or.inr ⟨full, Or.inr ⟨hle, memory⟩⟩)
      intro fd hfd
      cases hfd
      have hfirst := full.firstFree
      rw [max_eq_right hle] at hfirst
      exact hplaced _ hfirst placed
    · refine iff_of_false ?_ ?_
      · intro h
        obtain ⟨_, _, _, hfirst, _⟩ := (h _ rfl).exists_ok
        exact hle hfirst.le
      · rintro (⟨hno, _⟩ | ⟨_, hfails | ⟨hle', _⟩⟩)
        · exact hno full
        · exact grows hfails
        · exact hle hle'
  | unfilled full grows memory hole =>
    refine iff_of_false (fun h => fdAssign_hole hole _ _ (h _ rfl)) ?_
    rintro (⟨hno, _⟩ | ⟨_, hfails | ⟨_, hm⟩⟩)
    · exact hno full
    · exact grows hfails
    · rw [memory] at hm
      cases hm

omit [DecidableEq P] in
theorem Kernel.Searched.nonneg {tested : Bool} {r : Except Status ℤ}
    (h : s.Searched p tested m r s') (hr : r = .ok fd) : 0 ≤ fd := by
  cases h with
  | found first lt memory placed =>
    cases hr
    exact placed.nonneg
  | refused test first lt memory => cases hr
  | missing test first lt memory hole =>
    cases hr
    exact hole.nonneg
  | stuck full fails => cases hr
  | grown full grows memory placed =>
    cases hr
    exact placed.nonneg
  | unfilled full grows memory hole =>
    cases hr
    exact hole.nonneg

omit [DecidableEq P] in
theorem Kernel.Searched.error_iff {r : Except Status ℤ} (h : s.Searched p true m r s') :
    (∀ fd, r ≠ .ok fd) ↔
      ((s.procs p).Full m ∧ s.GrowFails p) ∨ (¬ (s.procs p).Full m ∧ s.hasMemory = false) := by
  cases h with
  | found first lt memory placed =>
    refine iff_of_false (fun h => h _ rfl) ?_
    rintro (⟨hfull, _⟩ | ⟨_, hno⟩)
    · exact first.not_full lt hfull
    · rw [memory] at hno
      cases hno
  | refused test first lt memory =>
    refine iff_of_true ?_ (Or.inr ⟨first.not_full lt, memory⟩)
    intro fd hfd
    cases hfd
  | missing test first lt memory hole => cases test
  | stuck full fails =>
    refine iff_of_true ?_ (Or.inl ⟨full, fails⟩)
    intro fd hfd
    cases hfd
  | grown full grows memory placed =>
    refine iff_of_false (fun h => h _ rfl) ?_
    rintro (⟨_, hfails⟩ | ⟨hno, _⟩)
    · exact grows hfails
    · exact hno full
  | unfilled full grows memory hole =>
    refine iff_of_false (fun h => h _ rfl) ?_
    rintro (⟨_, hfails⟩ | ⟨hno, _⟩)
    · exact grows hfails
    · exact hno full

/-! ## The right number -/

/-- `dup2` of a descriptor to itself leaves everything, `*outfd` included. -/
theorem Request.duplicates_self {rq : Request} {cloexec : Bool} {out : Option ℤ} (h0 : 0 ≤ oldfd)
    (hget : (s.procs p).get oldfd = some ⟨some f, cloexec⟩)
    (hself : rq.flags.minimum = false ∧ oldfd = rq.newfd) :
    rq.Duplicates p oldfd f out env s ↔
      ∃ fd, out = some fd ∧ rq.Right (s.procs p) fd ∧ s.Duplicated p fd f s := by
  have hopen := Process.Opened.of_get h0 hget
  rw [Request.Duplicates, fdDuplicateOut, ends_bind, ends_lookup]
  constructor
  · intro h
    have hrun := h.2.2 _ hopen hget
    dsimp only at hrun
    rw [if_pos hself] at hrun
    exact hrun out rfl
  · intro h
    refine ⟨fun hno => hno (Or.inr h0), fun _ hno => absurd hopen hno, fun desc _ _ => ?_⟩
    dsimp only
    rw [if_pos hself]
    intro out' hout
    cases hout
    exact h

/-- **Duplicating a descriptor.**  For every table, every open descriptor and every request: it
returns, and on success the right number is in `*outfd`, exactly if it fits. -/
theorem request_duplicates_iff (rq : Request) (p : P) (env : Env) (s : Kernel P) {oldfd : ℤ}
    {f : ℕ} {cloexec : Bool} (out : Option ℤ) (h0 : 0 ≤ oldfd)
    (hget : (s.procs p).get oldfd = some ⟨some f, cloexec⟩) :
    rq.Duplicates p oldfd f out env s ↔ rq.Fits p oldfd out s := by
  cases rq with
  | atLeast minimum nonneg lt noCloexec setCloexec =>
    rw [Request.duplicates_iff h0 hget (fun hno => by cases hno.1)]
    show (allocateFor p minimum ⟨noCloexec, setCloexec, true⟩).Ends _ _ _ _ ↔ _
    rw [allocateFor, if_neg (by omega), if_pos rfl]
    have hends : (fdAllocateMin p minimum).Ends env s (fun r s' => s.Searched p false minimum r s')
        (fun _ => False) := fdAllocateMin_searched nonneg
    obtain ⟨r, s', hrun, hsearch⟩ := hends.exists_ok
    rw [ends_of_ok hrun]
    refine hsearch.right_iff.trans ?_
    rw [or_iff_left (Bool.false_ne_true)]
    exact Iff.rfl
  | dup =>
    rw [Request.duplicates_iff h0 hget (fun hno => by
      have heq : oldfd = -1 := hno.2
      omega)]
    show (allocateFor p (-1) ⟨true, false, false⟩).Ends _ _ _ _ ↔ _
    rw [allocateFor, if_pos rfl]
    have hends : (fdAllocateNext p).Ends env s (fun r s' => s.Searched p true 0 r s')
        (fun _ => False) := fdAllocateNext_searched
    obtain ⟨r, s', hrun, hsearch⟩ := hends.exists_ok
    rw [ends_of_ok hrun]
    refine hsearch.right_iff.trans ?_
    show _ ↔ ((s.procs p).Full 0 → s.GrowFails p ∨ s.answered.hasMemory = true)
    have hcap := (s.procs p).fdCap_nonneg
    tauto
  | dup2 newfd =>
    have hsame : (Request.dup2 newfd).flags.minimum = false ∧ oldfd = (Request.dup2 newfd).newfd ↔
        oldfd = newfd.val := and_iff_right rfl
    show _ ↔ if oldfd = newfd.val then out = some newfd.val else _
    by_cases hself : oldfd = newfd.val
    · rw [if_pos hself, Request.duplicates_self h0 hget (hsame.mpr hself)]
      constructor
      · rintro ⟨fd, hout, hfd, _⟩
        rw [hout, show fd = newfd.val from hfd]
      · intro hout
        refine ⟨newfd.val, hout, rfl, ⟨⟨cloexec, ?_⟩, fun _ _ _ => rfl, fun _ _ => rfl⟩⟩
        rw [← hself]
        exact hget
    · rw [if_neg hself, Request.duplicates_iff h0 hget (fun hno => hself (hsame.mp hno))]
      show (allocateFor p newfd.val ⟨true, false, false⟩).Ends _ _ _ _ ↔ _
      by_cases hnext : newfd.val = -1
      · -- the lowest free descriptor, never -1
        have hends : (fdAllocateNext p).Ends env s (fun r s' => s.Searched p true 0 r s')
            (fun _ => False) := fdAllocateNext_searched
        obtain ⟨r, s', hrun, hsearch⟩ := hends.exists_ok
        rw [allocateFor, if_pos hnext, ends_of_ok hrun, ← hsearch.error_iff]
        constructor
        · intro h
          refine Or.inr ⟨hnext, fun fd hfd => ?_⟩
          obtain ⟨_, _, _, hright, _⟩ := (h fd hfd).exists_ok
          have hnonneg := hsearch.nonneg hfd
          have heq : fd = newfd.val := hright
          omega
        · rintro (⟨hnonneg, _⟩ | ⟨_, hno⟩) fd hfd
          · omega
          · exact absurd hfd (hno fd)
      · by_cases hrange : 0 ≤ newfd.val ∧ newfd.val + 4 ≤ intMax
        · refine iff_of_true ?_ (Or.inl hrange)
          rw [allocateFor, if_neg hnext, if_neg Bool.false_ne_true]
          refine (fdAllocateAt_placed hrange.1 hrange.2).imp ?_
          intro r s' hr fd hfd
          obtain ⟨rfl, hp⟩ := hr fd hfd
          exact (fdAssign_placed hp cloexec _).imp (fun _ _ hdup => ⟨rfl, hdup⟩)
        · refine iff_of_false ?_ ?_
          · intro h
            have hfails : (allocateFor p newfd.val ⟨true, false, false⟩).Ends env s
                (fun _ _ => False) (fun e => e ≠ .crash) := by
              refine allocateFor_fails ?_
              rintro ⟨hle, hmax⟩
              exact hrange ⟨by omega, hmax rfl⟩
            obtain ⟨_, _, _, hno, _⟩ :=
              ((hfails.and h).mono (fun _ _ h => h) (fun _ h => h.2)).exists_ok
            exact hno
          · rintro (hyes | ⟨hyes, _⟩)
            · exact hrange hyes
            · exact hnext hyes

/-- In a table of four slots, one of them taken, `dup` gives the right number, a minimum of 10 does
not. -/
theorem request_duplicates_iff_oneOpen :
    Request.dup.Duplicates () 0 0 none (fun _ => .ok 0) oneOpen ∧
      ¬ (Request.atLeast 10 (by decide) (by decide +kernel) true false).Duplicates () 0 0 none
        (fun _ => .ok 0) oneOpen := by
  have hget : (oneOpen.procs ()).get 0 = some ⟨some 0, false⟩ := rfl
  constructor
  · exact (request_duplicates_iff _ () _ oneOpen none (le_refl 0) hget).mpr
      (fun _ => Or.inr rfl)
  · rw [request_duplicates_iff _ () _ oneOpen none (le_refl 0) hget]
    have hfull : (oneOpen.procs ()).Full 10 := by
      intro d hd hlt
      have hcap : (oneOpen.procs ()).fdCap = 4 := rfl
      omega
    rintro (⟨hno, _⟩ | ⟨_, (hno | hno) | ⟨hno, _⟩⟩)
    · exact hno hfull
    · exact absurd hno (by decide +kernel)
    · cases hno
    · exact absurd hno (by decide +kernel)

/-- **Counterexample.**  There `fcntl(0, F_DUPFD, 10)` returns 4, `dup2(0, -1)` returns 1, and
`fd_duplicate` of 0 to 0 succeeds without setting `*outfd`. -/
theorem duplicate_wrong_number :
    ((sysFcntl () 0 .dupfd 10 (fun _ => .ok 0) oneOpen).toOption.map Prod.fst =
      some (Except.ok 4)) ∧
    ((sysDup2 () 0 (-1) (fun _ => .ok 0) oneOpen).toOption.map Prod.fst = some (Except.ok 1)) ∧
    ((fdDuplicateOut () 0 0 ⟨true, false, false⟩ none (fun _ => .ok 0) oneOpen).toOption.map
      Prod.fst = some (Except.ok none)) := by
  refine ⟨?_, ?_, ?_⟩
  · decide +kernel
  · decide +kernel
  · decide +kernel

end FileTable
