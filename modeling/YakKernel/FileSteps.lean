/-
# What the operations on a descriptor table do

One specification for each of the functions of `core/file.c` that search, fill and clear slots,
for arguments that keep within the table.
-/
import YakKernel.FileTable

namespace FileTable

open Prog

variable {P : Type} {p : P} {env : Env} {s : Kernel P} {R : Failure → Prop}

/-! ## The table under its operations -/

theorem Process.fdCap_nonneg (proc : Process) : 0 ≤ proc.fdCap := Int.natCast_nonneg _

theorem Process.fdCap_le (proc : Process) : proc.fdCap ≤ 65535 := by
  have h := proc.length_le
  simp only [fdLimit] at h
  simp only [Process.fdCap]
  omega

@[simp] theorem Process.fdCap_set (proc : Process) (i : ℤ) (desc : Option Fd) :
    (proc.set i desc).fdCap = proc.fdCap := by
  simp only [Process.fdCap, Process.set]
  cases proc.fds with
  | none => rfl
  | some t => simp

theorem Process.get_set (proc : Process) {i : ℤ} (h0 : 0 ≤ i) (hi : i < proc.fdCap) {j : ℤ}
    (hj : 0 ≤ j) (desc : Option Fd) :
    (proc.set i desc).get j = if j = i then desc else proc.get j := by
  simp only [Process.fdCap] at hi
  simp only [Process.get, Process.set]
  cases ht : proc.fds with
  | none =>
    simp only [ht, Option.getD_none, List.length_nil] at hi
    omega
  | some t =>
    simp only [ht, Option.getD_some] at hi
    simp only [Option.map_some, Option.getD_some, List.getElem?_set]
    by_cases hij : j = i
    · subst hij
      have hlt : j.toNat < t.length := by omega
      simp [hlt]
    · have hne : i.toNat ≠ j.toNat := by omega
      simp only [if_neg hij, if_neg hne]

theorem Process.fdCap_grow (proc : Process) (n : ℕ) (h : n ≤ fdLimit) :
    (proc.grow n h).fdCap = max proc.fdCap n := by
  simp only [Process.fdCap, Process.grow, Option.getD_some, List.length_append,
    List.length_replicate]
  omega

theorem Process.get_grow (proc : Process) (n : ℕ) (h : n ≤ fdLimit) (j : ℤ) :
    (proc.grow n h).get j = proc.get j := by
  simp only [Process.get, Process.grow, Option.getD_some]
  by_cases hj : j.toNat < (proc.fds.getD []).length
  · rw [List.getElem?_append_left hj]
  · have hold : (proc.fds.getD [])[j.toNat]? = none := List.getElem?_eq_none (by omega)
    rw [List.getElem?_append_right (by omega), hold, List.getElem?_replicate]
    split
    · rfl
    · rfl

theorem Process.get_of_le (proc : Process) {j : ℤ} (hj : proc.fdCap ≤ j) : proc.get j = none := by
  have h0 := proc.fdCap_nonneg
  simp only [Process.fdCap] at hj
  rw [Process.get, List.getElem?_eq_none (by omega)]
  rfl

/-! ## The rules of the accesses -/

@[simp] theorem Kernel.ref_procs (s : Kernel P) (f : ℕ) : (s.ref f).procs = s.procs := rfl

@[simp] theorem Kernel.drop_procs (s : Kernel P) (file : Option ℕ) :
    (s.drop file).procs = s.procs := by
  cases file with
  | none => rfl
  | some f => rfl

@[simp] theorem ends_getProc {Q : Process → Kernel P → Prop} :
    (getProc p).Ends env s Q R ↔ Q (s.procs p) s := Iff.rfl

@[simp] theorem ends_readSlot {i : ℤ} {Q : Option Fd → Kernel P → Prop} :
    (readSlot p i).Ends env s Q R ↔
      (0 ≤ i ∧ i < (s.procs p).fdCap → Q ((s.procs p).get i) s) ∧
        (¬ (0 ≤ i ∧ i < (s.procs p).fdCap) → R (.outOfRange i)) := by
  simp only [readSlot, ends_bind, ends_getProc, ends_check, ends_pure]

@[simp] theorem ends_addInt {a b : ℤ} {Q : ℤ → Kernel P → Prop} :
    (addInt a b : FdM P ℤ).Ends env s Q R ↔
      (a + b ≤ intMax → Q (a + b) s) ∧ (¬ a + b ≤ intMax → R .overflow) := by
  simp only [addInt, ends_bind, ends_check, ends_pure]

@[simp] theorem ends_kzalloc {Q : Bool → Kernel P → Prop} :
    (kzalloc : FdM P Bool).Ends env s Q R ↔ Q s.hasMemory s.answered := Iff.rfl

@[simp] theorem ends_fileRef {f : ℕ} {Q : Unit → Kernel P → Prop} :
    (fileRef f).Ends env s Q R ↔ Q () (s.ref f) := Iff.rfl

@[simp] theorem ends_fileDeref {f : ℕ} {Q : Unit → Kernel P → Prop} :
    (fileDeref f).Ends env s Q R ↔ Q () (s.deref f) := Iff.rfl

theorem ends_fdSafeGet {fd : ℤ} {Q : Option Fd → Kernel P → Prop} :
    (fdSafeGet p fd).Ends env s Q R ↔
      if (s.procs p).fds = none ∨ (s.procs p).fdCap ≤ fd then Q none s
      else if 0 ≤ fd then Q ((s.procs p).get fd) s else R (.outOfRange fd) := by
  rw [fdSafeGet, ends_bind, ends_getProc, ends_ite]
  by_cases hnone : (s.procs p).fds = none ∨ (s.procs p).fdCap ≤ fd
  · simp [hnone]
  · rw [not_or, not_le] at hnone
    have hcond : ¬ ((s.procs p).fds = none ∨ (s.procs p).fdCap ≤ fd) := by
      rw [not_or, not_le]
      exact hnone
    by_cases h0 : 0 ≤ fd
    · simp [hcond, h0, hnone.2]
    · simp [hcond, h0]

/-- The scan of the table finds a free slot, if there is one from `start` on. -/
theorem findFree_ends :
    ∀ (n : ℕ) (i : ℤ), 0 ≤ i → i + n ≤ (s.procs p).fdCap →
      (findFree p n i).Ends env s
        (fun r s' => s' = s ∧ match r with
          | some j => i ≤ j ∧ j < i + n ∧ (s.procs p).get j = none
          | none => ∀ j, i ≤ j → j < i + n → (s.procs p).get j ≠ none)
        (fun _ => False) := by
  intro n
  induction n with
  | zero =>
    intro i _ _
    refine ⟨rfl, ?_⟩
    intro j hj hj'
    simp only [Nat.cast_zero] at hj'
    omega
  | succ n ih =>
    intro i h0 hi
    push_cast at hi
    rw [findFree, ends_bind, ends_readSlot]
    refine ⟨fun _ => ?_, fun h => h ⟨h0, by omega⟩⟩
    cases hget : (s.procs p).get i with
    | none => exact ⟨rfl, by omega, by push_cast; omega, hget⟩
    | some desc =>
      refine (ih (i + 1) (by omega) (by omega)).imp ?_
      rintro r s' ⟨hs', hr⟩
      refine ⟨hs', ?_⟩
      cases r with
      | some j =>
        refine ⟨by omega, ?_, hr.2.2⟩
        push_cast
        omega
      | none =>
        intro j hj hj'
        push_cast at hj'
        by_cases hji : j = i
        · rw [hji, hget]
          exact Option.some_ne_none desc
        · exact hr j (by omega) (by omega)

theorem findFreeFrom_ends {start : ℤ} (h0 : 0 ≤ start) :
    (findFreeFrom p start).Ends env s
      (fun r s' => s' = s ∧ match r with
        | some j => start ≤ j ∧ j < (s.procs p).fdCap ∧ (s.procs p).get j = none
        | none => ∀ j, start ≤ j → j < (s.procs p).fdCap → (s.procs p).get j ≠ none)
      (fun _ => False) := by
  rw [findFreeFrom, ends_bind, ends_getProc]
  by_cases hle : start ≤ (s.procs p).fdCap
  · refine (findFree_ends _ start h0 (by omega)).imp ?_
    rintro r s' ⟨hs', hr⟩
    refine ⟨hs', ?_⟩
    cases r with
    | some j => exact ⟨hr.1, by omega, hr.2.2⟩
    | none =>
      intro j hj hj'
      exact hr j hj (by omega)
  · have hn : ((s.procs p).fdCap - start).toNat = 0 := by omega
    rw [hn]
    refine ⟨rfl, ?_⟩
    intro j hj hj'
    omega

/-! ## Growing -/

/-- Nothing but the answers of the allocator, the number of free slots of `p` and one of its
slots, if any, changed. -/
structure Kernel.Grown (p : P) (slot : Option ℤ) (s s' : Kernel P) : Prop where
  files : s'.files = s.files
  nextFile : s'.nextFile = s.nextFile
  others : ∀ q, q ≠ p → s'.procs q = s.procs q
  cap : (s.procs p).fdCap ≤ (s'.procs p).fdCap
  slots : ∀ j, 0 ≤ j → some j ≠ slot → (s'.procs p).get j = (s.procs p).get j

theorem Kernel.Grown.refl (p : P) (slot : Option ℤ) (s : Kernel P) : s.Grown p slot s where
  files := rfl
  nextFile := rfl
  others := fun _ _ => rfl
  cap := le_refl _
  slots := fun _ _ _ => rfl

theorem Kernel.Grown.trans {slot : Option ℤ} {s s' s'' : Kernel P} (h : s.Grown p none s')
    (h' : s'.Grown p slot s'') : s.Grown p slot s'' where
  files := h'.files.trans h.files
  nextFile := h'.nextFile.trans h.nextFile
  others := fun q hq => (h'.others q hq).trans (h.others q hq)
  cap := h.cap.trans h'.cap
  slots := fun j h0 hj => (h'.slots j h0 hj).trans (h.slots j h0 (Option.some_ne_none j))

theorem Kernel.grown_answered (p : P) (s : Kernel P) : s.Grown p none s.answered where
  files := rfl
  nextFile := rfl
  others := fun _ _ => rfl
  cap := le_refl _
  slots := fun _ _ _ => rfl

/-- A descriptor, if any, was put in a free slot; its memory may be missing. -/
def Kernel.Allocated (p : P) (s : Kernel P) (r : Except Status ℤ) (s' : Kernel P) : Prop :=
  match r with
  | .error _ => s.Grown p none s'
  | .ok fd => s.Grown p (some fd) s' ∧ 0 ≤ fd ∧ fd < (s'.procs p).fdCap ∧
      (s.procs p).get fd = none ∧
      ((s'.procs p).get fd = none ∨ (s'.procs p).get fd = some ⟨none, false⟩)

theorem Kernel.Allocated.of_grown {r : Except Status ℤ} {s s' s'' : Kernel P}
    (h : s.Grown p none s') (h' : s'.Allocated p r s'') : s.Allocated p r s'' := by
  cases r with
  | error e => exact h.trans h'
  | ok fd =>
    obtain ⟨hg, h0, hlt, hnone, hslot⟩ := h'
    exact ⟨h.trans hg, h0, hlt, (h.slots fd h0 (Option.some_ne_none fd)).symm.trans hnone, hslot⟩

variable [DecidableEq P]

@[simp] theorem ends_writeSlot {i : ℤ} {desc : Option Fd} {Q : Unit → Kernel P → Prop} :
    (writeSlot p i desc).Ends env s Q R ↔
      (0 ≤ i ∧ i < (s.procs p).fdCap → Q () (s.setProc p ((s.procs p).set i desc))) ∧
        (¬ (0 ≤ i ∧ i < (s.procs p).fdCap) → R (.outOfRange i)) := by
  simp only [writeSlot, ends_bind, ends_getProc, ends_check, ends_change]

theorem ends_fdGrow {n : ℤ} {Q : Status → Kernel P → Prop}
    (hsmall : n < (s.procs p).fdCap → Q .success s)
    (hgrown : ∀ h : n.toNat ≤ fdLimit, (s.procs p).fdCap ≤ n → s.hasMemory = true →
      Q .success (s.answered.setProc p ((s.procs p).grow n.toNat h)))
    (hoom : s.hasMemory = false → Q .oom s.answered)
    (hlimit : Q .mfile s) : (fdGrow p n).Ends env s Q R := by
  rw [fdGrow, ends_bind, ends_getProc, ends_ite]
  refine ⟨hsmall, fun hn => ?_⟩
  by_cases h : n.toNat ≤ fdLimit
  · rw [dif_pos h, ends_bind, ends_kzalloc, ends_ite, ends_bind, ends_change, ends_pure, ends_pure]
    refine ⟨fun hm => hgrown h (by omega) hm, fun hm => hoom ?_⟩
    simpa using hm
  · rw [dif_neg h]
    exact hlimit

/-- What `fd_grow(proc, proc->fd_cap + FD_GROW_BY)` does: four free slots more, or nothing. -/
theorem growByFour_ends :
    (growByFour p).Ends env s
      (fun rv s' => (rv = .success ∧ ∃ h, s.hasMemory = true ∧
          s' = s.answered.setProc p ((s.procs p).grow ((s.procs p).fdCap + 4).toNat h)) ∨
        (rv = .oom ∧ s.hasMemory = false ∧ s' = s.answered) ∨ (rv = .mfile ∧ s' = s))
      (fun _ => False) := by
  have hle := (s.procs p).fdCap_le
  rw [growByFour, ends_bind, ends_getProc, ends_bind, ends_addInt]
  refine ⟨fun _ => ?_, fun h => ?_⟩
  · apply ends_fdGrow
    · intro h
      simp only [fdGrowBy] at h
      omega
    · intro h _ hm
      exact Or.inl ⟨rfl, h, hm, rfl⟩
    · intro hm
      exact Or.inr (Or.inl ⟨rfl, hm, rfl⟩)
    · exact Or.inr (Or.inr ⟨rfl, rfl⟩)
  · simp only [fdGrowBy, intMax] at h
    omega

/-! ## Finding a slot for a new descriptor -/

theorem Kernel.grown_grow (p : P) (s : Kernel P) (n : ℕ) (h : n ≤ fdLimit) :
    s.Grown p none (s.answered.setProc p ((s.procs p).grow n h)) where
  files := rfl
  nextFile := rfl
  others := by
    intro q hq
    simp [hq]
  cap := by
    simp [Process.fdCap_grow]
  slots := by
    intro j _ _
    simp [Process.get_grow]

theorem Kernel.grown_set (s : Kernel P) {i : ℤ} (h0 : 0 ≤ i) (hi : i < (s.procs p).fdCap)
    (desc : Option Fd) : s.Grown p (some i) (s.setProc p ((s.procs p).set i desc)) where
  files := rfl
  nextFile := rfl
  others := by
    intro q hq
    simp [hq]
  cap := by
    simp
  slots := by
    intro j hj hne
    have hji : j ≠ i := fun h => hne (congrArg some h)
    simp [Process.get_set _ h0 hi hj, hji]

theorem newSlot_ends {i : ℤ} (h0 : 0 ≤ i) (hi : i < (s.procs p).fdCap) :
    (newSlot p i).Ends env s
      (fun ok s' => ok = s.hasMemory ∧ s.Grown p (some i) s' ∧ i < (s'.procs p).fdCap ∧
        (s'.procs p).get i = if ok then some ⟨none, false⟩ else none)
      (fun _ => False) := by
  rw [newSlot, ends_bind, ends_kzalloc, ends_bind, ends_writeSlot]
  refine ⟨fun _ => ?_, fun h => h ⟨h0, hi⟩⟩
  have hset := Kernel.grown_set s.answered h0 hi (p := p)
    (if s.hasMemory then some ⟨none, false⟩ else none)
  refine ⟨rfl, (Kernel.grown_answered p s).trans hset, ?_, ?_⟩
  · simpa using hi
  · rw [Kernel.setProc_procs, Function.update_self]
    exact (Process.get_set (s.procs p) h0 hi h0 _).trans (if_pos rfl)

theorem newSlot_allocated {i : ℤ} (h0 : 0 ≤ i) (hi : i < (s.procs p).fdCap)
    (hfree : (s.procs p).get i = none) :
    (newSlot p i).Ends env s
      (fun ok s' => s.Allocated p (.ok i) s' ∧ (ok = false → s.Grown p none s'))
      (fun _ => False) := by
  refine (newSlot_ends h0 hi).imp ?_
  rintro ok s' ⟨_, hg, hlt, hslot⟩
  refine ⟨⟨hg, h0, hlt, hfree, ?_⟩, ?_⟩
  · cases ok
    · exact Or.inl hslot
    · exact Or.inr hslot
  · intro hok
    refine ⟨hg.files, hg.nextFile, hg.others, hg.cap, ?_⟩
    intro j hj _
    by_cases hji : j = i
    · rw [hji, hfree, hslot, hok]
      rfl
    · exact hg.slots j hj (fun h => hji (Option.some.inj h))

theorem growByFour_free {s' : Kernel P} {h : ((s.procs p).fdCap + 4).toNat ≤ fdLimit}
    (hs' : s' = s.answered.setProc p ((s.procs p).grow ((s.procs p).fdCap + 4).toNat h)) :
    s.Grown p none s' ∧ 0 ≤ (s'.procs p).fdCap - fdGrowBy ∧
      (s'.procs p).get ((s'.procs p).fdCap - fdGrowBy) = none := by
  have h0 := (s.procs p).fdCap_nonneg
  have hcap : (s'.procs p).fdCap = (s.procs p).fdCap + 4 := by
    rw [hs', Kernel.setProc_procs, Function.update_self, Process.fdCap_grow]
    omega
  have hgrown : s.Grown p none s' := by
    rw [hs']
    exact Kernel.grown_grow p s _ h
  refine ⟨hgrown, ?_, ?_⟩
  · simp only [fdGrowBy]
    omega
  · simp only [fdGrowBy]
    rw [hgrown.slots _ (by omega) (Option.some_ne_none _)]
    exact Process.get_of_le _ (by omega)

theorem fdAllocateNext_ends :
    (fdAllocateNext p).Ends env s (fun r s' => s.Allocated p r s') (fun _ => False) := by
  rw [fdAllocateNext, ends_bind]
  refine (findFreeFrom_ends (le_refl 0)).imp ?_
  rintro r s₁ ⟨rfl, hr⟩
  cases r with
  | some i =>
    simp only [ends_bind]
    refine (newSlot_allocated hr.1 hr.2.1 hr.2.2).imp ?_
    rintro ok s' ⟨hok, hno⟩
    rw [ends_ite]
    refine ⟨fun _ => hok, fun h => hno ?_⟩
    simpa using h
  | none =>
    simp only [ends_bind]
    apply growByFour_ends.imp
    rintro rv s₂ (⟨rfl, h, _, hs₂⟩ | ⟨rfl, _, rfl⟩ | ⟨rfl, rfl⟩)
    · obtain ⟨hgrown, h0, hfree⟩ := growByFour_free hs₂
      rw [ends_ite]
      refine ⟨fun herr => absurd herr Bool.false_ne_true, fun _ => ?_⟩
      simp only [ends_bind, ends_getProc, ends_pure]
      have hlt : (s₂.procs p).fdCap - fdGrowBy < (s₂.procs p).fdCap := by
        simp only [fdGrowBy]
        omega
      refine (newSlot_allocated h0 hlt hfree).imp ?_
      rintro ok s' ⟨hok, _⟩
      exact Kernel.Allocated.of_grown hgrown hok
    · rw [ends_ite, ends_pure]
      refine ⟨fun _ => ?_, fun h => absurd (by decide) h⟩
      exact Kernel.grown_answered p s₁
    · rw [ends_ite, ends_pure]
      refine ⟨fun _ => ?_, fun h => absurd (by decide) h⟩
      exact Kernel.Grown.refl p none s₂

theorem fdAllocateMin_ends {minFd : ℤ} (h0 : 0 ≤ minFd) :
    (fdAllocateMin p minFd).Ends env s (fun r s' => s.Allocated p r s') (fun _ => False) := by
  refine Ends.loop (I := fun n start s' => s.Grown p none s' ∧ 0 ≤ start ∧ n ≠ 0 ∧
    (n = 1 → start < (s'.procs p).fdCap ∧ (s'.procs p).get start = none))
    2 ⟨Kernel.Grown.refl p none s, h0, by decide, fun h => absurd h (by decide)⟩ ?_ ?_
  · intro start s' hI
    exact hI.2.2.1 rfl
  · rintro n start s₁ ⟨hgrown, hstart, _, hone⟩
    rw [allocateMinRound, ends_bind]
    refine (findFreeFrom_ends hstart).imp ?_
    rintro r s₂ ⟨rfl, hr⟩
    cases r with
    | some i =>
      simp only [ends_bind, ends_pure]
      refine (newSlot_allocated (by omega) hr.2.1 hr.2.2).imp ?_
      rintro ok s' ⟨hok, _⟩
      exact Kernel.Allocated.of_grown hgrown hok
    | none =>
      cases n with
      | zero =>
        -- the second round starts at a free slot
        obtain ⟨hlt, hfree⟩ := hone rfl
        exact absurd hfree (hr start (le_refl _) hlt)
      | succ n =>
        simp only [ends_bind]
        apply growByFour_ends.imp
        rintro rv s₃ (⟨rfl, h, _, hs₃⟩ | ⟨rfl, _, rfl⟩ | ⟨rfl, rfl⟩)
        · obtain ⟨hgrown', h0', hfree⟩ := growByFour_free hs₃
          rw [ends_ite]
          refine ⟨fun herr => absurd herr Bool.false_ne_true, fun _ => ?_⟩
          simp only [ends_bind, ends_getProc, ends_pure]
          refine ⟨hgrown.trans hgrown', h0', Nat.succ_ne_zero n, fun _ => ⟨?_, hfree⟩⟩
          simp only [fdGrowBy]
          omega
        · rw [ends_ite, ends_pure]
          refine ⟨fun _ => ?_, fun h => absurd (by decide) h⟩
          exact hgrown.trans (Kernel.grown_answered p s₂)
        · rw [ends_ite, ends_pure]
          refine ⟨fun _ => ?_, fun h => absurd (by decide) h⟩
          exact hgrown

/-! ## Closing -/

theorem fdClose_ends {i : ℤ} (h0 : 0 ≤ i) (hi : i < (s.procs p).fdCap) {desc : Fd}
    (hdesc : (s.procs p).get i = some desc) :
    (fdClose p i).Ends env s (fun _ s' => s' = (s.drop desc.file).setProc p
      ((s.procs p).set i none)) (fun _ => False) := by
  rw [fdClose, ends_bind, ends_readSlot, hdesc]
  refine ⟨fun _ => ?_, fun h => h ⟨h0, hi⟩⟩
  rw [ends_bind, ends_ifSome]
  refine ⟨?_, ?_⟩
  · intro f hf
    rw [ends_fileDeref, ends_writeSlot, hf]
    exact ⟨fun _ => rfl, fun h => h ⟨h0, hi⟩⟩
  · intro hf
    rw [ends_writeSlot, hf]
    exact ⟨fun _ => rfl, fun h => h ⟨h0, hi⟩⟩

/-- The state when slot `i` of `p`, if it is taken, has been closed. -/
def Kernel.cleared (s : Kernel P) (p : P) (i : ℤ) : Kernel P :=
  match (s.procs p).get i with
  | none => s
  | some desc => (s.drop desc.file).setProc p ((s.procs p).set i none)

theorem Kernel.cleared_of_none {i : ℤ} (h : (s.procs p).get i = none) : s.cleared p i = s := by
  rw [Kernel.cleared, h]

theorem Kernel.cleared_of_some {i : ℤ} {desc : Fd} (h : (s.procs p).get i = some desc) :
    s.cleared p i = (s.drop desc.file).setProc p ((s.procs p).set i none) := by
  rw [Kernel.cleared, h]

theorem Kernel.fdCap_cleared (i : ℤ) :
    ((s.cleared p i).procs p).fdCap = (s.procs p).fdCap := by
  cases h : (s.procs p).get i with
  | none => rw [Kernel.cleared_of_none h]
  | some desc => rw [Kernel.cleared_of_some h, Kernel.setProc_procs, Function.update_self,
      Process.fdCap_set]

theorem Kernel.get_cleared {i : ℤ} (h0 : 0 ≤ i) (hi : i < (s.procs p).fdCap) :
    ((s.cleared p i).procs p).get i = none := by
  cases h : (s.procs p).get i with
  | none =>
    rw [Kernel.cleared_of_none h]
    exact h
  | some desc =>
    rw [Kernel.cleared_of_some h, Kernel.setProc_procs, Function.update_self,
      Process.get_set _ h0 hi h0, if_pos rfl]

theorem Kernel.hasMemory_cleared (i : ℤ) : (s.cleared p i).hasMemory = s.hasMemory := by
  cases h : (s.procs p).get i with
  | none => rw [Kernel.cleared_of_none h]
  | some desc =>
    rw [Kernel.cleared_of_some h]
    cases hf : desc.file with
    | none => rfl
    | some f => rfl

theorem closeOld_ends {fd : ℤ} (h0 : 0 ≤ fd) (hi : fd < (s.procs p).fdCap) :
    (closeOld p fd).Ends env s (fun _ s' => s' = s.cleared p fd) (fun _ => False) := by
  rw [closeOld, ends_bind, ends_readSlot]
  refine ⟨fun _ => ?_, fun h => h ⟨h0, hi⟩⟩
  cases h : (s.procs p).get fd with
  | none => exact (Kernel.cleared_of_none h).symm
  | some desc =>
    refine (fdClose_ends h0 hi h).imp ?_
    intro _ s' hs'
    rw [hs', Kernel.cleared_of_some h]

/-- The second half of `fd_allocate_at` closes what was there, whether or not there is memory
for the new descriptor. -/
theorem takeSlot_ends {fd : ℤ} (h0 : 0 ≤ fd) (hi : fd < (s.procs p).fdCap) :
    (takeSlot p fd).Ends env s
      (fun r s' => (s.cleared p fd).Allocated p (.ok fd) s' ∧
        ((r = .ok fd ∧ s.hasMemory = true) ∨
          (r = .error .oom ∧ s.hasMemory = false ∧ (s.cleared p fd).Grown p none s')))
      (fun _ => False) := by
  have hcap := Kernel.fdCap_cleared (s := s) (p := p) fd
  have hfree := Kernel.get_cleared h0 hi
  rw [takeSlot, ends_bind]
  refine (closeOld_ends h0 hi).imp ?_
  rintro _ s₁ rfl
  rw [ends_bind, ends_readSlot, hcap, hfree]
  refine ⟨fun _ => ?_, fun h => h ⟨h0, hi⟩⟩
  rw [ends_bind, ends_check]
  refine ⟨fun _ => ?_, fun h => h rfl⟩
  rw [ends_bind]
  have hlt : fd < ((s.cleared p fd).procs p).fdCap := hcap.symm ▸ hi
  refine ((newSlot_ends h0 hlt).and (newSlot_allocated h0 hlt hfree)).mono ?_ ?_
  · rintro ok s' ⟨⟨hok, _, _, _⟩, halloc, hgrown⟩
    rw [Kernel.hasMemory_cleared] at hok
    rw [ends_ite]
    refine ⟨fun h => ⟨halloc, Or.inl ⟨rfl, ?_⟩⟩, fun h => ⟨halloc, Or.inr ⟨rfl, ?_, ?_⟩⟩⟩
    · rw [← hok]
      exact h
    · rw [← hok]
      simpa using h
    · apply hgrown
      simpa using h
  · intro e he
    exact he.1

/-- What `fd_allocate_at` does.  It fails without memory, and then it may have closed what was
in the slot. -/
def Kernel.AllocatedAt (p : P) (fd : ℤ) (s : Kernel P) (r : Except Status ℤ) (s' : Kernel P) :
    Prop :=
  match r with
  | .error _ => s.Grown p none s' ∨
      (((s.procs p).get fd).isSome ∧ fd < (s.procs p).fdCap ∧ s.hasMemory = false ∧
        (s.cleared p fd).Grown p none s')
  | .ok fd' => fd' = fd ∧ ((s.procs p).fdCap ≤ fd ∧ s.Allocated p (.ok fd) s' ∨
      fd < (s.procs p).fdCap ∧ (s.cleared p fd).Allocated p (.ok fd) s')

theorem fdAllocateAt_ends {fd : ℤ} (h0 : 0 ≤ fd) (hmax : fd + 4 ≤ intMax) :
    (fdAllocateAt p fd).Ends env s (fun r s' => s.AllocatedAt p fd r s') (fun _ => False) := by
  rw [fdAllocateAt, ends_bind, ends_getProc, ends_ite]
  refine ⟨fun hcap => ?_, fun hcap => ?_⟩
  · rw [ends_bind, ends_addInt]
    refine ⟨fun _ => ?_, fun h => h hmax⟩
    rw [ends_bind]
    have hfree := Process.get_of_le (s.procs p) hcap
    apply ends_fdGrow
    · intro h
      simp only [fdGrowBy] at h
      omega
    · intro h _ _
      have hgrown := Kernel.grown_grow p s (fd + fdGrowBy).toNat h
      rw [ends_ite]
      refine ⟨fun herr => absurd herr Bool.false_ne_true, fun _ => ?_⟩
      have hlt : fd < ((s.answered.setProc p
          ((s.procs p).grow (fd + fdGrowBy).toNat h)).procs p).fdCap := by
        rw [Kernel.setProc_procs, Function.update_self, Process.fdCap_grow]
        simp only [fdGrowBy]
        omega
      have hnone : ((s.answered.setProc p
          ((s.procs p).grow (fd + fdGrowBy).toNat h)).procs p).get fd = none := by
        rw [hgrown.slots fd h0 (Option.some_ne_none fd)]
        exact hfree
      refine (takeSlot_ends h0 hlt).imp ?_
      rintro r s' ⟨halloc, ⟨rfl, _⟩ | ⟨rfl, _, hs'⟩⟩
      · rw [Kernel.cleared_of_none hnone] at halloc
        exact ⟨rfl, Or.inl ⟨hcap, Kernel.Allocated.of_grown hgrown halloc⟩⟩
      · rw [Kernel.cleared_of_none hnone] at hs'
        exact Or.inl (hgrown.trans hs')
    · intro _
      rw [ends_ite, ends_pure]
      refine ⟨fun _ => ?_, fun h => absurd (by decide) h⟩
      exact Or.inl (Kernel.grown_answered p s)
    · rw [ends_ite, ends_pure]
      refine ⟨fun _ => ?_, fun h => absurd (by decide) h⟩
      exact Or.inl (Kernel.Grown.refl p none s)
  · refine (takeSlot_ends h0 (by omega)).imp ?_
    rintro r s' ⟨halloc, ⟨rfl, _⟩ | ⟨rfl, hm, hs'⟩⟩
    · exact ⟨rfl, Or.inr ⟨by omega, halloc⟩⟩
    · cases h : (s.procs p).get fd with
      | none =>
        rw [Kernel.cleared_of_none h] at hs'
        exact Or.inl hs'
      | some desc =>
        refine Or.inr ⟨?_, by omega, hm, hs'⟩
        rw [h]
        rfl

/-! ## Filling -/

theorem fdAssign_ends {fd : ℤ} (h0 : 0 ≤ fd) (hi : fd < (s.procs p).fdCap) (src : Fd)
    (flags : DupeFlags) :
    (fdAssign p fd src flags).Ends env s
      (fun _ s' => ∃ f, src.file = some f ∧ ((s.procs p).get fd).isSome ∧
        s' = (s.setProc p
          ((s.procs p).set fd (some ⟨some f, flags.apply src.cloexec⟩))).ref f)
      (fun e => e = .crash ∧ ((s.procs p).get fd = none ∨ src.file = none)) := by
  rw [fdAssign, ends_bind, ends_readSlot]
  refine ⟨fun _ => ?_, fun h => absurd ⟨h0, hi⟩ h⟩
  cases hget : (s.procs p).get fd with
  | none => exact ⟨rfl, Or.inl rfl⟩
  | some desc =>
    cases hf : src.file with
    | none => exact ⟨rfl, Or.inr rfl⟩
    | some f =>
      simp only [ends_bind, ends_writeSlot, ends_fileRef]
      exact ⟨fun _ => ⟨f, rfl, rfl, rfl⟩, fun h => absurd ⟨h0, hi⟩ h⟩

end FileTable
