/-
# Every access to the descriptor table is in range

`fd_safe_get` tests a descriptor against `fd_cap` only; `fd_allocate_at` adds to it and
`fd_allocate_min` starts at it untested.  The theorem says exactly for which arguments a system
call keeps within the table.
-/
import YakKernel.FileSteps

namespace FileTable

open Prog

variable {P : Type} {p : P} {env : Env} {s : Kernel P}

/-! ## The calls -/

/-- The calls that take a descriptor, with any `int`s for it; `fcntl` and `mmap` take an
`unsigned long`. -/
inductive Call where
  | close (fd : CInt)
  | read (fd : CInt)
  | write (fd : CInt)
  | dup (fd : CInt)
  | dup2 (oldfd newfd : CInt)
  | fcntl (fd : CInt) (op : FcntlOp) (arg : ℕ)
  | seek (fd : CInt)
  | poll (fds : List CInt)
  | mmap (anonymous : Bool) (fd : ℕ)

/-- What a call returns: its result, or the `revents` of `poll`. -/
inductive Reply where
  | result (r : Except Status ℤ)
  | revents (rs : List Revents)

/-- The descriptors that a call asks for.  `poll` leaves the negative ones alone. -/
def Call.names : Call → List ℤ
  | .close fd | .read fd | .write fd | .dup fd | .seek fd => [fd.val]
  | .dup2 oldfd _ => [oldfd.val]
  | .fcntl fd _ _ => [fd.val]
  | .poll fds => (fds.map Subtype.val).filter (fun fd => 0 ≤ fd)
  | .mmap anonymous fd => if anonymous then [] else [(CInt.ofLong fd).val]

/-- `fd` is an open descriptor. -/
def Process.Opened (proc : Process) (fd : ℤ) : Prop :=
  0 ≤ fd ∧ fd < proc.fdCap ∧ (proc.get fd).isSome

/-- What the reply says of descriptors that are not open: the call fails, `poll` reports each. -/
def Call.Rejects (call : Call) (proc : Process) : Reply → Prop
  | .result r => (∃ fd ∈ call.names, ¬ proc.Opened fd) → ∃ e, r = .error e
  | .revents rs => match call with
    | .poll fds => List.Forall₂ (fun fd r => 0 ≤ fd.val → ¬ proc.Opened fd.val → r = .nval) fds rs
    | _ => False

/-- What `fd_safe_get` needs: it tests for a table, and against its length. -/
def Process.Reads (proc : Process) (fd : ℤ) : Prop := proc.fds = none ∨ 0 ≤ fd

/-- The arguments with which a call keeps within the table. -/
def Call.InRange (proc : Process) : Call → Prop
  | .close fd | .read fd | .write fd | .dup fd | .seek fd => proc.Reads fd.val
  | .dup2 oldfd newfd => proc.Reads oldfd.val ∧ (proc.Opened oldfd.val → oldfd ≠ newfd →
      -1 ≤ newfd.val ∧ newfd.val + 4 ≤ intMax)
  | .fcntl fd op arg => match op with
    | .dupfd | .dupfdCloexec =>
      proc.Reads fd.val ∧ (proc.Opened fd.val → -1 ≤ (CInt.ofLong arg).val)
    | .getfd | .setfd | .getfl | .setfl => proc.Reads fd.val
    | .other => True
  | .poll _ => True
  | .mmap anonymous fd => anonymous = true ∨ proc.Reads (CInt.ofLong fd).val

section

variable [DecidableEq P]

/-- The call. -/
def Call.run (p : P) : Call → FdM P Reply
  | .close fd => Reply.result <$> sysClose p fd.val
  | .read fd => Reply.result <$> withFile p fd.val
  | .write fd => Reply.result <$> withFile p fd.val
  | .dup fd => Reply.result <$> sysDup p fd.val
  | .dup2 oldfd newfd => Reply.result <$> sysDup2 p oldfd.val newfd.val
  | .fcntl fd op arg => Reply.result <$> sysFcntl p fd.val op arg
  | .seek fd => Reply.result <$> withDesc p fd.val
  | .poll fds => Reply.revents <$> sysPoll p (fds.map Subtype.val)
  | .mmap anonymous fd => Reply.result <$> sysMmap p anonymous fd

/-- The call keeps within the table, adds without overflow, and rejects what is not open; it may
crash on an open descriptor for want of memory. -/
def Call.Safe (call : Call) (p : P) (env : Env) (s : Kernel P) : Prop :=
  (call.run p).Ends env s (fun reply _ => call.Rejects (s.procs p) reply)
    (fun e => e = .crash ∧ ∃ fd ∈ call.names, (s.procs p).Opened fd)

end

/-! ## Looking a descriptor up -/

theorem Process.Opened.get {proc : Process} {fd : ℤ} (h : proc.Opened fd) :
    ∃ desc, proc.get fd = some desc := Option.isSome_iff_exists.mp h.2.2

theorem Process.Opened.of_get {proc : Process} {fd : ℤ} (h0 : 0 ≤ fd) {desc : Fd}
    (h : proc.get fd = some desc) : proc.Opened fd := by
  refine ⟨h0, ?_, ?_⟩
  · by_contra hcap
    rw [Process.get_of_le proc (by omega)] at h
    exact absurd h (by simp)
  · rw [h]
    rfl

/-- **`fd_safe_get`** reads outside the table, finds nothing, or finds an open descriptor. -/
theorem ends_lookup {fd : ℤ} {Q : Option Fd → Kernel P → Prop} {R : Failure → Prop} :
    (fdSafeGet p fd).Ends env s Q R ↔
      (¬ (s.procs p).Reads fd → R (.outOfRange fd)) ∧
      ((s.procs p).Reads fd → ¬ (s.procs p).Opened fd → Q none s) ∧
      ∀ desc, (s.procs p).Opened fd → (s.procs p).get fd = some desc → Q (some desc) s := by
  rw [ends_fdSafeGet]
  by_cases hnone : (s.procs p).fds = none ∨ (s.procs p).fdCap ≤ fd
  · rw [if_pos hnone]
    have hget : (s.procs p).get fd = none := by
      rcases hnone with hnone | hcap
      · rw [Process.get, hnone]
        rfl
      · exact Process.get_of_le _ hcap
    have hopen : ¬ (s.procs p).Opened fd := by
      intro h
      obtain ⟨desc, hdesc⟩ := h.get
      rw [hget] at hdesc
      exact absurd hdesc (by simp)
    have hreads : (s.procs p).Reads fd := by
      rcases hnone with hnone | hcap
      · exact Or.inl hnone
      · have h0 := (s.procs p).fdCap_nonneg
        exact Or.inr (by omega)
    exact ⟨fun h => ⟨fun hr => absurd hreads hr, fun _ _ => h, fun _ ho => absurd ho hopen⟩,
      fun h => h.2.1 hreads hopen⟩
  · rw [if_neg hnone]
    rw [not_or, not_le] at hnone
    by_cases h0 : 0 ≤ fd
    · rw [if_pos h0]
      have hreads : (s.procs p).Reads fd := Or.inr h0
      cases hget : (s.procs p).get fd with
      | none =>
        have hopen : ¬ (s.procs p).Opened fd := by
          intro h
          obtain ⟨desc, hdesc⟩ := h.get
          rw [hget] at hdesc
          exact absurd hdesc (by simp)
        exact ⟨fun h => ⟨fun hr => absurd hreads hr, fun _ _ => h, fun _ ho => absurd ho hopen⟩,
          fun h => h.2.1 hreads hopen⟩
      | some desc =>
        have hopen := Process.Opened.of_get h0 hget
        refine ⟨fun h => ⟨fun hr => absurd hreads hr, fun _ ho => absurd hopen ho, ?_⟩,
          fun h => h.2.2 desc hopen rfl⟩
        intro desc' _ hdesc'
        rw [← hdesc']
        exact h
    · rw [if_neg h0]
      have hreads : ¬ (s.procs p).Reads fd := fun h => h.elim hnone.1 h0
      refine ⟨fun h => ⟨fun _ => h, fun hr => absurd hr hreads, fun _ ho => absurd ho.1 h0⟩,
        fun h => h.1 hreads⟩

/-- A call that starts with `fd_safe_get` and fails when that finds nothing. -/
theorem ends_lookup_iff {fd : ℤ} {Q : Option Fd → Kernel P → Prop} {R : Failure → Prop}
    (hR : ¬ R (.outOfRange fd)) (hnone : ¬ (s.procs p).Opened fd → Q none s) :
    (fdSafeGet p fd).Ends env s Q R ↔ (s.procs p).Reads fd ∧
      ∀ desc, (s.procs p).Opened fd → (s.procs p).get fd = some desc → Q (some desc) s := by
  rw [ends_lookup]
  refine ⟨fun h => ⟨?_, h.2.2⟩, fun h => ⟨fun hr => absurd h.1 hr, fun _ => hnone, h.2⟩⟩
  by_contra hr
  exact hR (h.1 hr)

/-- A call that does well on an open descriptor and fails when nothing is found. -/
theorem ends_lookup_reads {fd : ℤ} {Q : Option Fd → Kernel P → Prop} {R : Failure → Prop}
    (hR : ∀ e, R e ↔ e = .crash ∧ (s.procs p).Opened fd) (hnone : Q none s)
    (hopen : ∀ desc, (s.procs p).Opened fd → (s.procs p).get fd = some desc → Q (some desc) s) :
    (fdSafeGet p fd).Ends env s Q R ↔ (s.procs p).Reads fd := by
  rw [ends_lookup_iff]
  · exact ⟨fun h => h.1, fun h => ⟨h, hopen⟩⟩
  · intro h
    cases ((hR _).mp h).1
  · exact fun _ => hnone

/-! ## The calls on one descriptor -/

theorem withFile_iff {fd : ℤ} {Q : Except Status ℤ → Kernel P → Prop} {R : Failure → Prop}
    (hR : ∀ e, R e ↔ e = .crash ∧ (s.procs p).Opened fd)
    (hQ : ∀ r s', (s.procs p).Opened fd → Q r s') (hbad : Q (.error .badf) s) :
    (withFile p fd).Ends env s Q R ↔ (s.procs p).Reads fd := by
  rw [withFile, ends_bind, getfileRef, ends_bind]
  refine ends_lookup_reads hR hbad ?_
  intro desc hopen _
  dsimp only
  cases hf : desc.file with
  | none => exact (hR _).mpr ⟨rfl, hopen⟩
  | some f =>
    simp only [ends_bind, ends_fileRef, ends_pure, ends_getEnv, ends_fileDeref]
    exact hQ _ _ hopen

theorem withDesc_iff {fd : ℤ} {Q : Except Status ℤ → Kernel P → Prop} {R : Failure → Prop}
    (hR : ∀ e, R e ↔ e = .crash ∧ (s.procs p).Opened fd)
    (hQ : ∀ r s', (s.procs p).Opened fd → Q r s') (hbad : Q (.error .badf) s) :
    (withDesc p fd).Ends env s Q R ↔ (s.procs p).Reads fd := by
  rw [withDesc, ends_bind]
  refine ends_lookup_reads hR hbad ?_
  intro desc hopen _
  dsimp only
  cases hf : desc.file with
  | none => exact (hR _).mpr ⟨rfl, hopen⟩
  | some f =>
    simp only [ends_bind, ends_getEnv, ends_pure]
    exact hQ _ _ hopen

/-! ## `poll` -/

/-- `sys_poll` tests for negative descriptors, and so never reads outside the table. -/
theorem sysPoll_ends :
    ∀ (fds : List ℤ) (s : Kernel P), (sysPoll p fds).Ends env s
      (fun rs s' => s'.procs = s.procs ∧
        List.Forall₂ (fun fd r => 0 ≤ fd → ¬ (s.procs p).Opened fd → r = .nval) fds rs)
      (fun e => e = .crash ∧ ∃ fd ∈ fds, (s.procs p).Opened fd) := by
  intro fds
  induction fds with
  | nil =>
    intro s
    exact ⟨rfl, List.Forall₂.nil⟩
  | cons fd fds ih =>
    intro s
    rw [sysPoll, ends_bind]
    have hentry : (pollEntry p fd).Ends env s
        (fun r s' => s'.procs = s.procs ∧
          (0 ≤ fd → ¬ (s.procs p).Opened fd → r = .nval))
        (fun e => e = .crash ∧ (s.procs p).Opened fd) := by
      rw [pollEntry, ends_ite]
      refine ⟨fun hneg => ⟨rfl, fun h0 => absurd hneg (not_lt.mpr h0)⟩, fun hneg => ?_⟩
      rw [ends_bind, getfileRef, ends_bind, ends_lookup]
      refine ⟨fun hr => absurd (Or.inr (not_lt.mp hneg)) hr, fun _ _ => ⟨rfl, fun _ _ => rfl⟩, ?_⟩
      intro desc hopen _
      dsimp only
      cases hf : desc.file with
      | none => exact ⟨rfl, hopen⟩
      | some f =>
        simp only [ends_bind, ends_fileRef, ends_pure, ends_getEnv, ends_fileDeref]
        exact ⟨rfl, fun _ hno => absurd hopen hno⟩
    refine hentry.mono ?_ ?_
    · rintro r s' ⟨hs', hr⟩
      rw [ends_bind]
      refine (ih s').mono ?_ ?_
      · rintro rs s'' ⟨hs'', hrs⟩
        rw [hs'] at hrs hs''
        exact ⟨hs'', List.Forall₂.cons hr hrs⟩
      · rintro e ⟨he, fd', hmem, hopen⟩
        rw [hs'] at hopen
        exact ⟨he, fd', List.mem_cons_of_mem _ hmem, hopen⟩
    · rintro e ⟨he, hopen⟩
      exact ⟨he, fd, List.mem_cons_self, hopen⟩

/-! ## Choosing a descriptor -/

section

variable [DecidableEq P]

/-- The choice of `fd_duplicate` keeps within the table, from 0 on and without an overflow. -/
theorem allocateFor_ends {newfd : ℤ} {flags : DupeFlags}
    (h : -1 ≤ newfd ∧ (flags.minimum = false → newfd + 4 ≤ intMax)) :
    (allocateFor p newfd flags).Ends env s
      (fun r s' => ∀ fd, r = .ok fd → 0 ≤ fd ∧ fd < (s'.procs p).fdCap) (fun _ => False) := by
  rw [allocateFor, ends_ite]
  refine ⟨fun _ => ?_, fun hne => ?_⟩
  · refine fdAllocateNext_ends.imp ?_
    rintro r s' hr fd rfl
    exact ⟨hr.2.1, hr.2.2.1⟩
  · rw [ends_ite]
    refine ⟨fun _ => ?_, fun hmin => ?_⟩
    · refine (fdAllocateMin_ends (by omega)).imp ?_
      rintro r s' hr fd rfl
      exact ⟨hr.2.1, hr.2.2.1⟩
    · have hmax := h.2 (by simpa using hmin)
      refine (fdAllocateAt_ends (by omega) hmax).imp ?_
      rintro r s' hr fd rfl
      obtain ⟨rfl, ⟨_, hr⟩ | ⟨_, hr⟩⟩ := hr
      · exact ⟨hr.2.1, hr.2.2.1⟩
      · exact ⟨hr.2.1, hr.2.2.1⟩

theorem allocateFor_fails {newfd : ℤ} {flags : DupeFlags}
    (h : ¬ (-1 ≤ newfd ∧ (flags.minimum = false → newfd + 4 ≤ intMax))) :
    (allocateFor p newfd flags).Ends env s (fun _ _ => False) (fun e => e ≠ .crash) := by
  have hcap := (s.procs p).fdCap_le
  have hcap0 := (s.procs p).fdCap_nonneg
  have hne : newfd ≠ -1 := by
    rintro rfl
    refine h ⟨le_refl _, fun _ => ?_⟩
    rw [intMax]
    decide
  have hout : ∀ i : ℤ, Failure.outOfRange i ≠ .crash := by
    intro i hi
    cases hi
  rw [allocateFor, if_neg hne]
  by_cases hneg : newfd < 0
  · by_cases hmin : flags.minimum = true
    · rw [if_pos hmin, fdAllocateMin, Prog.loop, ends_bind, allocateMinRound, ends_bind,
        findFreeFrom, ends_bind, ends_getProc]
      have hfuel : ((s.procs p).fdCap - newfd).toNat =
          ((s.procs p).fdCap - newfd).toNat - 1 + 1 := by omega
      rw [hfuel, findFree, ends_bind, ends_readSlot]
      refine ⟨fun h => ?_, fun _ => hout _⟩
      omega
    · rw [if_neg hmin, fdAllocateAt, ends_bind, ends_getProc, if_neg (by omega), takeSlot,
        ends_bind, closeOld, ends_bind, ends_readSlot]
      refine ⟨fun h => ?_, fun _ => hout _⟩
      omega
  · have hover : flags.minimum = false ∧ ¬ newfd + 4 ≤ intMax := by
      by_contra hno
      refine h ⟨by omega, fun hmin => ?_⟩
      by_contra hle
      exact hno ⟨hmin, hle⟩
    have hmax : intMax = 2147483647 := by
      rw [intMax]
      rfl
    rw [if_neg (by rw [hover.1]; decide), fdAllocateAt, ends_bind, ends_getProc,
      if_pos (by omega), ends_bind, ends_addInt]
    refine ⟨fun hle => absurd hle hover.2, fun _ hover => ?_⟩
    cases hover

theorem fdDuplicate_iff {oldfd newfd : ℤ} {flags : DupeFlags}
    {Q : Except Status ℤ → Kernel P → Prop} {R : Failure → Prop}
    (hR : ∀ e, R e ↔ e = .crash ∧ (s.procs p).Opened oldfd)
    (hQ : ∀ r s', (s.procs p).Opened oldfd → Q r s') (hbad : Q (.error .badf) s) :
    (fdDuplicate p oldfd newfd flags).Ends env s Q R ↔ (s.procs p).Reads oldfd ∧
      ((s.procs p).Opened oldfd → ¬ (flags.minimum = false ∧ oldfd = newfd) →
        -1 ≤ newfd ∧ (flags.minimum = false → newfd + 4 ≤ intMax)) := by
  rw [fdDuplicate, ends_bind, ends_lookup_iff]
  · refine and_congr_right (fun _ => ?_)
    constructor
    · intro h hopen hne
      obtain ⟨desc, hdesc⟩ := hopen.get
      have hrun := h desc hopen hdesc
      dsimp only at hrun
      rw [if_neg hne, ends_bind] at hrun
      by_contra hrange
      have hfail : (allocateFor p newfd flags).Ends env s (fun _ _ => False) (fun _ => False) :=
        (hrun.and (allocateFor_fails hrange)).mono (fun _ _ h => h.2)
          (fun e he => he.2 ((hR e).mp he.1).1)
      obtain ⟨_, _, _, hfalse⟩ := hfail.exists_ok
      exact hfalse
    · intro h desc hopen hdesc
      dsimp only
      rw [ends_ite]
      refine ⟨fun _ => hQ _ _ hopen, fun hne => ?_⟩
      rw [ends_bind]
      refine (allocateFor_ends (h hopen hne)).mono ?_ (fun _ hfalse => hfalse.elim)
      intro r s' hr
      cases r with
      | error e => exact hQ _ _ hopen
      | ok fd =>
        simp only [ends_bind]
        obtain ⟨h0, hlt⟩ := hr fd rfl
        refine (fdAssign_ends h0 hlt desc flags).mono (fun _ _ _ => hQ _ _ hopen) ?_
        rintro e ⟨he, _⟩
        exact (hR e).mpr ⟨he, hopen⟩
  · intro h
    cases ((hR _).mp h).1
  · intro _
    exact hbad

/-! ## Closing and marking -/

theorem sysClose_iff {fd : ℤ} {Q : Except Status ℤ → Kernel P → Prop} {R : Failure → Prop}
    (hR : ∀ e, R e ↔ e = .crash ∧ (s.procs p).Opened fd)
    (hQ : ∀ r s', (s.procs p).Opened fd → Q r s') (hbad : Q (.error .badf) s) :
    (sysClose p fd).Ends env s Q R ↔ (s.procs p).Reads fd := by
  rw [sysClose, ends_bind]
  refine ends_lookup_reads hR hbad ?_
  intro desc hopen hdesc
  simp only [ends_bind, ends_pure]
  exact (fdClose_ends hopen.1 hopen.2.1 hdesc).mono (fun _ _ _ => hQ _ _ hopen)
    (fun _ hfalse => hfalse.elim)

theorem setFd_iff {fd : ℤ} {arg : ℕ} {Q : Except Status ℤ → Kernel P → Prop}
    {R : Failure → Prop} (hR : ∀ e, R e ↔ e = .crash ∧ (s.procs p).Opened fd)
    (hQ : ∀ r s', (s.procs p).Opened fd → Q r s') (hbad : Q (.error .badf) s) :
    (setFd p fd arg).Ends env s Q R ↔ (s.procs p).Reads fd := by
  rw [setFd, ends_bind]
  refine ends_lookup_reads hR hbad ?_
  intro desc hopen _
  dsimp only
  rw [ends_ite, ends_bind, ends_writeSlot]
  refine ⟨fun _ => ⟨fun _ => hQ _ _ hopen, fun h => absurd ⟨hopen.1, hopen.2.1⟩ h⟩,
    fun _ => hQ _ _ hopen⟩

/-! ## All calls -/

theorem Call.rejects_of_opened {call : Call} {proc : Process} {fd : ℤ}
    (hnames : call.names = [fd]) (hopen : proc.Opened fd) (r : Except Status ℤ) :
    call.Rejects proc (.result r) := by
  rintro ⟨fd', hmem, hno⟩
  rw [hnames, List.mem_singleton] at hmem
  exact absurd (hmem ▸ hopen) hno

theorem Call.rejects_error (call : Call) (proc : Process) (e : Status) :
    call.Rejects proc (.result (.error e)) := fun _ => ⟨e, rfl⟩

theorem Call.crash_iff {call : Call} {proc : Process} {fd : ℤ} (hnames : call.names = [fd])
    (e : Failure) : (e = .crash ∧ ∃ fd' ∈ call.names, proc.Opened fd') ↔
      e = .crash ∧ proc.Opened fd := by
  rw [hnames]
  simp

/-- **Descriptor indices.**  A call keeps within the table, does not overflow and rejects what is
not open if and only if no negative value reaches `fd_safe_get` while there is a table, and a
new descriptor asked for is -1 or more and far enough below `INT_MAX`. -/
theorem call_safe_iff (call : Call) (p : P) (env : Env) (s : Kernel P) :
    call.Safe p env s ↔ call.InRange (s.procs p) := by
  cases call with
  | close fd =>
    have hnames : (Call.close fd).names = [fd.val] := rfl
    rw [Call.Safe, Call.run, ends_map]
    exact sysClose_iff (Call.crash_iff hnames) (fun r _ h => Call.rejects_of_opened hnames h r)
      (Call.rejects_error _ _ _)
  | read fd =>
    have hnames : (Call.read fd).names = [fd.val] := rfl
    rw [Call.Safe, Call.run, ends_map]
    exact withFile_iff (Call.crash_iff hnames) (fun r _ h => Call.rejects_of_opened hnames h r)
      (Call.rejects_error _ _ _)
  | write fd =>
    have hnames : (Call.write fd).names = [fd.val] := rfl
    rw [Call.Safe, Call.run, ends_map]
    exact withFile_iff (Call.crash_iff hnames) (fun r _ h => Call.rejects_of_opened hnames h r)
      (Call.rejects_error _ _ _)
  | dup fd =>
    have hnames : (Call.dup fd).names = [fd.val] := rfl
    rw [Call.Safe, Call.run, ends_map, sysDup, fdDuplicate_iff (Call.crash_iff hnames)
      (fun r _ h => Call.rejects_of_opened hnames h r) (Call.rejects_error _ _ _)]
    refine ⟨fun h => h.1, fun h => ⟨h, fun _ _ => ⟨le_refl _, fun _ => ?_⟩⟩⟩
    rw [intMax]
    decide
  | dup2 oldfd newfd =>
    have hnames : (Call.dup2 oldfd newfd).names = [oldfd.val] := rfl
    rw [Call.Safe, Call.run, ends_map, sysDup2, fdDuplicate_iff (Call.crash_iff hnames)
      (fun r _ h => Call.rejects_of_opened hnames h r) (Call.rejects_error _ _ _)]
    refine and_congr_right (fun _ => forall_congr' (fun _ => ?_))
    constructor
    · intro h hne
      have := h (fun heq => hne (Subtype.ext heq.2))
      exact ⟨this.1, this.2 rfl⟩
    · intro h hne
      have := h (fun heq => hne ⟨rfl, congrArg Subtype.val heq⟩)
      exact ⟨this.1, fun _ => this.2⟩
  | fcntl fd op arg =>
    have hnames : (Call.fcntl fd op arg).names = [fd.val] := rfl
    rw [Call.Safe, Call.run, ends_map]
    cases op with
    | dupfd =>
      rw [sysFcntl, fdDuplicate_iff (Call.crash_iff hnames)
        (fun r _ h => Call.rejects_of_opened hnames h r) (Call.rejects_error _ _ _)]
      refine and_congr_right (fun _ => forall_congr' (fun _ => ?_))
      refine ⟨fun h => (h (fun hmin => by cases hmin.1)).1, fun h _ => ⟨h, fun hmin => ?_⟩⟩
      cases hmin
    | dupfdCloexec =>
      rw [sysFcntl, fdDuplicate_iff (Call.crash_iff hnames)
        (fun r _ h => Call.rejects_of_opened hnames h r) (Call.rejects_error _ _ _)]
      refine and_congr_right (fun _ => forall_congr' (fun _ => ?_))
      refine ⟨fun h => (h (fun hmin => by cases hmin.1)).1, fun h _ => ⟨h, fun hmin => ?_⟩⟩
      cases hmin
    | getfd =>
      exact withDesc_iff (Call.crash_iff hnames) (fun r _ h => Call.rejects_of_opened hnames h r)
        (Call.rejects_error _ _ _)
    | setfd =>
      exact setFd_iff (Call.crash_iff hnames) (fun r _ h => Call.rejects_of_opened hnames h r)
        (Call.rejects_error _ _ _)
    | getfl =>
      exact withFile_iff (Call.crash_iff hnames) (fun r _ h => Call.rejects_of_opened hnames h r)
        (Call.rejects_error _ _ _)
    | setfl =>
      exact withFile_iff (Call.crash_iff hnames) (fun r _ h => Call.rejects_of_opened hnames h r)
        (Call.rejects_error _ _ _)
    | other => exact ⟨fun _ => trivial, fun _ => Call.rejects_error _ _ _⟩
  | seek fd =>
    have hnames : (Call.seek fd).names = [fd.val] := rfl
    rw [Call.Safe, Call.run, ends_map]
    exact withDesc_iff (Call.crash_iff hnames) (fun r _ h => Call.rejects_of_opened hnames h r)
      (Call.rejects_error _ _ _)
  | poll fds =>
    refine ⟨fun _ => trivial, fun _ => ?_⟩
    rw [Call.Safe, Call.run, ends_map]
    refine (sysPoll_ends _ s).mono ?_ ?_
    · rintro rs s' ⟨_, hrs⟩
      exact List.forall₂_map_left_iff.mp hrs
    · rintro e ⟨he, fd, hmem, hopen⟩
      refine ⟨he, fd, ?_, hopen⟩
      simp only [Call.names, List.mem_filter]
      exact ⟨hmem, decide_eq_true hopen.1⟩
  | mmap anonymous fd =>
    rw [Call.Safe, Call.run, ends_map, sysMmap]
    cases anonymous with
    | true =>
      refine ⟨fun _ => Or.inl rfl, fun _ => ?_⟩
      rintro ⟨fd', hmem, _⟩
      exact absurd hmem List.not_mem_nil
    | false =>
      have hnames : (Call.mmap false fd).names = [(CInt.ofLong fd).val] := rfl
      refine (withFile_iff (Call.crash_iff hnames)
        (fun r _ h => Call.rejects_of_opened hnames h r) (Call.rejects_error _ _ _)).trans ?_
      exact ⟨Or.inr, fun h => h.resolve_left Bool.false_ne_true⟩

/-- A process with one open descriptor. -/
def oneOpen : Kernel Unit where
  procs := fun _ => ⟨some [some ⟨some 0, false⟩, none, none, none], by decide +kernel⟩
  files := fun _ => ⟨1, 0⟩
  nextFile := 1
  allocs := []

theorem intMax_eq : intMax = 2147483647 := by
  rw [intMax]
  rfl

theorem opened_oneOpen : (oneOpen.procs ()).Opened 0 := by
  refine ⟨le_refl _, ?_, rfl⟩
  decide +kernel

/-- **Counterexample.**  `close(-1)` reads before the table of such a process, so does
`fcntl(0, F_DUPFD, -2)`, and `dup2(0, INT_MAX)` overflows. -/
theorem negative_index_unsafe :
    ¬ (Call.close ⟨-1, by rw [intMax_eq]; decide⟩).Safe () (fun _ => .ok 0) oneOpen ∧
    ¬ (Call.fcntl ⟨0, by rw [intMax_eq]; decide⟩ .dupfd (2 ^ 64 - 2)).Safe () (fun _ => .ok 0)
      oneOpen ∧
    ¬ (Call.dup2 ⟨0, by rw [intMax_eq]; decide⟩ ⟨intMax, by rw [intMax_eq]; decide⟩).Safe ()
      (fun _ => .ok 0) oneOpen := by
  refine ⟨?_, ?_, ?_⟩
  · intro h
    rw [Call.Safe, Call.run, ends_map, sysClose_iff (Call.crash_iff rfl)
      (fun r _ h => Call.rejects_of_opened rfl h r) (Call.rejects_error _ _ _)] at h
    rcases h with h | h
    · cases h
    · exact absurd h (by decide)
  · intro h
    rw [Call.Safe, Call.run, ends_map, sysFcntl, fdDuplicate_iff (Call.crash_iff rfl)
      (fun r _ h => Call.rejects_of_opened rfl h r) (Call.rejects_error _ _ _)] at h
    have hmin := (h.2 opened_oneOpen (fun hno => by cases hno.1)).1
    exact absurd hmin (by decide +kernel)
  · intro h
    rw [Call.Safe, Call.run, ends_map, sysDup2, fdDuplicate_iff (Call.crash_iff rfl)
      (fun r _ h => Call.rejects_of_opened rfl h r) (Call.rejects_error _ _ _)] at h
    have hmax := (h.2 opened_oneOpen (fun hno => by
      have := hno.2
      simp only [intMax_eq] at this
      omega)).2 rfl
    have hle : intMax + 4 ≤ intMax := hmax
    omega

end

end FileTable
