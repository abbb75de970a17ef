/-
# Runs of the job control calls

Each call of `core/jobctl.c`, `fork` and the destruction of a process keep the registry, as long as
no `setpgid` makes a group and no process leaves a group as its last member.
-/
import YakKernel.JobCtlRegistry

namespace JobCtl

variable {s s' : State} {p g n k : ℕ} {pgrp : Pgrp} {session : Session} {xg xs : ℕ → ℕ}

/-! ## Leaving and entering -/

/-- The process is the only member of its group. -/
def State.lastMember (s : State) (p : ℕ) : Bool :=
  ((s.pgrpOf p).bind s.pgrps).any fun pgrp => decide (pgrp.members = [p])

/-- The process leads its session. -/
def State.leadsSession (s : State) (p : ℕ) : Bool :=
  ((s.sessionOf p).bind s.sessions).any fun session => decide (session.sid = p)

/-- The process leads its group. -/
def State.leadsPgrp (s : State) (p : ℕ) : Bool :=
  ((s.pgrpOf p).bind s.pgrps).any fun pgrp => decide (pgrp.pgid = p)

theorem members_ne_of_lastMember (h : s.lastMember p = false) (hp : s.pgrpOf p = some g)
    (hg : s.pgrps g = some pgrp) : pgrp.members ≠ [p] := by
  simpa [State.lastMember, hp, hg] using h

theorem Coherent.session_of_pgrp (h : Coherent s xg xs) (hg : s.pgrps g = some pgrp) :
    ∃ session, s.sessions pgrp.session = some session ∧ g ∈ session.pgrps := by
  have howner : s.groupSession g = some pgrp.session := by
    simp [State.groupSession, hg]
  obtain ⟨session, hsession⟩ := h.sessionPgrps.exists_owner g _ howner
  exact ⟨session, hsession, (h.sessionPgrps.mem_iff _ _ hsession g).2 howner⟩

/-- `pgrp_remove` and then `session_remove` of a process that is not the last of its group. -/
theorem remove_both_spec (h : Coherent s xg xs) (hp : (s.pgrpOf p).isSome)
    (hlast : s.lastMember p = false) :
    ∃ s₁ s₂, pgrpRemove s p = .ok s₁ ∧ (s₁.sessionOf p).isSome ∧ sessionRemove s₁ p = .ok s₂ ∧
      Coherent s₂ xg xs ∧ Frame s s₂ ∧ s.SameTables s₂ ∧
      s₂.pgrpOf = Function.update s.pgrpOf p none ∧
      s₂.sessionOf = Function.update s.sessionOf p none := by
  obtain ⟨g, hg⟩ := Option.isSome_iff_exists.1 hp
  obtain ⟨pgrp, hpgrp⟩ := h.groups.exists_owner p g hg
  obtain ⟨s₁, hrun₁, h₁, hframe₁, ⟨hpgid₁, hsid₁, hpid₁, haddr₁⟩, hpgrpOf₁, hsessionOf₁⟩ :=
    pgrpRemove_spec h hg hpgrp (members_ne_of_lastMember hlast hg hpgrp)
  obtain ⟨pgrp₁, hpgrp₁, -, hsession₁⟩ := hframe₁.pgrp g pgrp hpgrp
  obtain ⟨session, hsession, hmem⟩ := h₁.session_of_pgrp hpgrp₁
  have hp₁ : s₁.sessionOf p = some pgrp₁.session := by
    rw [hsessionOf₁, hsession₁]
    exact h.same p g pgrp hg hpgrp
  obtain ⟨s₂, hrun₂, h₂, hframe₂, ⟨hpgid₂, hsid₂, hpid₂, haddr₂⟩, hsessionOf₂, hpgrpOf₂⟩ :=
    sessionRemove_spec h₁ hp₁ (by rw [hpgrpOf₁, Function.update_self]) hsession
      (List.ne_nil_of_mem hmem)
  exact ⟨s₁, s₂, hrun₁, by rw [hp₁]; rfl, hrun₂, h₂, hframe₁.trans hframe₂,
    ⟨hpgid₂.trans hpgid₁, hsid₂.trans hsid₁, hpid₂.trans hpid₁, haddr₂.trans haddr₁⟩,
    hpgrpOf₂.trans hpgrpOf₁, by rw [hsessionOf₂, hsessionOf₁]⟩

theorem leaveOld_spec (h : Coherent s xg xs)
    (hold : (s.pgrpOf p = none ∧ s.sessionOf p = none) ∨
      ((s.pgrpOf p).isSome ∧ s.lastMember p = false)) :
    ∃ s', leaveOld s p = .ok s' ∧ Coherent s' xg xs ∧ Frame s s' ∧ s.SameTables s' ∧
      s'.pgrpOf = Function.update s.pgrpOf p none ∧
      s'.sessionOf = Function.update s.sessionOf p none := by
  rcases hold with ⟨hpgrp, hsession⟩ | ⟨hp, hlast⟩
  · refine ⟨s, ?_, h, .refl s, ⟨rfl, rfl, rfl, rfl⟩, ?_, ?_⟩
    · simp [leaveOld, hpgrp, hsession, bind, Except.bind]
    · exact (Function.update_eq_self_iff.2 hpgrp.symm).symm
    · exact (Function.update_eq_self_iff.2 hsession.symm).symm
  · obtain ⟨s₁, s₂, hrun₁, hp₁, hrun₂, hrest⟩ := remove_both_spec h hp hlast
    refine ⟨s₂, ?_, hrest⟩
    simp [leaveOld, hp, hrun₁, hp₁, hrun₂, bind, Except.bind]

/-- **Entering a new session.**  With all entries made, the temporary references go. -/
theorem enterNew_spec (h : Coherent s xg xs) (allocs : Allocs) (hproc : (s.procs p).isSome)
    (hold : (s.pgrpOf p = none ∧ s.sessionOf p = none) ∨
      ((s.pgrpOf p).isSome ∧ s.lastMember p = false))
    (hg : s.pgrps g = some pgrp) (hpgid : pgrp.pgid = p) (hpgrpSession : pgrp.session = n)
    (hn : s.sessions n = some session) (hsid : session.sid = p)
    (hkey : s.pgidTable p = none ∧ s.sidTable p = none) (hxg : xg g = 1) (hxs : xs n = 1)
    (hallocs : allocs.sidEntry = true ∧ allocs.pgidEntry = true) :
    ∃ s', enterNew s p n g allocs = .ok s' ∧
      Coherent s' (Function.update xg g 0) (Function.update xs n 0) ∧ Frame s s' ∧
      s'.pgrpOf = Function.update s.pgrpOf p (some g) ∧
      s'.sessionOf = Function.update s.sessionOf p (some n) := by
  obtain ⟨s₁, hrun₁, h₁, hframe₁, ⟨hpgid₁, hsid₁, hpid₁, haddr₁⟩, hpgrpOf₁, hsessionOf₁⟩ :=
    leaveOld_spec h hold
  obtain ⟨session₁, hn₁, hid₁⟩ := hframe₁.session n session hn
  have hnone₁ : s₁.pgrpOf p = none := by rw [hpgrpOf₁, Function.update_self]
  obtain ⟨s₂, hrun₂, h₂, hframe₂, ⟨hpgid₂, hsid₂, hpid₂, haddr₂⟩, hsessionOf₂, hpgrpOf₂⟩ :=
    sessionInsert_spec h₁ ((hframe₁.isSome_eq p).trans hproc)
      (by rw [hsessionOf₁, Function.update_self]) hnone₁ hn₁
      (by rw [hpgid₁, hsid₁]; exact hkey)
  have hframe₁₂ := hframe₁.trans hframe₂
  obtain ⟨pgrp₂, hg₂, hid₂, hpgrpSession₂⟩ := hframe₁₂.pgrp g pgrp hg
  have hin₂ : s₂.sessionOf p = some n := by rw [hsessionOf₂, Function.update_self]
  obtain ⟨s₃, hrun₃, h₃, hframe₃, ⟨hpgid₃, hsid₃, hpid₃, haddr₃⟩, hpgrpOf₃, hsessionOf₃⟩ :=
    pgrpInsert_spec h₂ ((hframe₁₂.isSome_eq p).trans hproc) (by rw [hpgrpOf₂, hnone₁]) hg₂
      (by rw [hin₂, hpgrpSession₂, hpgrpSession])
  have hframe₁₃ := hframe₁₂.trans hframe₃
  obtain ⟨session₃, hn₃, hid₃⟩ := hframe₁₃.session n session hn
  obtain ⟨pgrp₃, hg₃, hidg₃, hpgrpSession₃⟩ := hframe₁₃.pgrp g pgrp hg
  have hin₃ : s₃.sessionOf p = some n := by rw [hsessionOf₃, hin₂]
  have hsid₃' : session₃.sid = p := hid₃.trans hsid
  have hpgid₃' : pgrp₃.pgid = p := hidg₃.trans hpgid
  have hfreeSid : s₃.sidTable session₃.sid = none := by
    rw [hsid₃, hsid₂, hsid₁, hsid₃']
    exact hkey.2
  have hfreePgid : s₃.pgidTable pgrp₃.pgid = none := by
    rw [hpgid₃, hpgid₂, hpgid₁, hpgid₃']
    exact hkey.1
  obtain ⟨hrun₄, h₄⟩ := insertSid_spec h₃ hn₃ hfreeSid (by rw [hsid₃', hin₃])
  obtain ⟨hrun₅, h₅⟩ := insertPgrp_spec h₄ hg₃ hfreePgid hn₃ (by rw [hpgid₃']; exact hin₃)
    (hsid₃'.trans hpgid₃'.symm)
  -- the group is on the list of the session, and the process on that of the group
  have hlisted : session₃.pgrps ≠ [] := by
    apply List.ne_nil_of_mem
    refine (h₃.sessionPgrps.mem_iff n session₃ hn₃ g).2 ?_
    simp [State.groupSession, hg₃, hpgrpSession₃, hpgrpSession]
  have hmember : pgrp₃.members ≠ [] := by
    apply List.ne_nil_of_mem
    refine (h₃.groups.mem_iff g pgrp₃ hg₃ p).2 ?_
    rw [hpgrpOf₃, Function.update_self]
  obtain ⟨s₆, hrun₆, h₆, hframe₆, ⟨hpgid₆, hsid₆, hpid₆, haddr₆⟩, hsessionOf₆, hpgrpOf₆, hpgrps₆⟩ :=
    sessionDeref_spec h₅ hn₃ hxs hlisted (Function.update_self ..)
  have hg₆ : s₆.pgrps g = some pgrp₃ := by
    rw [hpgrps₆]
    exact hg₃
  obtain ⟨s₇, hrun₇, h₇, hframe₇, -, hsessionOf₇, hpgrpOf₇⟩ :=
    pgrpDeref_spec h₆ hg₆ hxg hmember (by rw [hpgid₆]; exact Function.update_self ..)
  refine ⟨s₇, ?_, h₇, ?_, ?_, ?_⟩
  · simp [enterNew, hrun₁, hrun₂, hrun₃, hallocs, hrun₄, hrun₅, hrun₆, hrun₇, bind, Except.bind]
  · have hframe₃₅ : Frame s₃ { s₃ with
        sidTable := Function.update s₃.sidTable session₃.sid (some n)
        pgidTable := Function.update s₃.pgidTable pgrp₃.pgid (some g) } :=
      ⟨(Frame.refl s₃).pgrp, (Frame.refl s₃).session, fun _ => rfl⟩
    exact ((hframe₁₃.trans hframe₃₅).trans hframe₆).trans hframe₇
  · rw [hpgrpOf₇, hpgrpOf₆]
    show s₃.pgrpOf = _
    rw [hpgrpOf₃, hpgrpOf₂, hpgrpOf₁, Function.update_idem]
  · rw [hsessionOf₇, hsessionOf₆]
    show s₃.sessionOf = _
    rw [hsessionOf₃, hsessionOf₂, hsessionOf₁, Function.update_idem]

/-! ## Every process is placed -/

/-- Every process has a group and a session. -/
def State.Placed (s : State) : Prop :=
  ∀ p, (s.procs p).isSome → (s.pgrpOf p).isSome ∧ (s.sessionOf p).isSome

/-- What holds between the calls. -/
structure Registered (s : State) : Prop where
  coherent : Coherent s (fun _ => 0) (fun _ => 0)
  placed : s.Placed

theorem update_update_zero (a x : ℕ) :
    Function.update (Function.update (fun _ : ℕ => 0) a x) a 0 = fun _ => 0 := by
  funext b
  by_cases hb : b = a
  · simp [hb]
  · simp [hb]

theorem State.Placed.update (h : s.Placed) (hframe : Frame s s')
    (hpgrp : s'.pgrpOf = Function.update s.pgrpOf p (some g))
    (hsession : s'.sessionOf = Function.update s.sessionOf p (some n)) : s'.Placed := by
  intro q hq
  rw [hpgrp, hsession]
  by_cases hqp : q = p
  · simp [hqp]
  · rw [Function.update_of_ne hqp, Function.update_of_ne hqp]
    exact h q (hframe.isSome_eq q ▸ hq)

theorem Coherent.halt (h : Coherent s xg xs) : Coherent { s with halted := true } xg xs :=
  ⟨h.1, h.2, h.3, h.4, h.5, h.6, h.7, h.8, h.9, h.10, h.11, h.12, h.13, h.14⟩

theorem Registered.halt (h : Registered s) : Registered { s with halted := true } :=
  ⟨h.coherent.halt, h.placed⟩

/-! ## setsid -/

theorem Coherent.no_entry (h : Coherent s xg xs) (hleads : s.leadsSession p = false)
    (hp : s.sessionOf p = some n) : s.pgidTable p = none ∧ s.sidTable p = none := by
  obtain ⟨session, hsession⟩ := h.sessionMembers.exists_owner p n hp
  have hsid : session.sid ≠ p := by
    simpa [State.leadsSession, hp, hsession] using hleads
  constructor
  · by_contra hne
    exact hsid (h.leader p n session (.inl hne) hp hsession)
  · by_contra hne
    exact hsid (h.leader p n session (.inr hne) hp hsession)

theorem isLeader_eq (h : Coherent s xg xs) (hp : (s.sessionOf p).isSome → (s.pgrpOf p).isSome) :
    isLeader s p = .ok ((s.sessionOf p).isSome && (s.leadsSession p || s.leadsPgrp p)) := by
  cases hn : s.sessionOf p with
  | none => simp [isLeader, hn]
  | some n =>
    obtain ⟨session, hsession⟩ := h.sessionMembers.exists_owner p n hn
    obtain ⟨g, hg⟩ := Option.isSome_iff_exists.1 (hp (by rw [hn]; rfl))
    obtain ⟨pgrp, hpgrp⟩ := h.groups.exists_owner p g hg
    by_cases hsid : session.sid = p
    · simp [isLeader, hn, hsession, hsid, State.leadsSession]
    · simp [isLeader, hn, hsession, hsid, hg, hpgrp, State.leadsSession, State.leadsPgrp]

/-- **`setsid`** of a process that leads nothing, with all it allocates. -/
theorem jobctlSetsid_spec (h : Coherent s (fun _ => 0) (fun _ => 0)) (process : Process)
    (hproc : s.procs p = some process)
    (hold : (s.pgrpOf p = none ∧ s.sessionOf p = none) ∨
      ((s.pgrpOf p).isSome ∧ s.lastMember p = false))
    (hleads : isLeader s p = .ok false) (hppid : process.session = none → process.ppid = 0)
    (hkey : s.pgidTable p = none ∧ s.sidTable p = none) :
    ∃ s' n g, jobctlSetsid s p ⟨true, true, true, true⟩ = .ok (.success, s') ∧
      Coherent s' (fun _ => 0) (fun _ => 0) ∧ Frame s s' ∧
      s'.pgrpOf = Function.update s.pgrpOf p (some g) ∧
      s'.sessionOf = Function.update s.sessionOf p (some n) := by
  have h₁ := h.withSession p
  have hn₁ : (s.withSession p).sessions s.nextAddr =
      some { sid := p, refcount := 1, members := [], pgrps := [] } := Function.update_self ..
  have h₂ := h₁.withPgrp p hn₁
  generalize hs₂ : (s.withSession p).withPgrp s.nextAddr p
    { sid := p, refcount := 1, members := [], pgrps := [] } = s₂ at h₂
  have hframe : Frame s s₂ := hs₂ ▸ (frame_withSession h p).trans (frame_withPgrp h₁ p hn₁)
  have hlast : s₂.lastMember p = s.lastMember p := by
    subst hs₂
    cases hg : s.pgrpOf p with
    | none =>
      have hg' : ((s.withSession p).withPgrp s.nextAddr p
        { sid := p, refcount := 1, members := [], pgrps := [] }).pgrpOf p = none := hg
      rw [State.lastMember, State.lastMember, hg, hg']
      rfl
    | some g =>
      have hne : g ≠ s.nextAddr + 1 := by
        obtain ⟨pgrp, hpgrp⟩ := h.groups.exists_owner p g hg
        have hlt := h.addrBound g (.inl (by rw [hpgrp]; rfl))
        omega
      have hg' : ((s.withSession p).withPgrp s.nextAddr p
        { sid := p, refcount := 1, members := [], pgrps := [] }).pgrpOf p = some g := hg
      rw [State.lastMember, State.lastMember, hg, hg', Option.bind_some, Option.bind_some]
      congr 1
      exact Function.update_of_ne hne ..
  obtain ⟨s', hrun, h', hframe', hpgrpOf, hsessionOf⟩ := enterNew_spec h₂
    ⟨true, true, true, true⟩ (p := p) (n := s.nextAddr) (g := s.nextAddr + 1)
    (by rw [hframe.isSome_eq, hproc]; rfl) (by
      rw [hlast]
      subst hs₂
      exact hold)
    (by subst hs₂; exact Function.update_self ..) rfl rfl
    (by subst hs₂; exact Function.update_self ..) rfl (by subst hs₂; exact hkey)
    (by exact Function.update_self ..) (by exact Function.update_self ..)
    ⟨rfl, rfl⟩
  have hcreate : sessionCreate s p true = (some s.nextAddr, s.withSession p) := rfl
  have hcreate' : pgrpCreate (s.withSession p) s.nextAddr p true =
      .ok (some (s.nextAddr + 1), s₂) := by
    rw [pgrpCreate, hn₁, ← hs₂]
    rfl
  refine ⟨s', s.nextAddr, s.nextAddr + 1, ?_, ?_, hframe.trans hframe', ?_, ?_⟩
  · have hassert : ¬ (process.session = none ∧ process.ppid ≠ 0) := by
      rintro ⟨hnone, hne⟩
      exact hne (hppid hnone)
    simp [jobctlSetsid, hleads, hproc, hassert, hcreate, hcreate', hrun, bind, Except.bind, pure,
      Except.pure]
  · have hxg := update_update_zero (s.nextAddr + 1) 1
    have hxs := update_update_zero s.nextAddr 1
    rw [hxs, show (s.withSession p).nextAddr = s.nextAddr + 1 from rfl, hxg] at h'
    exact h'
  · rw [hpgrpOf, ← hs₂]
    rfl
  · rw [hsessionOf, ← hs₂]
    rfl

/-- `setsid` without memory for the group frees the new session, and the kernel panics. -/
theorem sessionDeref_withSession (h : Coherent s xg xs) :
    ∃ s', sessionDeref (s.withSession p) s.nextAddr = .error s' ∧ Coherent s' xg xs ∧
      s'.procs = s.procs := by
  have hn : (s.withSession p).sessions s.nextAddr =
      some { sid := p, refcount := 1, members := [], pgrps := [] } := Function.update_self ..
  refine ⟨{ s with nextAddr := s.nextAddr + 1 }, ?_, ?_, rfl⟩
  · rw [sessionDeref, hn]
    have hsame : Function.update (s.withSession p).sessions s.nextAddr none = s.sessions := by
      rw [State.withSession, Function.update_idem]
      exact Function.update_eq_self_iff.2 h.fresh.2.symm
    simp only [if_true, hsame]
    rfl
  · refine ⟨h.1, h.2, h.3, h.4, h.5, h.6, h.7, h.8, h.9, h.10, h.11, h.12, h.13, ?_⟩
    intro a ha
    have hlt := h.addrBound a ha
    show a < s.nextAddr + 1
    omega

/-! ## fork and process_destroy -/

/-- The memory with a new child that has no place yet. -/
def State.withChild (s : State) (p : ℕ) : State :=
  { s with
    procs := Function.update s.procs s.nextPid
      (some { ppid := p, parentProcess := some p, session := none, pgrp := none })
    nextPid := s.nextPid + 1 }

theorem Coherent.no_process (h : Coherent s xg xs) : s.procs s.nextPid = none := by
  by_contra hne
  exact lt_irrefl _ (h.pidBound _ (Option.isSome_iff_ne_none.2 hne))

theorem pgrpOf_withChild (h : Coherent s xg xs) : (s.withChild p).pgrpOf = s.pgrpOf := by
  funext q
  by_cases hq : q = s.nextPid
  · simp [State.withChild, State.pgrpOf, hq, h.no_process]
  · simp [State.withChild, State.pgrpOf, hq]

theorem sessionOf_withChild (h : Coherent s xg xs) : (s.withChild p).sessionOf = s.sessionOf := by
  funext q
  by_cases hq : q = s.nextPid
  · simp [State.withChild, State.sessionOf, hq, h.no_process]
  · simp [State.withChild, State.sessionOf, hq]

theorem Coherent.withChild (h : Coherent s xg xs) (p : ℕ) : Coherent (s.withChild p) xg xs := by
  have hpgrpOf := pgrpOf_withChild (p := p) h
  have hsessionOf := sessionOf_withChild (p := p) h
  refine ⟨hpgrpOf ▸ h.groups, hsessionOf ▸ h.sessionMembers, h.sessionPgrps, h.pgrpCount,
    h.sessionCount, ?_, h.pgrpEntry, h.sessionEntry, h.pgidLive, h.sidLive, ?_, ?_, ?_,
    h.addrBound⟩
  · rw [hpgrpOf, hsessionOf]
    exact h.same
  · rw [hsessionOf]
    exact h.leader
  · intro q hq
    show q < s.nextPid + 1
    by_cases hqp : q = s.nextPid
    · omega
    · have hlt := h.pidBound q (isSome_of_update hqp hq)
      omega
  · intro a ha
    have hlt := h.entryBound a ha
    show a < s.nextPid + 1
    omega

/-- **`fork`** puts the child into the group and session of its parent. -/
theorem fork_spec (h : Registered s) (hp : (s.procs p).isSome) :
    ∃ s', fork s p true = .ok s' ∧ Registered s' := by
  obtain ⟨parent, hparent⟩ := Option.isSome_iff_exists.1 hp
  obtain ⟨hg, hn⟩ := h.placed p hp
  obtain ⟨g, hg⟩ := Option.isSome_iff_exists.1 hg
  obtain ⟨n, hn⟩ := Option.isSome_iff_exists.1 hn
  have hpgrp : parent.pgrp = some g := by simpa [State.pgrpOf, hparent] using hg
  have hsession : parent.session = some n := by simpa [State.sessionOf, hparent] using hn
  have hc := h.coherent
  have hnone := hc.no_process
  have hpgrpNone : s.pgrpOf s.nextPid = none := by simp [State.pgrpOf, hnone]
  have hsessionNone : s.sessionOf s.nextPid = none := by simp [State.sessionOf, hnone]
  have h₁ := hc.withChild p
  have hpgrpOf₁ := pgrpOf_withChild (p := p) hc
  have hsessionOf₁ := sessionOf_withChild (p := p) hc
  obtain ⟨session, hsess⟩ := hc.sessionMembers.exists_owner p n hn
  obtain ⟨pgrp, hpg⟩ := hc.groups.exists_owner p g hg
  have hfree : s.pgidTable s.nextPid = none ∧ s.sidTable s.nextPid = none := by
    constructor
    · by_contra hne
      exact lt_irrefl _ (hc.entryBound _ (.inl hne))
    · by_contra hne
      exact lt_irrefl _ (hc.entryBound _ (.inr hne))
  have hchild : ((s.withChild p).procs s.nextPid).isSome := by simp [State.withChild]
  obtain ⟨s₂, hrun₂, h₂, hframe₂, -, hsessionOf₂, hpgrpOf₂⟩ := sessionInsert_spec h₁ hchild
    (by rw [hsessionOf₁, hsessionNone]) (by rw [hpgrpOf₁, hpgrpNone]) hsess hfree
  obtain ⟨pgrp₂, hpg₂, -, hpgSession₂⟩ := hframe₂.pgrp g pgrp hpg
  obtain ⟨s₃, hrun₃, h₃, hframe₃, -, hpgrpOf₃, hsessionOf₃⟩ := pgrpInsert_spec h₂
    (by rw [hframe₂.isSome_eq]; exact hchild) (by rw [hpgrpOf₂, hpgrpOf₁, hpgrpNone]) hpg₂ (by
      have hsame := hc.same p g pgrp hg hpg
      rw [hsessionOf₂, Function.update_self, hpgSession₂, ← hsame, hn])
  refine ⟨s₃, ?_, h₃, ?_⟩
  · rw [fork, hparent]
    simp only [hpgrp, hsession]
    rw [if_neg (by decide)]
    show (sessionInsert (s.withChild p) n s.nextPid >>= fun t => pgrpInsert t g s.nextPid) = _
    rw [hrun₂]
    exact hrun₃
  · intro q hq
    rw [hpgrpOf₃, hsessionOf₃, hpgrpOf₂, hsessionOf₂, hpgrpOf₁, hsessionOf₁]
    by_cases hqp : q = s.nextPid
    · simp [hqp]
    · rw [Function.update_of_ne hqp, Function.update_of_ne hqp]
      refine h.placed q ?_
      rw [hframe₃.isSome_eq, hframe₂.isSome_eq] at hq
      exact isSome_of_update hqp hq

/-- The children of a process that goes become those of init. -/
def State.without (s : State) (p : ℕ) : State :=
  { s with procs := fun q =>
    if q = p then none
    else (s.procs q).map (fun child =>
      if child.parentProcess = some p then { child with ppid := 1, parentProcess := some 1 }
      else child) }

theorem pgrpOf_without (hp : s.pgrpOf p = none) : (s.without p).pgrpOf = s.pgrpOf := by
  funext q
  by_cases hq : q = p
  · rw [hq, hp]
    simp [State.without, State.pgrpOf]
  · cases hproc : s.procs q with
    | none => simp [State.without, State.pgrpOf, hq, hproc]
    | some proc =>
      simp only [State.without, State.pgrpOf, hq, if_false, hproc, Option.map_some,
        Option.bind_some]
      split
      · rfl
      · rfl

theorem sessionOf_without (hp : s.sessionOf p = none) : (s.without p).sessionOf = s.sessionOf := by
  funext q
  by_cases hq : q = p
  · rw [hq, hp]
    simp [State.without, State.sessionOf]
  · cases hproc : s.procs q with
    | none => simp [State.without, State.sessionOf, hq, hproc]
    | some proc =>
      simp only [State.without, State.sessionOf, hq, if_false, hproc, Option.map_some,
        Option.bind_some]
      split
      · rfl
      · rfl

theorem isSome_without (q : ℕ) (hq : ((s.without p).procs q).isSome) :
    q ≠ p ∧ (s.procs q).isSome := by
  by_cases hqp : q = p
  · simp [State.without, hqp] at hq
  · refine ⟨hqp, ?_⟩
    simpa [State.without, hqp] using hq

theorem Coherent.without (h : Coherent s xg xs) (hpgrp : s.pgrpOf p = none)
    (hsession : s.sessionOf p = none) : Coherent (s.without p) xg xs := by
  have hpgrpOf := pgrpOf_without hpgrp
  have hsessionOf := sessionOf_without hsession
  refine ⟨hpgrpOf ▸ h.groups, hsessionOf ▸ h.sessionMembers, h.sessionPgrps, h.pgrpCount,
    h.sessionCount, ?_, h.pgrpEntry, h.sessionEntry, h.pgidLive, h.sidLive, ?_, ?_, h.entryBound,
    h.addrBound⟩
  · rw [hpgrpOf, hsessionOf]
    exact h.same
  · rw [hsessionOf]
    exact h.leader
  · exact fun q hq => h.pidBound q (isSome_without q hq).2

/-- **`process_destroy`** of a process that is not the last of its group. -/
theorem processDestroy_spec (h : Registered s) (hp : (s.procs p).isSome) (hinit : p ≠ 0 ∧ p ≠ 1)
    (hlast : s.lastMember p = false) :
    ∃ s', processDestroy s p = .ok s' ∧ Registered s' := by
  obtain ⟨s₁, s₂, hrun₁, -, hrun₂, h₂, hframe₂, -, hpgrpOf₂, hsessionOf₂⟩ :=
    remove_both_spec h.coherent (h.placed p hp).1 hlast
  have hpgrp₂ : s₂.pgrpOf p = none := by rw [hpgrpOf₂, Function.update_self]
  have hsession₂ : s₂.sessionOf p = none := by rw [hsessionOf₂, Function.update_self]
  refine ⟨s₂.without p, ?_, h₂.without hpgrp₂ hsession₂, ?_⟩
  · simp only [processDestroy, hinit.1, hinit.2, or_self, if_false, hrun₁, hrun₂, bind, Except.bind,
      pure, Except.pure]
    rfl
  · intro q hq
    obtain ⟨hqp, hq⟩ := isSome_without q hq
    rw [pgrpOf_without hpgrp₂, sessionOf_without hsession₂, hpgrpOf₂, hsessionOf₂,
      Function.update_of_ne hqp, Function.update_of_ne hqp]
    exact h.placed q (hframe₂.isSome_eq q ▸ hq)

/-! ## setpgid -/

/-- The group with the number is in the process' session. -/
def State.joinable (s : State) (p pgid : ℕ) : Bool :=
  ((s.pgidTable pgid).bind s.pgrps).any fun pgrp => decide (s.sessionOf p = some pgrp.session)

/-- The call makes no group and takes no last member out of one. -/
def State.movesSafely (s : State) (p pgid : ℕ) (alloc : Bool) : Bool :=
  s.leadsSession p || if pgid = 0 ∨ pgid = p then !alloc
    else !(s.joinable p pgid && s.lastMember p)

theorem chosenPgrp_spec (h : Registered s) (hp : (s.procs p).isSome) {pgid : ℕ} {alloc : Bool}
    (hmove : s.movesSafely p pgid alloc = true) :
    chosenPgrp s p pgid alloc = .ok (none, s) ∨
      (∃ g pgrp, chosenPgrp s p pgid alloc = .ok (some g, s) ∧ s.pgrps g = some pgrp ∧
        s.sessionOf p = some pgrp.session ∧ s.lastMember p = false) := by
  obtain ⟨n, hn⟩ := Option.isSome_iff_exists.1 (h.placed p hp).2
  obtain ⟨session, hsession⟩ := h.coherent.sessionMembers.exists_owner p n hn
  have hleads : s.leadsSession p = decide (session.sid = p) := by
    simp [State.leadsSession, hn, hsession]
  by_cases hsid : session.sid = p
  · exact .inl (by simp [chosenPgrp, hn, hsession, hsid])
  · rw [State.movesSafely, hleads] at hmove
    by_cases hown : pgid = 0 ∨ pgid = p
    · have halloc : alloc = false := by simpa [hsid, hown] using hmove
      exact .inl (by simp [chosenPgrp, hn, hsession, hsid, hown, pgrpCreate, halloc])
    · cases hentry : s.pgidTable pgid with
      | none => exact .inl (by simp [chosenPgrp, hn, hsession, hsid, hown, hentry])
      | some g =>
        obtain ⟨pgrp, hpgrp, -⟩ := h.coherent.pgidLive pgid g hentry
        by_cases hsame : pgrp.session = n
        · have hjoin : s.joinable p pgid = true := by
            simp [State.joinable, hentry, hpgrp, hn, hsame]
          have hlast : s.lastMember p = false := by simpa [hsid, hown, hjoin] using hmove
          refine .inr ⟨g, pgrp, ?_, hpgrp, by rw [hn, hsame], hlast⟩
          simp [chosenPgrp, hn, hsession, hsid, hown, hentry, hpgrp, hsame]
        · exact .inl (by simp [chosenPgrp, hn, hsession, hsid, hown, hentry, hpgrp, hsame])

/-- **`setpgid`** that makes no group. -/
theorem jobctlSetpgid_spec (h : Registered s) (hp : (s.procs p).isSome) {pgid : ℕ} {alloc : Bool}
    (hmove : s.movesSafely p pgid alloc = true) :
    ∃ status s', jobctlSetpgid s p pgid alloc = .ok (status, s') ∧ Registered s' := by
  rcases chosenPgrp_spec h hp hmove with hnone | ⟨g, pgrp, hsome, hpgrp, hsame, hlast⟩
  · exact ⟨.permDenied, s, by simp [jobctlSetpgid, hnone, bind, Except.bind, pure, Except.pure], h⟩
  · obtain ⟨hin, hn⟩ := h.placed p hp
    obtain ⟨g₀, hg₀⟩ := Option.isSome_iff_exists.1 hin
    obtain ⟨pgrp₀, hpgrp₀⟩ := h.coherent.groups.exists_owner p g₀ hg₀
    obtain ⟨s₁, hrun₁, h₁, hframe₁, -, hpgrpOf₁, hsessionOf₁⟩ :=
      pgrpRemove_spec h.coherent hg₀ hpgrp₀ (members_ne_of_lastMember hlast hg₀ hpgrp₀)
    obtain ⟨pgrp₁, hpgrp₁, -, hsession₁⟩ := hframe₁.pgrp g pgrp hpgrp
    obtain ⟨s₂, hrun₂, h₂, hframe₂, -, hpgrpOf₂, hsessionOf₂⟩ := pgrpInsert_spec h₁
      ((hframe₁.isSome_eq p).trans hp) (by rw [hpgrpOf₁, Function.update_self]) hpgrp₁
      (by rw [hsessionOf₁, hsession₁, hsame])
    refine ⟨.success, s₂, ?_, h₂, ?_⟩
    · simp [jobctlSetpgid, hsome, hin, hrun₁, hrun₂, bind, Except.bind, pure, Except.pure]
    · intro q hq
      rw [hpgrpOf₂, hsessionOf₂, hpgrpOf₁, hsessionOf₁]
      rw [hframe₂.isSome_eq, hframe₁.isSome_eq] at hq
      by_cases hqp : q = p
      · subst hqp
        simp [hn]
      · rw [Function.update_of_ne hqp, Function.update_of_ne hqp]
        exact h.placed q hq

/-- **`setsid`** of a placed process: refused to a leader, without effect when memory for the
session is missing. -/
theorem setsid_registered (h : Registered s) (hp : (s.procs p).isSome) (allocs : Allocs)
    (hcond : (s.leadsSession p || s.leadsPgrp p || !allocs.session || !allocs.pgrp ||
      (!s.lastMember p && allocs.sidEntry && allocs.pgidEntry)) = true) :
    (∃ status s', jobctlSetsid s p allocs = .ok (status, s') ∧ Registered s') ∨
      ∃ s', jobctlSetsid s p allocs = .error s' ∧ Registered s' := by
  obtain ⟨hg, hn⟩ := h.placed p hp
  obtain ⟨process, hproc⟩ := Option.isSome_iff_exists.1 hp
  have hleader := isLeader_eq h.coherent (p := p) (fun _ => hg)
  rw [hn, Bool.true_and] at hleader
  have hsome : process.session ≠ none := by
    rintro hnone
    simp [State.sessionOf, hproc, hnone] at hn
  by_cases hleads : (s.leadsSession p || s.leadsPgrp p) = true
  · rw [hleads] at hleader
    exact .inl ⟨.permDenied, s, by
      simp [jobctlSetsid, hleader, bind, Except.bind, pure, Except.pure], h⟩
  · rw [Bool.not_eq_true] at hleads
    rw [hleads] at hleader hcond
    cases hsession : allocs.session with
    | false =>
      exact .inl ⟨.oom, s, by
        simp [jobctlSetsid, hleader, hproc, hsome, hsession, sessionCreate, bind, Except.bind, pure,
          Except.pure], h⟩
    | true =>
      have hcreate : sessionCreate s p true = (some s.nextAddr, s.withSession p) := rfl
      cases hpgrp : allocs.pgrp with
      | false =>
        obtain ⟨s', hderef, h', hprocs⟩ := sessionDeref_withSession (p := p) h.coherent
        refine .inr ⟨s', ?_, h', ?_⟩
        · simp [jobctlSetsid, hleader, hproc, hsome, hsession, hcreate, hpgrp, pgrpCreate, hderef,
            bind, Except.bind]
        · intro q hq
          have hpgrpOf : s'.pgrpOf = s.pgrpOf := by
            funext a
            rw [State.pgrpOf, State.pgrpOf, hprocs]
          have hsessionOf : s'.sessionOf = s.sessionOf := by
            funext a
            rw [State.sessionOf, State.sessionOf, hprocs]
          rw [hpgrpOf, hsessionOf]
          exact h.placed q (hprocs ▸ hq)
      | true =>
        rw [hsession, hpgrp] at hcond
        simp only [Bool.not_true, Bool.or_false, Bool.false_or, Bool.and_eq_true] at hcond
        obtain ⟨⟨hlast, hsid⟩, hpgid⟩ := hcond
        have hallocs : allocs = ⟨true, true, true, true⟩ := by
          cases allocs
          simp_all
        rw [Bool.or_eq_false_iff] at hleads
        obtain ⟨n, hn⟩ := Option.isSome_iff_exists.1 hn
        obtain ⟨s', n', g', hrun, h', hframe, hpgrpOf, hsessionOf⟩ := jobctlSetsid_spec h.coherent
          process hproc (.inr ⟨hg, by simpa using hlast⟩) hleader (fun hnone => absurd hnone hsome)
          (h.coherent.no_entry hleads.1 hn)
        exact .inl ⟨.success, s', hallocs ▸ hrun, h',
          State.Placed.update h.placed hframe hpgrpOf hsessionOf⟩

/-! ## Runs -/

/-- A `setsid` does not fail between entering the new session and the end, no `setpgid` makes a
group, and no process leaves a group as its last member. -/
def Careful (s : State) : Event → Prop
  | .fork _ _ => True
  | .setsid p allocs => (s.leadsSession p || s.leadsPgrp p || !allocs.session || !allocs.pgrp ||
      (!s.lastMember p && allocs.sidEntry && allocs.pgidEntry)) = true
  | .setpgid cur pid pgid alloc =>
    (setpgidTarget s cur pid).all (fun p => s.movesSafely p pgid alloc) = true
  | .destroy p => p = 0 ∨ p = 1 ∨ s.lastMember p = false

instance (s : State) (e : Event) : Decidable (Careful s e) :=
  match e with
  | .fork _ _ => inferInstanceAs (Decidable True)
  | .setsid _ _ => inferInstanceAs (Decidable (_ = _))
  | .setpgid _ _ _ _ => inferInstanceAs (Decidable (_ = _))
  | .destroy _ => inferInstanceAs (Decidable (_ ∨ _ ∨ _ = _))

theorem isSome_of_target {cur pid : ℕ} (hcur : (s.procs cur).isSome)
    (h : setpgidTarget s cur pid = some p) : (s.procs p).isSome := by
  rw [setpgidTarget] at h
  split at h
  · rw [← Option.some.inj h]
    exact hcur
  · split at h
    case h_1 => simp at h
    case h_2 proc hproc =>
      split at h
      · simp at h
      · rw [← Option.some.inj h, hproc]
        rfl

/-- A call that meets the condition ends with the registry in order, also when it panics. -/
theorem call_registered (h : Registered s) {e : Event} (hcaller : (s.procs e.caller).isSome)
    (hcareful : Careful s e) :
    (∃ s', call s e = .ok s' ∧ Registered s') ∨ ∃ s', call s e = .error s' ∧ Registered s' := by
  cases e with
  | fork p alloc =>
    cases alloc with
    | true => exact .inl (fork_spec h hcaller)
    | false =>
      obtain ⟨parent, hparent⟩ := Option.isSome_iff_exists.1 hcaller
      refine .inr ⟨s, ?_, h⟩
      rw [call, fork, show s.procs p = some parent from hparent]
      rfl
  | setsid p allocs =>
    have hp : (s.procs p).isSome := hcaller
    rcases setsid_registered h hp allocs hcareful with ⟨status, s', hrun, h'⟩ | ⟨s', hrun, h'⟩
    · exact .inl ⟨s', by rw [call, hrun]; rfl, h'⟩
    · exact .inr ⟨s', by rw [call, hrun]; rfl, h'⟩
  | setpgid cur pid pgid alloc =>
    cases htarget : setpgidTarget s cur pid with
    | none => exact .inl ⟨s, by rw [call, sysSetpgid, htarget], h⟩
    | some p =>
      have hmove : s.movesSafely p pgid alloc = true := by
        simpa [Careful, htarget] using hcareful
      obtain ⟨status, s', hrun, h'⟩ :=
        jobctlSetpgid_spec h (isSome_of_target hcaller htarget) hmove
      exact .inl ⟨s', by rw [call, sysSetpgid, htarget]; simp only [hrun]; rfl, h'⟩
  | destroy p =>
    by_cases hinit : p = 0 ∨ p = 1
    · exact .inr ⟨s, by simp [call, processDestroy, hinit, bind, Except.bind, throw, throwThe,
        MonadExceptOf.throw], h⟩
    · rw [not_or] at hinit
      have hlast : s.lastMember p = false := by
        rcases hcareful with hp | hp | hlast
        · exact absurd hp hinit.1
        · exact absurd hp hinit.2
        · exact hlast
      exact .inl (processDestroy_spec h hcaller hinit hlast)

theorem step_registered (h : Registered s) {e : Event} (hcareful : Careful s e)
    (hs : step s e = some s') : Registered s' := by
  rw [step] at hs
  split at hs
  · simp at hs
  · rename_i hguard
    rw [not_or] at hguard
    have hcaller : (s.procs e.caller).isSome := by
      rw [Option.isSome_iff_ne_none]
      simpa using hguard.2
    rcases call_registered h hcaller hcareful with ⟨t, hrun, ht⟩ | ⟨t, hrun, ht⟩
    · rw [hrun] at hs
      exact Option.some.inj hs ▸ ht
    · rw [hrun] at hs
      exact Option.some.inj hs ▸ ht.halt

theorem proc1Made_coherent : Coherent proc1Made (fun _ => 0) (fun _ => 0) := by
  have hpgrpOf : proc1Made.pgrpOf = fun _ => none := by
    funext q
    by_cases hq : q = 1
    · simp [proc1Made, State.pgrpOf, hq]
    · simp [proc1Made, State.pgrpOf, hq]
  have hsessionOf : proc1Made.sessionOf = fun _ => none := by
    funext q
    by_cases hq : q = 1
    · simp [proc1Made, State.sessionOf, hq]
    · simp [proc1Made, State.sessionOf, hq]
  have hpgrps : proc1Made.pgrps = fun _ => none := rfl
  have hsessions : proc1Made.sessions = fun _ => none := rfl
  refine ⟨⟨?_, ?_, ?_⟩, ⟨?_, ?_, ?_⟩, ⟨?_, ?_, ?_⟩, ?_, ?_, ?_, ?_, ?_, ?_, ?_, ?_, ?_, ?_, ?_⟩
  case refine_18 =>
    intro q hq
    by_cases hq1 : q = 1
    · rw [hq1]
      decide
    · simp [proc1Made, hq1] at hq
  all_goals simp [hpgrpOf, hsessionOf, hpgrps, hsessions, State.groupSession]
  · simp [proc1Made]
  · simp [proc1Made]
  · simp [proc1Made]

theorem init_registered (h : system.init s) : Registered s := by
  obtain ⟨s', n, g, hrun, h', hframe, hpgrpOf, hsessionOf⟩ := jobctlSetsid_spec
    proc1Made_coherent (p := 1) ⟨0, some 0, none, none⟩ rfl (.inl ⟨rfl, rfl⟩) rfl
    (fun _ => rfl) ⟨rfl, rfl⟩
  have heq : s' = s := by
    have h : jobctlSetsid proc1Made 1 ⟨true, true, true, true⟩ = .ok (.success, s) := h
    rw [hrun] at h
    simpa using h
  subst heq
  refine ⟨h', ?_⟩
  intro q hq
  rw [hpgrpOf, hsessionOf]
  rw [hframe.isSome_eq] at hq
  by_cases hq1 : q = 1
  · simp [hq1]
  · simp [proc1Made, hq1] at hq

/-- The groups and sessions of the processes are registered, once each, and counted. -/
structure Registry (s : State) : Prop where
  lookupPgid : ∀ p, (s.procs p).isSome → ∃ g pgrp, s.pgrpOf p = some g ∧
    s.pgrps g = some pgrp ∧ s.pgidTable pgrp.pgid = some g
  lookupSid : ∀ p, (s.procs p).isSome → ∃ n session, s.sessionOf p = some n ∧
    s.sessions n = some session ∧ s.sidTable session.sid = some n
  pgid_unique : ∀ g g' pgrp pgrp', s.pgrps g = some pgrp → s.pgrps g' = some pgrp' →
    pgrp.pgid = pgrp'.pgid → g = g'
  pgid_live : ∀ k g, s.pgidTable k = some g → (s.pgrps g).isSome
  sid_live : ∀ k n, s.sidTable k = some n → (s.sessions n).isSome
  same_session : ∀ p g pgrp, s.pgrpOf p = some g → s.pgrps g = some pgrp →
    s.sessionOf p = some pgrp.session
  pgrp_members : ∀ g pgrp, s.pgrps g = some pgrp → pgrp.members.Nodup ∧
    ∀ p, p ∈ pgrp.members ↔ s.pgrpOf p = some g
  session_members : ∀ n session, s.sessions n = some session → session.members.Nodup ∧
    ∀ p, p ∈ session.members ↔ s.sessionOf p = some n
  session_pgrps : ∀ n session, s.sessions n = some session → session.pgrps.Nodup ∧
    ∀ g, g ∈ session.pgrps ↔ s.groupSession g = some n
  pgrp_count : ∀ g pgrp, s.pgrps g = some pgrp → pgrp.refcount = pgrp.members.length
  session_count : ∀ n session, s.sessions n = some session →
    session.refcount = session.members.length + session.pgrps.length

theorem Registered.registry (h : Registered s) : Registry s := by
  have hc := h.coherent
  refine ⟨?_, ?_, ?_, ?_, ?_, hc.same, ?_, ?_, ?_, hc.pgrpCount, hc.sessionCount⟩
  · intro p hp
    obtain ⟨g, hg⟩ := Option.isSome_iff_exists.1 (h.placed p hp).1
    obtain ⟨pgrp, hpgrp⟩ := hc.groups.exists_owner p g hg
    exact ⟨g, pgrp, hg, hpgrp, hc.pgrpEntry g pgrp hpgrp rfl⟩
  · intro p hp
    obtain ⟨n, hn⟩ := Option.isSome_iff_exists.1 (h.placed p hp).2
    obtain ⟨session, hsession⟩ := hc.sessionMembers.exists_owner p n hn
    exact ⟨n, session, hn, hsession, hc.sessionEntry n session hsession rfl⟩
  · intro g g' pgrp pgrp' hg hg' hid
    have hentry := hc.pgrpEntry g pgrp hg rfl
    have hentry' := hc.pgrpEntry g' pgrp' hg' rfl
    rw [hid, hentry'] at hentry
    exact (Option.some.inj hentry).symm
  · intro k g hk
    obtain ⟨pgrp, hpgrp, -⟩ := hc.pgidLive k g hk
    rw [hpgrp]
    rfl
  · intro k n hk
    obtain ⟨session, hsession, -⟩ := hc.sidLive k n hk
    rw [hsession]
    rfl
  · exact fun g pgrp hg => ⟨hc.groups.nodup g pgrp hg, hc.groups.mem_iff g pgrp hg⟩
  · exact fun n session hn => ⟨hc.sessionMembers.nodup n session hn,
      hc.sessionMembers.mem_iff n session hn⟩
  · exact fun n session hn => ⟨hc.sessionPgrps.nodup n session hn,
      hc.sessionPgrps.mem_iff n session hn⟩

/-- **The registry of groups and sessions** is in order in every state of a run in which no
`setpgid` makes a group, no process leaves a group as its last member, and no `setsid` fails to
make an entry. -/
theorem registry_of_careful (h : system.ReachableUnder Careful s) : Registry s := by
  have hregistered : Registered s := by
    apply h.invariant
    · exact fun _ hinit => init_registered hinit
    · exact fun _ _ _ hr hcareful hs => step_registered hr hcareful hs
  exact hregistered.registry

/-! ## Two runs -/

/-- The memory when runs begin. -/
def booted : State :=
  match jobctlSetsid proc1Made 1 ⟨true, true, true, true⟩ with
  | .ok (_, s) => s
  | .error s => s

theorem booted_init : system.init booted := rfl

/-- Init forks twice; the first child takes a session of its own and forks; its child goes. -/
def sessionRun : List Event :=
  [.fork 1 true, .fork 1 true, .setsid 2 ⟨true, true, true, true⟩, .fork 2 true,
    .setpgid 2 4 2 true, .destroy 4]

/-- The registry after a run with two sessions. -/
theorem registry_of_careful_two : ∃ s, system.ReachableUnder Careful s ∧ Registry s ∧
    s.leadsSession 2 = true ∧ (s.procs 4).isNone = true := by
  obtain ⟨s, hs, hp⟩ := TransitionSystem.exists_reachableUnder_of_runUnder (C := Careful)
    booted_init sessionRun
    (fun s => s.leadsSession 2 && (s.procs 4).isNone) (by decide +kernel)
  simp only [Bool.and_eq_true] at hp
  exact ⟨s, hs, registry_of_careful hs, hp.1, hp.2⟩

/-- The child of init makes a group of its own with `setpgid(0, 0)`, and makes it again. -/
def ownGroupRun : List Event := [.fork 1 true, .setpgid 2 0 0 true]

/-- The child of init takes a session of its own and goes. -/
def lastMemberRun : List Event :=
  [.fork 1 true, .setsid 2 ⟨true, true, true, true⟩, .destroy 2]

/-- A group made by `setpgid` is not registered; a group that its last member leaves is freed while
it is in the table, and the kernel panics. -/
theorem group_not_registered :
    (∃ s, system.Reachable s ∧ s.halted = false ∧ (s.procs 2).isSome = true ∧
      s.pgidTable 2 = none ∧ ¬ Registry s) ∧
    ∃ s, system.Reachable s ∧ s.halted = true ∧ ∃ g, s.pgidTable 2 = some g ∧ s.pgrps g = none := by
  constructor
  · obtain ⟨s, hs, hp⟩ := TransitionSystem.exists_reachable_of_run booted_init ownGroupRun
      (fun s => decide (s.halted = false) && (s.procs 2).isSome && decide (s.pgidTable 2 = none) &&
        ((s.pgrpOf 2).bind s.pgrps).any (fun pgrp : Pgrp => decide (pgrp.pgid = 2)))
      (by decide +kernel)
    simp only [Bool.and_eq_true, decide_eq_true_eq] at hp
    obtain ⟨⟨⟨hhalted, hproc⟩, hentry⟩, hpgid⟩ := hp
    refine ⟨s, hs, hhalted, hproc, hentry, ?_⟩
    intro hregistry
    obtain ⟨g, pgrp, hg, hpgrp, hlookup⟩ := hregistry.lookupPgid 2 hproc
    rw [hg, Option.bind_some, hpgrp] at hpgid
    have hid : pgrp.pgid = 2 := by simpa using hpgid
    rw [hid, hentry] at hlookup
    simp at hlookup
  · obtain ⟨s, hs, hp⟩ := TransitionSystem.exists_reachable_of_run booted_init lastMemberRun
      (fun s => s.halted && (s.pgidTable 2).any (fun g => (s.pgrps g).isNone)) (by decide +kernel)
    simp only [Bool.and_eq_true, Option.any_eq_true] at hp
    obtain ⟨hhalted, g, hg, hnone⟩ := hp
    exact ⟨s, hs, hhalted, g, hg, by simpa using hnone⟩

end JobCtl
