/-
# The registry of process groups

The lists, the counts and the tables of groups and sessions agree after every call, as long as no
`setpgid` makes a group and no process leaves a group as its last member.
-/
import YakKernel.JobCtl

namespace JobCtl

/-! ## Reading a state -/

variable {s s' : State} {p g n k : ℕ} {pgrp : Pgrp} {session : Session} {xg xs : ℕ → ℕ}

/-- The session of a group. -/
def State.groupSession (s : State) (g : ℕ) : Option ℕ := (s.pgrps g).map Pgrp.session

theorem isSome_setPgrp (q : Option ℕ) (a : ℕ) :
    ((s.setPgrp p q).procs a).isSome = (s.procs a).isSome := by
  by_cases ha : a = p
  · simp [State.setPgrp, ha]
  · simp [State.setPgrp, ha]

theorem isSome_setSession (q : Option ℕ) (a : ℕ) :
    ((s.setSession p q).procs a).isSome = (s.procs a).isSome := by
  by_cases ha : a = p
  · simp [State.setSession, ha]
  · simp [State.setSession, ha]

theorem pgrpOf_setPgrp (hp : (s.procs p).isSome) (q : Option ℕ) :
    (s.setPgrp p q).pgrpOf = Function.update s.pgrpOf p q := by
  obtain ⟨proc, hproc⟩ := Option.isSome_iff_exists.1 hp
  funext a
  by_cases ha : a = p
  · simp [State.setPgrp, State.pgrpOf, ha, hproc]
  · simp [State.setPgrp, State.pgrpOf, ha]

theorem sessionOf_setPgrp (q : Option ℕ) : (s.setPgrp p q).sessionOf = s.sessionOf := by
  funext a
  by_cases ha : a = p
  · cases hproc : s.procs p with
    | none => simp [State.setPgrp, State.sessionOf, ha, hproc]
    | some proc => simp [State.setPgrp, State.sessionOf, ha, hproc]
  · simp [State.setPgrp, State.sessionOf, ha]

theorem sessionOf_setSession (hp : (s.procs p).isSome) (q : Option ℕ) :
    (s.setSession p q).sessionOf = Function.update s.sessionOf p q := by
  obtain ⟨proc, hproc⟩ := Option.isSome_iff_exists.1 hp
  funext a
  by_cases ha : a = p
  · simp [State.setSession, State.sessionOf, ha, hproc]
  · simp [State.setSession, State.sessionOf, ha]

theorem pgrpOf_setSession (q : Option ℕ) : (s.setSession p q).pgrpOf = s.pgrpOf := by
  funext a
  by_cases ha : a = p
  · cases hproc : s.procs p with
    | none => simp [State.setSession, State.pgrpOf, ha, hproc]
    | some proc => simp [State.setSession, State.pgrpOf, ha, hproc]
  · simp [State.setSession, State.pgrpOf, ha]

theorem isSome_of_pgrpOf (h : s.pgrpOf p = some g) : (s.procs p).isSome := by
  cases hp : s.procs p with
  | none => simp [State.pgrpOf, hp] at h
  | some _ => rfl

theorem isSome_of_sessionOf (h : s.sessionOf p = some n) : (s.procs p).isSome := by
  cases hp : s.procs p with
  | none => simp [State.sessionOf, hp] at h
  | some _ => rfl

theorem map_session_update {pgrp' : Pgrp} {pgrps : ℕ → Option Pgrp} (hg : pgrps g = some pgrp)
    (hsession : pgrp'.session = pgrp.session) :
    (fun a => (Function.update pgrps g (some pgrp') a).map Pgrp.session) =
      fun a => (pgrps a).map Pgrp.session := by
  funext a
  by_cases ha : a = g
  · simp [ha, hg, hsession]
  · simp [ha]

/-! ## What agrees -/

/-- The lists, counts and tables agree; `xg` and `xs` are the temporary references to a group or a
session, which is not in its table before these are dropped. -/
structure Coherent (s : State) (xg xs : ℕ → ℕ) : Prop where
  groups : Roster s.pgrpOf s.pgrps Pgrp.members
  sessionMembers : Roster s.sessionOf s.sessions Session.members
  sessionPgrps : Roster s.groupSession s.sessions Session.pgrps
  pgrpCount : ∀ g pgrp, s.pgrps g = some pgrp → pgrp.refcount = pgrp.members.length + xg g
  sessionCount : ∀ n session, s.sessions n = some session →
    session.refcount = session.members.length + session.pgrps.length + xs n
  same : ∀ p g pgrp, s.pgrpOf p = some g → s.pgrps g = some pgrp →
    s.sessionOf p = some pgrp.session
  pgrpEntry : ∀ g pgrp, s.pgrps g = some pgrp → xg g = 0 → s.pgidTable pgrp.pgid = some g
  sessionEntry : ∀ n session, s.sessions n = some session → xs n = 0 →
    s.sidTable session.sid = some n
  pgidLive : ∀ k g, s.pgidTable k = some g → ∃ pgrp, s.pgrps g = some pgrp ∧ pgrp.pgid = k
  sidLive : ∀ k n, s.sidTable k = some n → ∃ session, s.sessions n = some session ∧ session.sid = k
  leader : ∀ p n session, (s.pgidTable p ≠ none ∨ s.sidTable p ≠ none) →
    s.sessionOf p = some n → s.sessions n = some session → session.sid = p
  pidBound : ∀ p, (s.procs p).isSome → p < s.nextPid
  entryBound : ∀ k, (s.pgidTable k ≠ none ∨ s.sidTable k ≠ none) → k < s.nextPid
  addrBound : ∀ a, ((s.pgrps a).isSome ∨ (s.sessions a).isSome) → a < s.nextAddr

/-- What no operation but the first and the last of a process changes: the numbers of the groups
and sessions and the processes that there are. -/
structure Frame (s s' : State) : Prop where
  pgrp : ∀ g pgrp, s.pgrps g = some pgrp →
    ∃ pgrp', s'.pgrps g = some pgrp' ∧ pgrp'.pgid = pgrp.pgid ∧ pgrp'.session = pgrp.session
  session : ∀ n session, s.sessions n = some session →
    ∃ session', s'.sessions n = some session' ∧ session'.sid = session.sid
  isSome_eq : ∀ p, (s'.procs p).isSome = (s.procs p).isSome

theorem Frame.refl (s : State) : Frame s s :=
  ⟨fun _ pgrp h => ⟨pgrp, h, rfl, rfl⟩, fun _ session h => ⟨session, h, rfl⟩, fun _ => rfl⟩

theorem Frame.trans {t : State} (h : Frame s s') (h' : Frame s' t) : Frame s t where
  pgrp := by
    intro g pgrp hg
    obtain ⟨pgrp₁, hg₁, hid₁, hsession₁⟩ := h.pgrp g pgrp hg
    obtain ⟨pgrp₂, hg₂, hid₂, hsession₂⟩ := h'.pgrp g pgrp₁ hg₁
    exact ⟨pgrp₂, hg₂, hid₂.trans hid₁, hsession₂.trans hsession₁⟩
  session := by
    intro n session hn
    obtain ⟨session₁, hn₁, hid₁⟩ := h.session n session hn
    obtain ⟨session₂, hn₂, hid₂⟩ := h'.session n session₁ hn₁
    exact ⟨session₂, hn₂, hid₂.trans hid₁⟩
  isSome_eq := fun p => (h'.isSome_eq p).trans (h.isSome_eq p)

theorem Frame.of_pgrp (pgrp' : Pgrp) (hg : s.pgrps g = some pgrp) (hid : pgrp'.pgid = pgrp.pgid)
    (hsession : pgrp'.session = pgrp.session)
    (hpgrps : s'.pgrps = Function.update s.pgrps g (some pgrp'))
    (hsessions : s'.sessions = s.sessions)
    (hprocs : ∀ p, (s'.procs p).isSome = (s.procs p).isSome) : Frame s s' where
  pgrp := by
    intro a x hx
    rw [hpgrps]
    by_cases ha : a = g
    · subst ha
      obtain rfl : pgrp = x := Option.some.inj (hg.symm.trans hx)
      exact ⟨pgrp', Function.update_self .., hid, hsession⟩
    · exact ⟨x, by rw [Function.update_of_ne ha, hx], rfl, rfl⟩
  session := fun _ x hx => ⟨x, by rw [hsessions, hx], rfl⟩
  isSome_eq := hprocs

theorem Frame.of_session (session' : Session) (hn : s.sessions n = some session)
    (hid : session'.sid = session.sid)
    (hsessions : s'.sessions = Function.update s.sessions n (some session'))
    (hpgrps : s'.pgrps = s.pgrps)
    (hprocs : ∀ p, (s'.procs p).isSome = (s.procs p).isSome) : Frame s s' where
  session := by
    intro a x hx
    rw [hsessions]
    by_cases ha : a = n
    · subst ha
      obtain rfl : session = x := Option.some.inj (hn.symm.trans hx)
      exact ⟨session', Function.update_self .., hid⟩
    · exact ⟨x, by rw [Function.update_of_ne ha, hx], rfl⟩
  pgrp := fun _ x hx => ⟨x, by rw [hpgrps, hx], rfl, rfl⟩
  isSome_eq := hprocs

/-! ## Changes of one group or session -/

theorem Coherent.change_pgrp (h : Coherent s xg xs) (pgrp' : Pgrp) {xg' : ℕ → ℕ}
    (hg : s.pgrps g = some pgrp) (hid : pgrp'.pgid = pgrp.pgid)
    (hsession : pgrp'.session = pgrp.session)
    (hpgrps : s'.pgrps = Function.update s.pgrps g (some pgrp'))
    (hsessions : s'.sessions = s.sessions) (hsessionOf : s'.sessionOf = s.sessionOf)
    (hprocs : ∀ p, (s'.procs p).isSome = (s.procs p).isSome)
    (htables : s'.pgidTable = s.pgidTable ∧ s'.sidTable = s.sidTable ∧ s'.nextPid = s.nextPid ∧
      s'.nextAddr = s.nextAddr)
    (hgroups : Roster s'.pgrpOf s'.pgrps Pgrp.members)
    (hsame : ∀ p a, s'.pgrpOf p = some a → s.pgrpOf p = some a ∨
      (a = g ∧ s.sessionOf p = some pgrp.session))
    (hcount : pgrp'.refcount = pgrp'.members.length + xg' g)
    (hother : ∀ a, a ≠ g → xg' a = xg a)
    (hentry : xg' g = 0 → s.pgidTable pgrp.pgid = some g) : Coherent s' xg' xs := by
  obtain ⟨hpgid, hsid, hpid, haddr⟩ := htables
  refine ⟨hgroups, ?_, ?_, ?_, ?_, ?_, ?_, ?_, ?_, ?_, ?_, ?_, ?_, ?_⟩
  · rw [hsessionOf, hsessions]
    exact h.sessionMembers
  · have heq : s'.groupSession = s.groupSession := by
      show (fun a => (s'.pgrps a).map Pgrp.session) = _
      rw [hpgrps]
      exact map_session_update hg hsession
    rw [heq, hsessions]
    exact h.sessionPgrps
  · intro a x hx
    rw [hpgrps] at hx
    rcases Roster.update_eq_some hx with ⟨rfl, rfl⟩ | ⟨ha, hx⟩
    · exact hcount
    · rw [hother a ha]
      exact h.pgrpCount a x hx
  · rw [hsessions]
    exact h.sessionCount
  · intro p a x hp hx
    rw [hsessionOf]
    rw [hpgrps] at hx
    rcases Roster.update_eq_some hx with ⟨rfl, rfl⟩ | ⟨ha, hx⟩
    · rw [hsession]
      rcases hsame p a hp with hp | ⟨-, hp⟩
      · exact h.same p a pgrp hp hg
      · exact hp
    · rcases hsame p a hp with hp | ⟨heq, -⟩
      · exact h.same p a x hp hx
      · exact absurd heq ha
  · intro a x hx hzero
    rw [hpgid]
    rw [hpgrps] at hx
    rcases Roster.update_eq_some hx with ⟨rfl, rfl⟩ | ⟨ha, hx⟩
    · rw [hid]
      exact hentry hzero
    · exact h.pgrpEntry a x hx (hother a ha ▸ hzero)
  · rw [hsessions, hsid]
    exact h.sessionEntry
  · intro k a hk
    rw [hpgid] at hk
    obtain ⟨x, hx, hxk⟩ := h.pgidLive k a hk
    rw [hpgrps]
    by_cases ha : a = g
    · subst ha
      obtain rfl : pgrp = x := Option.some.inj (hg.symm.trans hx)
      exact ⟨pgrp', Function.update_self .., hid.trans hxk⟩
    · exact ⟨x, by rw [Function.update_of_ne ha, hx], hxk⟩
  · rw [hsid, hsessions]
    exact h.sidLive
  · rw [hpgid, hsid, hsessionOf, hsessions]
    exact h.leader
  · intro p hp
    rw [hpid]
    exact h.pidBound p (hprocs p ▸ hp)
  · rw [hpgid, hsid, hpid]
    exact h.entryBound
  · intro a ha
    rw [haddr]
    apply h.addrBound a
    rw [hsessions, hpgrps] at ha
    by_cases hag : a = g
    · exact .inl (by rw [hag, hg]; rfl)
    · rw [Function.update_of_ne hag] at ha
      exact ha

theorem Coherent.change_session (h : Coherent s xg xs) (session' : Session) {xs' : ℕ → ℕ}
    (hn : s.sessions n = some session) (hid : session'.sid = session.sid)
    (hlist : session'.pgrps = session.pgrps)
    (hsessions : s'.sessions = Function.update s.sessions n (some session'))
    (hpgrps : s'.pgrps = s.pgrps) (hpgrpOf : s'.pgrpOf = s.pgrpOf)
    (hprocs : ∀ p, (s'.procs p).isSome = (s.procs p).isSome)
    (htables : s'.pgidTable = s.pgidTable ∧ s'.sidTable = s.sidTable ∧ s'.nextPid = s.nextPid ∧
      s'.nextAddr = s.nextAddr)
    (hmembers : Roster s'.sessionOf s'.sessions Session.members)
    (hsame : ∀ p, (s.pgrpOf p).isSome → s'.sessionOf p = s.sessionOf p)
    (hleader : ∀ p a, s'.sessionOf p = some a → s.sessionOf p = some a ∨
      (s.pgidTable p = none ∧ s.sidTable p = none))
    (hcount : session'.refcount = session'.members.length + session'.pgrps.length + xs' n)
    (hother : ∀ a, a ≠ n → xs' a = xs a)
    (hentry : xs' n = 0 → s.sidTable session.sid = some n) : Coherent s' xg xs' := by
  obtain ⟨hpgid, hsid, hpid, haddr⟩ := htables
  have hgroupSession : s'.groupSession = s.groupSession := by
    show (fun a => (s'.pgrps a).map Pgrp.session) = _
    rw [hpgrps]
    rfl
  refine ⟨?_, hmembers, ?_, ?_, ?_, ?_, ?_, ?_, ?_, ?_, ?_, ?_, ?_, ?_⟩
  · rw [hpgrpOf, hpgrps]
    exact h.groups
  · rw [hgroupSession, hsessions]
    exact h.sessionPgrps.touch hn hlist
  · rw [hpgrps]
    exact h.pgrpCount
  · intro a x hx
    rw [hsessions] at hx
    rcases Roster.update_eq_some hx with ⟨rfl, rfl⟩ | ⟨ha, hx⟩
    · exact hcount
    · rw [hother a ha]
      exact h.sessionCount a x hx
  · intro p a x hp hx
    rw [hpgrpOf] at hp
    rw [hpgrps] at hx
    rw [hsame p (by rw [hp]; rfl)]
    exact h.same p a x hp hx
  · rw [hpgrps, hpgid]
    exact h.pgrpEntry
  · intro a x hx hzero
    rw [hsid]
    rw [hsessions] at hx
    rcases Roster.update_eq_some hx with ⟨rfl, rfl⟩ | ⟨ha, hx⟩
    · rw [hid]
      exact hentry hzero
    · exact h.sessionEntry a x hx (hother a ha ▸ hzero)
  · rw [hpgid, hpgrps]
    exact h.pgidLive
  · intro k a hk
    rw [hsid] at hk
    obtain ⟨x, hx, hxk⟩ := h.sidLive k a hk
    rw [hsessions]
    by_cases ha : a = n
    · subst ha
      obtain rfl : session = x := Option.some.inj (hn.symm.trans hx)
      exact ⟨session', Function.update_self .., hid.trans hxk⟩
    · exact ⟨x, by rw [Function.update_of_ne ha, hx], hxk⟩
  · intro p a x hkey hp hx
    rw [hpgid, hsid] at hkey
    rw [hsessions] at hx
    rcases hleader p a hp with hp | ⟨hnone, hnone'⟩
    · rcases Roster.update_eq_some hx with ⟨rfl, rfl⟩ | ⟨-, hx⟩
      · rw [hid]
        exact h.leader p a session hkey hp hn
      · exact h.leader p a x hkey hp hx
    · rcases hkey with hkey | hkey
      · exact absurd hnone hkey
      · exact absurd hnone' hkey
  · intro p hp
    rw [hpid]
    exact h.pidBound p (hprocs p ▸ hp)
  · rw [hpgid, hsid, hpid]
    exact h.entryBound
  · intro a ha
    rw [haddr]
    apply h.addrBound a
    rw [hpgrps, hsessions] at ha
    by_cases han : a = n
    · exact .inr (by rw [han, hn]; rfl)
    · rw [Function.update_of_ne han] at ha
      exact ha

/-! ## The operations -/

/-- The tables and counters stay. -/
def State.SameTables (s s' : State) : Prop :=
  s'.pgidTable = s.pgidTable ∧ s'.sidTable = s.sidTable ∧ s'.nextPid = s.nextPid ∧
    s'.nextAddr = s.nextAddr

theorem pgrpInsert_spec (h : Coherent s xg xs) (hproc : (s.procs p).isSome)
    (hnone : s.pgrpOf p = none) (hg : s.pgrps g = some pgrp)
    (hsession : s.sessionOf p = some pgrp.session) :
    ∃ s', pgrpInsert s g p = .ok s' ∧ Coherent s' xg xs ∧ Frame s s' ∧ s.SameTables s' ∧
      s'.pgrpOf = Function.update s.pgrpOf p (some g) ∧ s'.sessionOf = s.sessionOf := by
  generalize hpgrp' :
    { pgrp with refcount := pgrp.refcount + 1, members := p :: pgrp.members } = pgrp'
  have hrun : pgrpInsert s g p = .ok (State.setPgrp { s with
      pgrps := Function.update s.pgrps g (some pgrp') } p (some g)) := by
    simp [pgrpInsert, hnone, hg, hpgrp']
  have hpgrpOf := pgrpOf_setPgrp (s := { s with
      pgrps := Function.update s.pgrps g (some pgrp') }) hproc (some g)
  refine ⟨_, hrun, ?_, ?_, ⟨rfl, rfl, rfl, rfl⟩, hpgrpOf, sessionOf_setPgrp _⟩
  · refine h.change_pgrp pgrp' hg (by rw [← hpgrp']) (by rw [← hpgrp']) rfl rfl
      (sessionOf_setPgrp _) (isSome_setPgrp _) ⟨rfl, rfl, rfl, rfl⟩ ?_ ?_ ?_
      (fun _ _ => rfl) (h.pgrpEntry g pgrp hg)
    · rw [hpgrpOf]
      exact h.groups.insert hnone hg (by rw [← hpgrp'])
    · intro q a hq
      rw [hpgrpOf] at hq
      rcases Roster.update_eq_some hq with ⟨rfl, rfl⟩ | ⟨-, hq⟩
      · exact .inr ⟨rfl, hsession⟩
      · exact .inl hq
    · have hcount := h.pgrpCount g pgrp hg
      rw [← hpgrp']
      show pgrp.refcount + 1 = (p :: pgrp.members).length + xg g
      rw [List.length_cons]
      omega
  · exact .of_pgrp pgrp' hg (by rw [← hpgrp']) (by rw [← hpgrp']) rfl rfl (isSome_setPgrp _)

theorem sessionInsert_spec (h : Coherent s xg xs) (hproc : (s.procs p).isSome)
    (hnone : s.sessionOf p = none) (hpgrp : s.pgrpOf p = none) (hn : s.sessions n = some session)
    (hkey : s.pgidTable p = none ∧ s.sidTable p = none) :
    ∃ s', sessionInsert s n p = .ok s' ∧ Coherent s' xg xs ∧ Frame s s' ∧ s.SameTables s' ∧
      s'.sessionOf = Function.update s.sessionOf p (some n) ∧ s'.pgrpOf = s.pgrpOf := by
  generalize hsession' :
    { session with refcount := session.refcount + 1, members := p :: session.members } = session'
  have hrun : sessionInsert s n p = .ok (State.setSession { s with
      sessions := Function.update s.sessions n (some session') } p (some n)) := by
    simp [sessionInsert, hnone, hn, hsession']
  have hsessionOf := sessionOf_setSession (s := { s with
      sessions := Function.update s.sessions n (some session') }) hproc (some n)
  refine ⟨_, hrun, ?_, ?_, ⟨rfl, rfl, rfl, rfl⟩, hsessionOf, pgrpOf_setSession _⟩
  · refine h.change_session session' hn (by rw [← hsession']) (by rw [← hsession'])
      rfl rfl (pgrpOf_setSession _) (isSome_setSession _) ⟨rfl, rfl, rfl, rfl⟩ ?_ ?_ ?_ ?_
      (fun _ _ => rfl) (h.sessionEntry n session hn)
    · rw [hsessionOf]
      exact h.sessionMembers.insert hnone hn (by rw [← hsession'])
    · intro q hq
      have hqp : q ≠ p := by
        rintro rfl
        simp [hpgrp] at hq
      rw [hsessionOf]
      exact Function.update_of_ne hqp ..
    · intro q a hq
      rw [hsessionOf] at hq
      rcases Roster.update_eq_some hq with ⟨rfl, rfl⟩ | ⟨-, hq⟩
      · exact .inr hkey
      · exact .inl hq
    · have hcount := h.sessionCount n session hn
      rw [← hsession']
      show session.refcount + 1 = (p :: session.members).length + session.pgrps.length + xs n
      rw [List.length_cons]
      omega
  · exact .of_session session' hn (by rw [← hsession']) rfl rfl (isSome_setSession _)

theorem pgrpRemove_spec (h : Coherent s xg xs) (hp : s.pgrpOf p = some g)
    (hg : s.pgrps g = some pgrp) (hlast : pgrp.members ≠ [p]) :
    ∃ s', pgrpRemove s p = .ok s' ∧ Coherent s' xg xs ∧ Frame s s' ∧ s.SameTables s' ∧
      s'.pgrpOf = Function.update s.pgrpOf p none ∧ s'.sessionOf = s.sessionOf := by
  have hproc := isSome_of_pgrpOf hp
  have hlen := h.groups.length_erase hp hg
  have hcount := h.pgrpCount g pgrp hg
  have hmany : pgrp.refcount ≠ 1 := by
    intro hone
    obtain ⟨q, hq⟩ := List.length_eq_one_iff.1 (show pgrp.members.length = 1 by omega)
    have hmem := (h.groups.mem_iff g pgrp hg p).2 hp
    rw [hq, List.mem_singleton] at hmem
    exact hlast (hmem ▸ hq)
  generalize hpgrp' :
    { pgrp with refcount := pgrp.refcount - 1, members := pgrp.members.erase p } = pgrp'
  have hrun : pgrpRemove s p = .ok (State.setPgrp { s with
      pgrps := Function.update s.pgrps g (some pgrp') } p none) := by
    simp [pgrpRemove, pgrpDeref, hp, hg, hmany, ← hpgrp', State.setPgrp]
  have hpgrpOf := pgrpOf_setPgrp (s := { s with
      pgrps := Function.update s.pgrps g (some pgrp') }) hproc none
  refine ⟨_, hrun, ?_, ?_, ⟨rfl, rfl, rfl, rfl⟩, hpgrpOf, sessionOf_setPgrp _⟩
  · refine h.change_pgrp pgrp' hg (by rw [← hpgrp']) (by rw [← hpgrp']) rfl rfl
      (sessionOf_setPgrp _) (isSome_setPgrp _) ⟨rfl, rfl, rfl, rfl⟩ ?_ ?_ ?_
      (fun _ _ => rfl) (h.pgrpEntry g pgrp hg)
    · rw [hpgrpOf]
      exact h.groups.remove hp hg (by rw [← hpgrp'])
    · intro q a hq
      rw [hpgrpOf] at hq
      by_cases hqp : q = p
      · rw [hqp, Function.update_self] at hq
        simp at hq
      · rw [Function.update_of_ne hqp] at hq
        exact .inl hq
    · rw [← hpgrp']
      show pgrp.refcount - 1 = (pgrp.members.erase p).length + xg g
      omega
  · exact .of_pgrp pgrp' hg (by rw [← hpgrp']) (by rw [← hpgrp']) rfl rfl (isSome_setPgrp _)

theorem sessionRemove_spec (h : Coherent s xg xs) (hp : s.sessionOf p = some n)
    (hpgrp : s.pgrpOf p = none) (hn : s.sessions n = some session) (hpgrps : session.pgrps ≠ []) :
    ∃ s', sessionRemove s p = .ok s' ∧ Coherent s' xg xs ∧ Frame s s' ∧ s.SameTables s' ∧
      s'.sessionOf = Function.update s.sessionOf p none ∧ s'.pgrpOf = s.pgrpOf := by
  have hproc := isSome_of_sessionOf hp
  have hlen := h.sessionMembers.length_erase hp hn
  have hcount := h.sessionCount n session hn
  have hpos := List.length_pos_of_ne_nil hpgrps
  have hmany : session.refcount ≠ 1 := by omega
  generalize hsession' :
    { session with refcount := session.refcount - 1, members := session.members.erase p } = session'
  have hrun : sessionRemove s p = .ok (State.setSession { s with
      sessions := Function.update s.sessions n (some session') } p none) := by
    simp [sessionRemove, sessionDeref, hp, hn, hmany, ← hsession', State.setSession]
  have hsessionOf := sessionOf_setSession (s := { s with
      sessions := Function.update s.sessions n (some session') }) hproc none
  refine ⟨_, hrun, ?_, ?_, ⟨rfl, rfl, rfl, rfl⟩, hsessionOf, pgrpOf_setSession _⟩
  · refine h.change_session session' hn (by rw [← hsession']) (by rw [← hsession'])
      rfl rfl (pgrpOf_setSession _) (isSome_setSession _) ⟨rfl, rfl, rfl, rfl⟩ ?_ ?_ ?_ ?_
      (fun _ _ => rfl) (h.sessionEntry n session hn)
    · rw [hsessionOf]
      exact h.sessionMembers.remove hp hn (by rw [← hsession'])
    · intro q hq
      have hqp : q ≠ p := by
        rintro rfl
        simp [hpgrp] at hq
      rw [hsessionOf]
      exact Function.update_of_ne hqp ..
    · intro q a hq
      rw [hsessionOf] at hq
      by_cases hqp : q = p
      · rw [hqp, Function.update_self] at hq
        simp at hq
      · rw [Function.update_of_ne hqp] at hq
        exact .inl hq
    · rw [← hsession']
      show session.refcount - 1 = (session.members.erase p).length + session.pgrps.length + xs n
      omega
  · exact .of_session session' hn (by rw [← hsession']) rfl rfl (isSome_setSession _)

theorem sessionDeref_spec (h : Coherent s xg xs) (hn : s.sessions n = some session)
    (htemp : xs n = 1) (hpgrps : session.pgrps ≠ []) (hentry : s.sidTable session.sid = some n) :
    ∃ s', sessionDeref s n = .ok s' ∧ Coherent s' xg (Function.update xs n 0) ∧ Frame s s' ∧
      s.SameTables s' ∧ s'.sessionOf = s.sessionOf ∧ s'.pgrpOf = s.pgrpOf ∧ s'.pgrps = s.pgrps := by
  have hcount := h.sessionCount n session hn
  have hpos := List.length_pos_of_ne_nil hpgrps
  have hmany : session.refcount ≠ 1 := by omega
  have hrun : sessionDeref s n = .ok { s with
      sessions := Function.update s.sessions n
        (some { session with refcount := session.refcount - 1 }) } := by
    simp [sessionDeref, hn, hmany]
  refine ⟨_, hrun, ?_, ?_, ⟨rfl, rfl, rfl, rfl⟩, rfl, rfl, rfl⟩
  · refine h.change_session { session with refcount := session.refcount - 1 } hn
      rfl rfl rfl rfl rfl (fun _ => rfl) ⟨rfl, rfl, rfl, rfl⟩ ?_ (fun _ _ => rfl)
      (fun _ _ hq => .inl hq) ?_ (fun a ha => Function.update_of_ne ha ..) (fun _ => hentry)
    · exact h.sessionMembers.touch hn rfl
    · rw [Function.update_self]
      show session.refcount - 1 = session.members.length + session.pgrps.length + 0
      omega
  · exact .of_session { session with refcount := session.refcount - 1 } hn rfl rfl rfl
      (fun _ => rfl)

theorem pgrpDeref_spec (h : Coherent s xg xs) (hg : s.pgrps g = some pgrp)
    (htemp : xg g = 1) (hmembers : pgrp.members ≠ []) (hentry : s.pgidTable pgrp.pgid = some g) :
    ∃ s', pgrpDeref s g = .ok s' ∧ Coherent s' (Function.update xg g 0) xs ∧ Frame s s' ∧
      s.SameTables s' ∧ s'.sessionOf = s.sessionOf ∧ s'.pgrpOf = s.pgrpOf := by
  have hcount := h.pgrpCount g pgrp hg
  have hpos := List.length_pos_of_ne_nil hmembers
  have hmany : pgrp.refcount ≠ 1 := by omega
  have hrun : pgrpDeref s g = .ok { s with
      pgrps := Function.update s.pgrps g (some { pgrp with refcount := pgrp.refcount - 1 }) } := by
    simp [pgrpDeref, hg, hmany]
  refine ⟨_, hrun, ?_, ?_, ⟨rfl, rfl, rfl, rfl⟩, rfl, rfl⟩
  · refine h.change_pgrp { pgrp with refcount := pgrp.refcount - 1 } hg
      rfl rfl rfl rfl rfl (fun _ => rfl) ⟨rfl, rfl, rfl, rfl⟩ ?_ (fun _ _ hq => .inl hq) ?_
      (fun a ha => Function.update_of_ne ha ..) (fun _ => hentry)
    · exact h.groups.touch hg rfl
    · rw [Function.update_self]
      show pgrp.refcount - 1 = pgrp.members.length + 0
      omega
  · exact .of_pgrp { pgrp with refcount := pgrp.refcount - 1 } hg rfl rfl rfl rfl
      (fun _ => rfl)

theorem ne_none_of_update {f : ℕ → Option ℕ} {x : Option ℕ} {q : ℕ} (hq : q ≠ k)
    (h : Function.update f k x q ≠ none) : f q ≠ none := by
  rwa [Function.update_of_ne hq] at h

theorem insertSid_spec (h : Coherent s xg xs) (hn : s.sessions n = some session)
    (hfree : s.sidTable session.sid = none) (hleader : s.sessionOf session.sid = some n) :
    insertSid s n true =
      .ok { s with sidTable := Function.update s.sidTable session.sid (some n) } ∧
    Coherent { s with sidTable := Function.update s.sidTable session.sid (some n) } xg xs := by
  refine ⟨by simp [insertSid, hn, hfree], ⟨h.groups, h.sessionMembers, h.sessionPgrps, h.pgrpCount,
    h.sessionCount, h.same, h.pgrpEntry, ?_, h.pgidLive, ?_, ?_, h.pidBound, ?_, h.addrBound⟩⟩
  · intro a x hx hzero
    have hentry := h.sessionEntry a x hx hzero
    by_cases hsid : x.sid = session.sid
    · rw [hsid, hfree] at hentry
      simp at hentry
    · exact (Function.update_of_ne hsid ..).trans hentry
  · intro k a hk
    rcases Roster.update_eq_some hk with ⟨rfl, rfl⟩ | ⟨-, hk⟩
    · exact ⟨session, hn, rfl⟩
    · exact h.sidLive k a hk
  · intro q a x hkey hq hx
    by_cases hqk : q = session.sid
    · subst hqk
      obtain rfl : n = a := Option.some.inj (hleader.symm.trans hq)
      obtain rfl : session = x := Option.some.inj (hn.symm.trans hx)
      rfl
    · refine h.leader q a x ?_ hq hx
      rcases hkey with hkey | hkey
      · exact .inl hkey
      · exact .inr (ne_none_of_update hqk hkey)
  · intro k hk
    by_cases hkk : k = session.sid
    · rw [hkk]
      exact h.pidBound _ (isSome_of_sessionOf hleader)
    · refine h.entryBound k ?_
      rcases hk with hk | hk
      · exact .inl hk
      · exact .inr (ne_none_of_update hkk hk)

theorem insertPgrp_spec (h : Coherent s xg xs) (hg : s.pgrps g = some pgrp)
    (hfree : s.pgidTable pgrp.pgid = none) (hn : s.sessions n = some session)
    (hleader : s.sessionOf pgrp.pgid = some n) (hsid : session.sid = pgrp.pgid) :
    insertPgrp s g true =
      .ok { s with pgidTable := Function.update s.pgidTable pgrp.pgid (some g) } ∧
    Coherent { s with pgidTable := Function.update s.pgidTable pgrp.pgid (some g) } xg xs := by
  refine ⟨by simp [insertPgrp, hg, hfree], ⟨h.groups, h.sessionMembers, h.sessionPgrps, h.pgrpCount,
    h.sessionCount, h.same, ?_, h.sessionEntry, ?_, h.sidLive, ?_, h.pidBound, ?_, h.addrBound⟩⟩
  · intro a x hx hzero
    have hentry := h.pgrpEntry a x hx hzero
    by_cases hid : x.pgid = pgrp.pgid
    · rw [hid, hfree] at hentry
      simp at hentry
    · exact (Function.update_of_ne hid ..).trans hentry
  · intro k a hk
    rcases Roster.update_eq_some hk with ⟨rfl, rfl⟩ | ⟨-, hk⟩
    · exact ⟨pgrp, hg, rfl⟩
    · exact h.pgidLive k a hk
  · intro q a x hkey hq hx
    by_cases hqk : q = pgrp.pgid
    · subst hqk
      obtain rfl : n = a := Option.some.inj (hleader.symm.trans hq)
      obtain rfl : session = x := Option.some.inj (hn.symm.trans hx)
      exact hsid
    · refine h.leader q a x ?_ hq hx
      rcases hkey with hkey | hkey
      · exact .inl (ne_none_of_update hqk hkey)
      · exact .inr hkey
  · intro k hk
    by_cases hkk : k = pgrp.pgid
    · rw [hkk]
      exact h.pidBound _ (isSome_of_sessionOf hleader)
    · refine h.entryBound k ?_
      rcases hk with hk | hk
      · exact .inl (ne_none_of_update hkk hk)
      · exact .inr hk

theorem isSome_of_update {α : Type} {f : ℕ → Option α} {x : Option α} {q : ℕ} (hq : q ≠ k)
    (h : (Function.update f k x q).isSome) : (f q).isSome := by
  rwa [Function.update_of_ne hq] at h

/-- The memory with a new session of `leader`. -/
def State.withSession (s : State) (leader : ℕ) : State :=
  { s with
    sessions := Function.update s.sessions s.nextAddr
      (some { sid := leader, refcount := 1, members := [], pgrps := [] })
    nextAddr := s.nextAddr + 1 }

/-- The memory with a new group of `leader` in a session. -/
def State.withPgrp (s : State) (n leader : ℕ) (session : Session) : State :=
  { s with
    pgrps := Function.update s.pgrps s.nextAddr
      (some { pgid := leader, refcount := 1, session := n, members := [] })
    sessions := Function.update s.sessions n
      (some { session with
        refcount := session.refcount + 1, pgrps := s.nextAddr :: session.pgrps })
    nextAddr := s.nextAddr + 1 }

theorem Coherent.fresh (h : Coherent s xg xs) :
    s.pgrps s.nextAddr = none ∧ s.sessions s.nextAddr = none := by
  constructor
  · by_contra hne
    exact lt_irrefl _ (h.addrBound _ (.inl (Option.isSome_iff_ne_none.2 hne)))
  · by_contra hne
    exact lt_irrefl _ (h.addrBound _ (.inr (Option.isSome_iff_ne_none.2 hne)))

theorem Coherent.withSession (h : Coherent s xg xs) (leader : ℕ) :
    Coherent (s.withSession leader) xg (Function.update xs s.nextAddr 1) := by
  obtain ⟨-, hfresh⟩ := h.fresh
  refine ⟨h.groups, h.sessionMembers.alloc hfresh rfl, h.sessionPgrps.alloc hfresh rfl, h.pgrpCount,
    ?_, h.same, h.pgrpEntry, ?_, h.pgidLive, ?_, ?_, h.pidBound, h.entryBound, ?_⟩
  · intro a x hx
    rcases Roster.update_eq_some hx with ⟨rfl, rfl⟩ | ⟨ha, hx⟩
    · rw [Function.update_self]
      rfl
    · rw [Function.update_of_ne ha]
      exact h.sessionCount a x hx
  · intro a x hx hzero
    rcases Roster.update_eq_some hx with ⟨rfl, rfl⟩ | ⟨ha, hx⟩
    · simp at hzero
    · rw [Function.update_of_ne ha] at hzero
      exact h.sessionEntry a x hx hzero
  · intro k a hk
    obtain ⟨x, hx, hxk⟩ := h.sidLive k a hk
    have ha : a ≠ s.nextAddr := by
      rintro rfl
      simp [hfresh] at hx
    exact ⟨x, (Function.update_of_ne ha ..).trans hx, hxk⟩
  · intro q a x hkey hq hx
    rcases Roster.update_eq_some hx with ⟨rfl, rfl⟩ | ⟨-, hx⟩
    · obtain ⟨y, hy⟩ := h.sessionMembers.exists_owner q s.nextAddr hq
      simp [hfresh] at hy
    · exact h.leader q a x hkey hq hx
  · intro a ha
    show a < s.nextAddr + 1
    by_cases haddr : a = s.nextAddr
    · omega
    · have hlt := h.addrBound a (by
        rcases ha with ha | ha
        · exact .inl ha
        · exact .inr (isSome_of_update haddr ha))
      omega

theorem Coherent.withPgrp (h : Coherent s xg xs) (leader : ℕ) (hn : s.sessions n = some session) :
    Coherent (s.withPgrp n leader session) (Function.update xg s.nextAddr 1) xs := by
  obtain ⟨hfresh, -⟩ := h.fresh
  have hgroupSession : (s.withPgrp n leader session).groupSession =
      Function.update s.groupSession s.nextAddr (some n) := by
    funext a
    by_cases ha : a = s.nextAddr
    · simp [State.withPgrp, State.groupSession, ha]
    · simp [State.withPgrp, State.groupSession, ha]
  refine ⟨h.groups.alloc hfresh rfl, h.sessionMembers.touch hn rfl, ?_, ?_, ?_, ?_, ?_, ?_, ?_, ?_,
    ?_, h.pidBound, h.entryBound, ?_⟩
  · rw [hgroupSession]
    refine h.sessionPgrps.insert ?_ hn rfl
    simp [State.groupSession, hfresh]
  · intro a x hx
    rcases Roster.update_eq_some hx with ⟨rfl, rfl⟩ | ⟨ha, hx⟩
    · rw [Function.update_self]
      rfl
    · rw [Function.update_of_ne ha]
      exact h.pgrpCount a x hx
  · intro a x hx
    rcases Roster.update_eq_some hx with ⟨rfl, rfl⟩ | ⟨ha, hx⟩
    · have hcount := h.sessionCount a session hn
      show session.refcount + 1 =
        session.members.length + (s.nextAddr :: session.pgrps).length + xs a
      rw [List.length_cons]
      omega
    · exact h.sessionCount a x hx
  · intro q a x hq hx
    rcases Roster.update_eq_some hx with ⟨rfl, rfl⟩ | ⟨-, hx⟩
    · obtain ⟨y, hy⟩ := h.groups.exists_owner q s.nextAddr hq
      simp [hfresh] at hy
    · exact h.same q a x hq hx
  · intro a x hx hzero
    rcases Roster.update_eq_some hx with ⟨rfl, rfl⟩ | ⟨ha, hx⟩
    · simp at hzero
    · rw [Function.update_of_ne ha] at hzero
      exact h.pgrpEntry a x hx hzero
  · intro a x hx hzero
    rcases Roster.update_eq_some hx with ⟨rfl, rfl⟩ | ⟨-, hx⟩
    · exact h.sessionEntry a session hn hzero
    · exact h.sessionEntry a x hx hzero
  · intro k a hk
    obtain ⟨x, hx, hxk⟩ := h.pgidLive k a hk
    have ha : a ≠ s.nextAddr := by
      rintro rfl
      simp [hfresh] at hx
    exact ⟨x, (Function.update_of_ne ha ..).trans hx, hxk⟩
  · intro k a hk
    obtain ⟨x, hx, hxk⟩ := h.sidLive k a hk
    by_cases ha : a = n
    · subst ha
      obtain rfl : session = x := Option.some.inj (hn.symm.trans hx)
      exact ⟨_, Function.update_self .., hxk⟩
    · exact ⟨x, (Function.update_of_ne ha ..).trans hx, hxk⟩
  · intro q a x hkey hq hx
    rcases Roster.update_eq_some hx with ⟨rfl, rfl⟩ | ⟨-, hx⟩
    · exact h.leader q a session hkey hq hn
    · exact h.leader q a x hkey hq hx
  · intro a ha
    show a < s.nextAddr + 1
    by_cases haddr : a = s.nextAddr
    · omega
    · have hlt := h.addrBound a (by
        rcases ha with ha | ha
        · exact .inl (isSome_of_update haddr ha)
        · refine .inr ?_
          by_cases han : a = n
          · rw [han, hn]
            rfl
          · exact isSome_of_update han ha)
      omega

theorem frame_withSession (h : Coherent s xg xs) (leader : ℕ) : Frame s (s.withSession leader) where
  pgrp := fun _ x hx => ⟨x, hx, rfl, rfl⟩
  session := by
    intro a x hx
    have ha : a ≠ s.nextAddr := by
      rintro rfl
      simp [h.fresh.2] at hx
    exact ⟨x, (Function.update_of_ne ha ..).trans hx, rfl⟩
  isSome_eq := fun _ => rfl

theorem frame_withPgrp (h : Coherent s xg xs) (leader : ℕ) (hn : s.sessions n = some session) :
    Frame s (s.withPgrp n leader session) where
  pgrp := by
    intro a x hx
    have ha : a ≠ s.nextAddr := by
      rintro rfl
      simp [h.fresh.1] at hx
    exact ⟨x, (Function.update_of_ne ha ..).trans hx, rfl, rfl⟩
  session := by
    intro a x hx
    by_cases ha : a = n
    · subst ha
      obtain rfl : session = x := Option.some.inj (hn.symm.trans hx)
      exact ⟨_, Function.update_self .., rfl⟩
    · exact ⟨x, (Function.update_of_ne ha ..).trans hx, rfl⟩
  isSome_eq := fun _ => rfl

end JobCtl
