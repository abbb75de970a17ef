/-
# Real-time threads, in every run

The invariant of priorities with that of the thread locks, which keep the thread that a processor
leaves from being made anew.  A processor takes no thread that a real-time one in its queues is
above, in every run in which no thread is inserted on a dispatching processor against its order.
-/
import YakKernel.SchedPriority

namespace Sched

set_option linter.unusedSectionVars false

variable {C T : Type*}

/-! ## Locks -/

/-- The thread whose lock a processor holds in the code of the scheduler. -/
def Pc.holds (pc : Pc C T) (current : Tid C T) : Option (Tid C T) :=
  match pc with
  | .preemptLocked _ | .yielding _ | .yieldTaken _ | .swtching _ => some current
  | .switched old _ | .unlocking old _ => some old
  | _ => none

/-- Somebody is resuming the thread, and has its lock. -/
def Resume.busy : Resume C → Bool
  | .idle => false
  | .locked _ | .inserted => true

/-- The processor that somebody is about to insert the thread on. -/
def Resume.target : Resume C → Option C
  | .locked d => some d
  | _ => none

/-- Every lock that is held is locked, and held once. -/
structure Locks (locked : Tid C T → Bool) (holds : C → Option (Tid C T)) (resuming : T → Bool) :
    Prop where
  held : ∀ c u, holds c = some u → locked u = true
  resumed : ∀ t, resuming t = true → locked (.thread t) = true
  apart : ∀ c t, holds c = some (.thread t) → resuming t = false
  alone : ∀ c d u, holds c = some u → holds d = some u → c = d

/-- The locks of a state. -/
def State.LocksOk (s : State C T) : Prop :=
  Locks (fun u => (s.threads u).threadLocked)
    (fun c => (s.pc c).holds (s.cpus c).currentThread) (fun t => (s.resuming t).busy)

section

variable [DecidableEq C] [DecidableEq T] {locked : Tid C T → Bool} {holds : C → Option (Tid C T)}
  {resuming : T → Bool} {c : C} {t : T} {u : Tid C T}

theorem Locks.acquire (h : Locks locked holds resuming) (c : C) (hfree : locked u = false) :
    Locks (Function.update locked u true) (Function.update holds c (some u)) resuming := by
  have hnobody : ∀ d, holds d ≠ some u := by
    intro d hd
    rw [h.held d u hd] at hfree
    cases hfree
  have hlocked : ∀ v, locked v = true → Function.update locked u true v = true := by
    intro v hv
    by_cases hvu : v = u
    · rw [hvu, Function.update_self]
    · rw [Function.update_of_ne hvu]
      exact hv
  refine ⟨?_, ?_, ?_, ?_⟩
  · intro d v hd
    by_cases hdc : d = c
    · rw [hdc, Function.update_self] at hd
      rw [← Option.some.inj hd, Function.update_self]
    · rw [Function.update_of_ne hdc] at hd
      exact hlocked v (h.held d v hd)
  · intro t ht
    exact hlocked _ (h.resumed t ht)
  · intro d t hd
    by_cases hdc : d = c
    · rw [hdc, Function.update_self] at hd
      rw [← Bool.not_eq_true]
      intro hbusy
      have hno := h.resumed t hbusy
      rw [← Option.some.inj hd, hfree] at hno
      cases hno
    · rw [Function.update_of_ne hdc] at hd
      exact h.apart d t hd
  · intro d e v hd he
    by_cases hdc : d = c
    · by_cases hec : e = c
      · rw [hdc, hec]
      · rw [hdc, Function.update_self] at hd
        rw [Function.update_of_ne hec, ← hd] at he
        exact absurd he (hnobody e)
    · rw [Function.update_of_ne hdc] at hd
      by_cases hec : e = c
      · rw [hec, Function.update_self] at he
        rw [← he] at hd
        exact absurd hd (hnobody d)
      · rw [Function.update_of_ne hec] at he
        exact h.alone d e v hd he

theorem Locks.release (h : Locks locked holds resuming) (hc : holds c = some u) :
    Locks (Function.update locked u false) (Function.update holds c none) resuming := by
  have hother : ∀ d v, Function.update holds c none d = some v → holds d = some v ∧ v ≠ u := by
    intro d v hd
    by_cases hdc : d = c
    · rw [hdc, Function.update_self] at hd
      cases hd
    · rw [Function.update_of_ne hdc] at hd
      refine ⟨hd, ?_⟩
      rintro rfl
      exact hdc (h.alone d c v hd hc)
  refine ⟨?_, ?_, ?_, ?_⟩
  · intro d v hd
    obtain ⟨hd, hv⟩ := hother d v hd
    rw [Function.update_of_ne hv]
    exact h.held d v hd
  · intro t ht
    rw [Function.update_of_ne]
    · exact h.resumed t ht
    · intro hno
      rw [← hno] at hc
      rw [h.apart c t hc] at ht
      cases ht
  · intro d t hd
    exact h.apart d t (hother d _ hd).1
  · intro d e v hd he
    exact h.alone d e v (hother d v hd).1 (hother e v he).1

theorem Locks.resume (h : Locks locked holds resuming) (hfree : locked (.thread t) = false) :
    Locks (Function.update locked (.thread t) true) holds (Function.update resuming t true) := by
  have hlocked : ∀ v, locked v = true → Function.update locked (.thread t) true v = true := by
    intro v hv
    by_cases hvu : v = .thread t
    · rw [hvu, Function.update_self]
    · rw [Function.update_of_ne hvu]
      exact hv
  refine ⟨fun d v hd => hlocked v (h.held d v hd), ?_, ?_, h.alone⟩
  · intro t' ht'
    by_cases htt : t' = t
    · rw [htt, Function.update_self]
    · rw [Function.update_of_ne htt] at ht'
      exact hlocked _ (h.resumed t' ht')
  · intro d t' hd
    rw [Function.update_of_ne]
    · exact h.apart d t' hd
    · rintro rfl
      rw [h.held d _ hd] at hfree
      cases hfree

theorem Locks.resumeDone (h : Locks locked holds resuming) (ht : resuming t = true) :
    Locks (Function.update locked (.thread t) false) holds (Function.update resuming t false) := by
  have hnobody : ∀ d, holds d ≠ some (.thread t) := by
    intro d hd
    rw [h.apart d t hd] at ht
    cases ht
  refine ⟨?_, ?_, ?_, h.alone⟩
  · intro d v hd
    rw [Function.update_of_ne]
    · exact h.held d v hd
    · rintro rfl
      exact hnobody d hd
  · intro t' ht'
    by_cases htt : t' = t
    · rw [htt, Function.update_self] at ht'
      cases ht'
    · rw [Function.update_of_ne htt] at ht'
      rw [Function.update_of_ne (fun hno => htt (Tid.thread.inj hno))]
      exact h.resumed t' ht'
  · intro d t' hd
    by_cases htt : t' = t
    · rw [htt, Function.update_self]
    · rw [Function.update_of_ne htt]
      exact h.apart d t' hd

end

section Steps

variable [DecidableEq C] [DecidableEq T] {place : Tid C T → Place C} {s s' : State C T} {c : C}
  {u : Tid C T} {t : T}

theorem State.locked_modifyThread (s : State C T) (u : Tid C T) (f : Kthread C → Kthread C) :
    (fun v => ((s.modifyThread u f).threads v).threadLocked) =
      Function.update (fun v => (s.threads v).threadLocked) u
        (f (s.threads u)).threadLocked := by
  funext v
  rw [State.modifyThread_threads]
  by_cases hv : v = u
  · rw [hv, Function.update_self, Function.update_self]
  · rw [Function.update_of_ne hv, Function.update_of_ne hv]

theorem State.holds_setPc (s : State C T) (c : C) (pc : Pc C T) :
    (fun d => ((s.setPc c pc).pc d).holds ((s.setPc c pc).cpus d).currentThread) =
      Function.update (fun d => (s.pc d).holds (s.cpus d).currentThread) c
        (pc.holds (s.cpus c).currentThread) := by
  funext d
  rw [State.setPc_pc]
  by_cases hd : d = c
  · rw [hd, Function.update_self, Function.update_self]
    rfl
  · rw [Function.update_of_ne hd, Function.update_of_ne hd]
    rfl

theorem State.busy_setResuming (s : State C T) (t : T) (r : Resume C) :
    (fun t' => ((s.setResuming t r).resuming t').busy) =
      Function.update (fun t' => (s.resuming t').busy) t r.busy := by
  funext t'
  rw [State.setResuming_resuming]
  by_cases ht : t' = t
  · rw [ht, Function.update_self, Function.update_self]
  · rw [Function.update_of_ne ht, Function.update_of_ne ht]

theorem State.LocksOk.frame (h : s.LocksOk)
    (hlocked : ∀ v, (s'.threads v).threadLocked = (s.threads v).threadLocked)
    (hholds : ∀ d, (s'.pc d).holds (s'.cpus d).currentThread =
      (s.pc d).holds (s.cpus d).currentThread)
    (hbusy : ∀ t, (s'.resuming t).busy = (s.resuming t).busy) : s'.LocksOk := by
  rw [State.LocksOk, funext hlocked, funext hholds, funext hbusy]
  exact h

/-! ## The invariant -/

/-- **The invariant of priorities and locks.** -/
structure State.RealTime (s : State C T) : Prop where
  idle : ∀ d, s.prio (.idle d) = 0
  ordered : ∀ d, (s.cpus d).Ordered s.prio d (s.pc d)
  locks : s.LocksOk

theorem State.RealTime.update (h : s.RealTime) (c : C) (hprio : s'.prio = s.prio)
    (hcpus : ∀ d, d ≠ c → s'.cpus d = s.cpus d) (hpc : ∀ d, d ≠ c → s'.pc d = s.pc d)
    (hord : (s'.cpus c).Ordered s.prio c (s'.pc c)) (hlocks : s'.LocksOk) : s'.RealTime where
  idle := by
    rw [hprio]
    exact h.idle
  ordered := by
    intro d
    rw [hprio]
    by_cases hd : d = c
    · rw [hd]
      exact hord
    · rw [hcpus d hd, hpc d hd]
      exact h.ordered d
  locks := hlocks

theorem State.RealTime.modifyThread (h : s.RealTime) (u : Tid C T) (f : Kthread C → Kthread C)
    (hprio : (f (s.threads u)).priority = (s.threads u).priority)
    (hlocked : (f (s.threads u)).threadLocked = (s.threads u).threadLocked) :
    (s.modifyThread u f).RealTime := by
  have hsame := State.SameThreads.modifyThread s u f hprio hlocked
  refine ⟨?_, ?_, ?_⟩
  · rw [hsame.prio]
    exact h.idle
  · rw [hsame.prio]
    exact h.ordered
  · exact h.locks.frame hsame.locked (fun _ => rfl) (fun _ => rfl)

theorem State.RealTime.setPc (h : s.RealTime) (pc : Pc C T)
    (htop : (s.cpus c).top pc c = (s.cpus c).top (s.pc c) c)
    (hpre : ∀ next, pc.preempting = some next → (s.pc c).preempting = some next)
    (hholds : pc.holds (s.cpus c).currentThread = (s.pc c).holds (s.cpus c).currentThread) :
    (s.setPc c pc).RealTime := by
  have hpc : (s.setPc c pc).pc c = pc := Function.update_self _ _ _
  refine h.update c rfl (fun _ _ => rfl) (fun d hd => Function.update_of_ne hd _ _) ?_ ?_
  · rw [hpc]
    exact (h.ordered c).congr htop hpre
  · rw [State.LocksOk, State.holds_setPc, hholds]
    have hsame := Function.update_eq_self c (fun d => (s.pc d).holds (s.cpus d).currentThread)
    rw [hsame]
    exact h.locks

theorem State.RealTime.setCurrentMap (h : s.RealTime) (c : C) (map : ℕ) :
    (s.modifyCpu c (fun cpu => { cpu with currentMap := map })).RealTime := by
  have hcpu : (s.modifyCpu c (fun cpu => { cpu with currentMap := map })).cpus c =
      { s.cpus c with currentMap := map } := Function.update_self _ _ _
  have hother : ∀ d, d ≠ c →
      (s.modifyCpu c (fun cpu => { cpu with currentMap := map })).cpus d = s.cpus d :=
    fun d hd => Function.update_of_ne hd _ _
  refine h.update c rfl hother (fun _ _ => rfl) ?_ ?_
  · rw [hcpu]
    have hord := h.ordered c
    exact ⟨hord.index, hord.current, hord.idleRq, fun q => by cases q with
      | rq i p => exact hord.bound (.rq i p)
      | idleRq => exact hord.bound .idleRq, hord.better, hord.preempted⟩
  · refine h.locks.frame (fun _ => rfl) (fun d => ?_) (fun _ => rfl)
    by_cases hd : d = c
    · rw [hd, hcpu]
      rfl
    · rw [hother d hd]
      rfl

theorem State.RealTime.acquire (h : s.RealTime) (pc : Pc C T) (f : Kthread C → Kthread C)
    (hprio : (f (s.threads (s.cpus c).currentThread)).priority =
      (s.threads (s.cpus c).currentThread).priority)
    (hlocked : (f (s.threads (s.cpus c).currentThread)).threadLocked = true)
    (hfree : (s.threads (s.cpus c).currentThread).threadLocked = false)
    (htop : (s.cpus c).top pc c = (s.cpus c).top (s.pc c) c)
    (hpre : ∀ next, pc.preempting = some next → (s.pc c).preempting = some next)
    (hholds : pc.holds (s.cpus c).currentThread = some (s.cpus c).currentThread) :
    ((s.modifyThread (s.cpus c).currentThread f).setPc c pc).RealTime := by
  have hpc : ((s.modifyThread (s.cpus c).currentThread f).setPc c pc).pc c = pc :=
    Function.update_self _ _ _
  refine h.update c (s.prio_modifyThread _ f hprio) (fun _ _ => rfl)
    (fun d hd => Function.update_of_ne hd _ _) ?_ ?_
  · rw [hpc]
    exact (h.ordered c).congr htop hpre
  · have hholds' := (s.modifyThread (s.cpus c).currentThread f).holds_setPc c pc
    have hlocked' := s.locked_modifyThread (s.cpus c).currentThread f
    rw [hlocked] at hlocked'
    change _ = Function.update (fun d => (s.pc d).holds (s.cpus d).currentThread) c
      (pc.holds (s.cpus c).currentThread) at hholds'
    rw [hholds] at hholds'
    have hlocks := h.locks.acquire c hfree
    rw [← hlocked', ← hholds'] at hlocks
    exact hlocks

theorem State.RealTime.release (h : s.RealTime) (pc : Pc C T) (f : Kthread C → Kthread C)
    (hprio : (f (s.threads u)).priority = (s.threads u).priority)
    (hlocked : (f (s.threads u)).threadLocked = false)
    (hheld : (s.pc c).holds (s.cpus c).currentThread = some u)
    (htop : (s.cpus c).top pc c = (s.cpus c).top (s.pc c) c) (hpre : pc.preempting = none)
    (hholds : pc.holds (s.cpus c).currentThread = none) :
    ((s.modifyThread u f).setPc c pc).RealTime := by
  have hpc : ((s.modifyThread u f).setPc c pc).pc c = pc := Function.update_self _ _ _
  refine h.update c (s.prio_modifyThread _ f hprio) (fun _ _ => rfl)
    (fun d hd => Function.update_of_ne hd _ _) ?_ ?_
  · rw [hpc]
    refine (h.ordered c).congr htop (fun next hnext => ?_)
    rw [hpre] at hnext
    cases hnext
  · have hholds' := (s.modifyThread u f).holds_setPc c pc
    have hlocked' := s.locked_modifyThread u f
    rw [hlocked] at hlocked'
    change _ = Function.update (fun d => (s.pc d).holds (s.cpus d).currentThread) c
      (pc.holds (s.cpus c).currentThread) at hholds'
    rw [hholds] at hholds'
    have hlocks := h.locks.release hheld
    rw [← hlocked', ← hholds'] at hlocks
    exact hlocks

/-! ### One lemma for each event -/

/-- A thread that is nowhere is not what a processor runs, is about to run or puts back. -/
theorem State.RealTime.not_top (h : s.RealTime) (hsound : Sound place s)
    (hoff : place u = .off) (hfree : (s.threads u).threadLocked = false)
    (hthread : ∀ d, u ≠ .idle d) (d : C) : (s.cpus d).top (s.pc d) d ≠ u := by
  have hat : ∀ p, ¬ s.At u p := by
    intro p hp
    have hpl := (hsound.located.at_iff u p).mp hp
    rw [hoff] at hpl
    exact hpl.2 hpl.1.symm
  intro htop
  rw [Cpu.top] at htop
  cases hpc : s.pc d with
  | running =>
    rw [hpc] at htop
    refine hat (.active d) ⟨?_, htop⟩
    rw [hpc]
    trivial
  | preemptTaken next | preemptLocked next | swtching next =>
    rw [hpc] at htop
    refine hat (.incoming d) ?_
    show (s.pc d).incoming = some u
    rw [hpc]
    exact congrArg some htop
  | yieldTaken next =>
    rw [hpc] at htop
    cases next with
    | none => exact hthread d htop.symm
    | some next =>
      refine hat (.incoming d) ?_
      show (s.pc d).incoming = some u
      rw [hpc]
      exact congrArg some htop
  | yielding e =>
    -- its lock is held: it has not been switched away yet
    rw [hpc] at htop
    change (s.cpus d).currentThread = u at htop
    have hheld := h.locks.held d u (by rw [hpc, ← htop]; rfl)
    rw [hfree] at hheld
    cases hheld
  | switched old next | unlocking old next | finalizing next =>
    rw [hpc] at htop
    have hentered := (hsound.pcs d).entered next (by rw [hpc]; rfl)
    refine hat (.incoming d) ?_
    show (s.pc d).incoming = some u
    rw [hpc, ← htop]
    exact congrArg some hentered.symm

theorem State.RealTime.kthreadInit (h : s.RealTime) (hsound : Sound place s)
    (f : Kthread C → Kthread C)
    (hst : (s.threads (.thread t)).status = .undefined ∨
      (s.threads (.thread t)).status = .terminating)
    (hfree : (s.threads (.thread t)).threadLocked = false)
    (hf : (f (s.threads (.thread t))).threadLocked = false) :
    (s.modifyThread (.thread t) f).RealTime := by
  have hoff : place (.thread t) = .off := by
    apply hsound.located.off_of_status
    rcases hst with hst | hst
    · exact Or.inr (Or.inr hst)
    · exact Or.inr (Or.inl hst)
  have hprio : ∀ v, v ≠ .thread t → (s.modifyThread (.thread t) f).prio v = s.prio v := by
    intro v hv
    rw [State.prio, State.modifyThread_threads, Function.update_of_ne hv]
    rfl
  have hne : ∀ v p, s.At v p → v ≠ .thread t := by
    rintro v p hp rfl
    have hpl := (hsound.located.at_iff _ p).mp hp
    rw [hoff] at hpl
    exact hpl.2 hpl.1.symm
  refine ⟨?_, ?_, ?_⟩
  · intro d
    rw [hprio _ (fun he => by cases he)]
    exact h.idle d
  · intro d
    refine (h.ordered d).of_prio ?_ ?_ ?_ ?_
    · intro q v hv
      exact hprio v (hne v (.queued d q) hv)
    · intro v hv
      exact hprio v (hne v (.next d) hv)
    · exact hprio _ (h.not_top hsound hoff hfree (fun _ he => by cases he) d)
    · intro next hnext
      have hactive : (s.pc d).Active ∧ (s.pc d).incoming = some next := by
        cases hpc : s.pc d with
        | preemptTaken n | preemptLocked n =>
          rw [hpc] at hnext
          exact ⟨trivial, hnext⟩
        | running | yielding | yieldTaken | swtching | switched | unlocking | finalizing =>
          rw [hpc] at hnext
          cases hnext
      exact ⟨hprio _ (hne next (.incoming d) hactive.2),
        hprio _ (hne _ (.active d) ⟨hactive.1, rfl⟩)⟩
  · refine h.locks.frame (fun v => ?_) (fun _ => rfl) (fun _ => rfl)
    rw [State.modifyThread_threads]
    by_cases hv : v = .thread t
    · rw [hv, Function.update_self, hf, hfree]
    · rw [Function.update_of_ne hv]

theorem State.RealTime.schedResume (h : s.RealTime) (d : C)
    (hfree : (s.threads (.thread t)).threadLocked = false) :
    ((s.modifyThread (.thread t) (fun k => { k with threadLocked := true })).setResuming t
      (.locked d)).RealTime := by
  have hprio := s.prio_modifyThread (.thread t) (fun k => { k with threadLocked := true }) rfl
  refine ⟨?_, ?_, ?_⟩
  · intro e
    exact (congrFun hprio _).trans (h.idle e)
  · intro e
    have hord := h.ordered e
    rw [← hprio] at hord
    exact hord
  · have hlocks := h.locks.resume hfree
    have hlocked := s.locked_modifyThread (.thread t) (fun k => { k with threadLocked := true })
    have hbusy := (s.modifyThread (.thread t)
      (fun k => { k with threadLocked := true })).busy_setResuming t (.locked d)
    rw [← hlocked] at hlocks
    exact Eq.mpr (congrArg (Locks _ _) hbusy) hlocks

theorem State.RealTime.resumeUnlock (h : s.RealTime) (ht : s.resuming t = .inserted) :
    ((s.modifyThread (.thread t) (fun k => { k with threadLocked := false })).setResuming t
      .idle).RealTime := by
  have hprio := s.prio_modifyThread (.thread t) (fun k => { k with threadLocked := false }) rfl
  refine ⟨?_, ?_, ?_⟩
  · intro e
    exact (congrFun hprio _).trans (h.idle e)
  · intro e
    have hord := h.ordered e
    rw [← hprio] at hord
    exact hord
  · have hlocks := h.locks.resumeDone (t := t) (by rw [ht]; rfl)
    have hlocked := s.locked_modifyThread (.thread t) (fun k => { k with threadLocked := false })
    have hbusy := (s.modifyThread (.thread t)
      (fun k => { k with threadLocked := false })).busy_setResuming t .idle
    rw [← hlocked] at hlocks
    exact Eq.mpr (congrArg (Locks _ _) hbusy) hlocks

/-- The thread that an event inserts is compared as it is to be. -/
def Settled (s : State C T) : Event C T → Prop
  | .resumeInsert t => ∀ d ∈ (s.resuming t).target, (s.cpus d).nextThread = none →
      ∀ next ∈ (s.pc d).dispatching d, (s.cpus d).Agrees s.prio d (.thread t) next
  | _ => True

instance (s : State C T) (ev : Event C T) : Decidable (Settled s ev) := by
  cases ev with
  | resumeInsert t =>
    exact inferInstanceAs (Decidable (∀ d ∈ (s.resuming t).target, (s.cpus d).nextThread = none →
      ∀ next ∈ (s.pc d).dispatching d, (s.cpus d).Agrees s.prio d (.thread t) next))
  | _ => exact instDecidableTrue

/-- A thread has been inserted on a processor, whose place in the code does not change. -/
theorem State.RealTime.inserted (h : s.RealTime)
    (hagrees : (s.cpus c).nextThread = none → ∀ next, (s.pc c).dispatching c = some next →
      (s.cpus c).Agrees s.prio c u next) (hs : Sched.schedInsert 2 s c u = some s') :
    s.SameElsewhere s' c ∧ s'.RealTime := by
  obtain ⟨hsame, hord⟩ := schedInsert_ordered (h.ordered c) h.idle hagrees hs
  refine ⟨hsame, h.update c hsame.threads.prio hsame.cpus (fun d _ => by rw [hsame.pc]) ?_ ?_⟩
  · rw [← hsame.threads.prio]
    exact hord
  · refine h.locks.frame hsame.threads.locked (fun d => ?_) (fun t => by rw [hsame.resuming])
    rw [hsame.pc]
    by_cases hd : d = c
    · rw [hd, hsame.currentThread]
    · rw [hsame.cpus d hd]

theorem State.RealTime.resumeInsert (h : s.RealTime) (hC : Settled s (.resumeInsert t))
    (ht : s.resuming t = .locked c)
    (hs : (Sched.schedInsert 2 s c (.thread t)).map (fun s => s.setResuming t .inserted) =
      some s') : s'.RealTime := by
  obtain ⟨s₁, hins, rfl⟩ := Option.map_eq_some_iff.mp hs
  have hagrees : (s.cpus c).nextThread = none → ∀ next, (s.pc c).dispatching c = some next →
      (s.cpus c).Agrees s.prio c (.thread t) next := by
    intro hnone next hnext
    refine hC c ?_ hnone next hnext
    rw [ht]
    rfl
  obtain ⟨hsame, h₁⟩ := h.inserted hagrees hins
  refine ⟨h₁.idle, h₁.ordered, h₁.locks.frame (fun _ => rfl) (fun _ => rfl) ?_⟩
  intro t'
  by_cases htt : t' = t
  · rw [htt, hsame.resuming, ht, State.setResuming_resuming, Function.update_self]
    rfl
  · rw [State.setResuming_resuming, Function.update_of_ne htt]

theorem State.RealTime.takeNextThread (h : s.RealTime) (pc : Pc C T) {next : Tid C T}
    (hnext : (s.cpus c).nextThread = some next) (hd : (s.pc c).dispatching c = none)
    (hd' : pc.dispatching c = some next) (hpre : ∀ n, pc.preempting = some n → n = next)
    (hholds : pc.holds (s.cpus c).currentThread = (s.pc c).holds (s.cpus c).currentThread) :
    (((s.modifyCpu c (fun cpu => { cpu with nextThread := none })).setStatus next
      .switching).setPc c pc).RealTime := by
  generalize hs' : ((s.modifyCpu c (fun cpu => { cpu with nextThread := none })).setStatus next
    .switching).setPc c pc = s'
  have hthreads : s.SameThreads s' := by
    have hstatus := State.SameThreads.modifyThread
      (s.modifyCpu c (fun cpu => { cpu with nextThread := none })) next
      (fun k => { k with status := .switching }) rfl rfl
    rw [← hs']
    exact ⟨hstatus.prio, hstatus.locked⟩
  have hcpu : s'.cpus c = { s.cpus c with nextThread := none } := by
    rw [← hs']
    exact Function.update_self _ _ _
  have hpc : s'.pc c = pc := by
    rw [← hs']
    exact Function.update_self _ _ _
  have hcpus : ∀ d, d ≠ c → s'.cpus d = s.cpus d := by
    intro d hne
    rw [← hs']
    exact Function.update_of_ne hne _ _
  have hpcs : ∀ d, d ≠ c → s'.pc d = s.pc d := by
    intro d hne
    rw [← hs']
    exact Function.update_of_ne hne _ _
  refine h.update c hthreads.prio hcpus hpcs ?_ ?_
  · rw [hcpu, hpc]
    exact (h.ordered c).takeNext hnext hd hd' hpre
  · refine h.locks.frame hthreads.locked (fun d => ?_) (fun t => by rw [← hs']; rfl)
    by_cases hd : d = c
    · rw [hd, hcpu, hpc]
      exact hholds
    · rw [hcpus d hd, hpcs d hd]

theorem State.RealTime.takeQueued (h : s.RealTime)
    (hok : (s.cpus c).Ok) (hpc : s.pc c = .yielding c) {r : Option (Tid C T)}
    (hnext : (s.cpus c).nextThread = none) {cpu' : Cpu C T}
    (hsel : Sched.selectNext (s.cpus c) 0 = some (r, cpu'))
    (hsame : (s.cpus c).SameBut cpu') (hthreads : s.SameThreads s')
    (hcpus : s'.cpus = Function.update s.cpus c cpu')
    (hpcs : s'.pc = Function.update s.pc c (.yieldTaken r)) (hres : s'.resuming = s.resuming) :
    s'.RealTime := by
  refine h.update c hthreads.prio ?_ ?_ ?_ ?_
  · intro d hd
    rw [hcpus, Function.update_of_ne hd]
  · intro d hd
    rw [hpcs, Function.update_of_ne hd]
  · rw [hcpus, hpcs, Function.update_self, Function.update_self]
    exact ((h.ordered c).selectNext hok hnext hsel).2
  · refine h.locks.frame hthreads.locked (fun d => ?_) (fun t => by rw [hres])
    rw [hcpus, hpcs]
    by_cases hd : d = c
    · rw [hd, Function.update_self, Function.update_self, hsame.currentThread, hpc]
      rfl
    · rw [Function.update_of_ne hd, Function.update_of_ne hd]

theorem State.RealTime.swtch (h : s.RealTime) {next : Tid C T} (hpc : s.pc c = .swtching next) :
    (Sched.swtch s c (s.cpus c).currentThread next).RealTime := by
  unfold Sched.swtch
  split_ifs
  · exact ⟨h.idle, h.ordered, h.locks⟩
  · exact ⟨h.idle, h.ordered, h.locks⟩
  · generalize mapAfterSwtch s c (s.threads (s.cpus c).currentThread) (s.threads next) = map
    have hthreads : s.SameThreads (s.modifyThread (s.cpus c).currentThread
        (fun k => { k with affinityCpu := some c })) :=
      State.SameThreads.modifyThread s _ _ rfl rfl
    generalize hs' : ((s.modifyThread (s.cpus c).currentThread
      (fun k => { k with affinityCpu := some c })).modifyCpu c
      (fun cpu => { cpu with currentThread := next, currentMap := map })).setPc c
      (.switched (s.cpus c).currentThread next) = s'
    have hcpu : s'.cpus c = { s.cpus c with currentThread := next, currentMap := map } := by
      rw [← hs']
      exact Function.update_self _ _ _
    have hpc' : s'.pc c = .switched (s.cpus c).currentThread next := by
      rw [← hs']
      exact Function.update_self _ _ _
    have hcpus : ∀ d, d ≠ c → s'.cpus d = s.cpus d := by
      intro d hne
      rw [← hs']
      exact Function.update_of_ne hne _ _
    have hpcs : ∀ d, d ≠ c → s'.pc d = s.pc d := by
      intro d hne
      rw [← hs']
      exact Function.update_of_ne hne _ _
    have hprio : s'.prio = s.prio := by
      rw [← hs']
      exact hthreads.prio
    refine h.update c hprio hcpus hpcs ?_ ?_
    · rw [hcpu, hpc']
      have hord := h.ordered c
      rw [hpc] at hord
      refine ⟨hord.index, hord.current, hord.idleRq, fun q => ?_, hord.better, ?_⟩
      · cases q with
        | rq i p => exact hord.bound (.rq i p)
        | idleRq => exact hord.bound .idleRq
      · intro n hn
        cases hn
    · refine h.locks.frame (fun v => ?_) (fun d => ?_) (fun t => by rw [← hs']; rfl)
      · rw [← hs']
        exact hthreads.locked v
      · by_cases hd : d = c
        · rw [hd, hcpu, hpc', hpc]
          rfl
        · rw [hcpus d hd, hpcs d hd]

/-- The preempted thread is inserted again: the one that preempts it is not below. -/
theorem State.RealTime.preemptInsert (h : s.RealTime) {next : Tid C T}
    (hpc : s.pc c = .preemptLocked next) (hidle : (s.cpus c).currentThread ≠ .idle c)
    (hs : (Sched.schedInsert 2 s c (s.cpus c).currentThread).map
      (fun s => s.setPc c (.swtching next)) = some s') : s'.RealTime := by
  obtain ⟨s₁, hins, rfl⟩ := Option.map_eq_some_iff.mp hs
  have hagrees : (s.cpus c).nextThread = none → ∀ n, (s.pc c).dispatching c = some n →
      (s.cpus c).Agrees s.prio c (s.cpus c).currentThread n := by
    intro _ n hn
    rw [hpc] at hn
    obtain rfl : next = n := Option.some.inj hn
    refine ⟨fun hrt => ?_, fun _ hno => absurd hno hidle⟩
    have hpre := (h.ordered c).preempted next (by rw [hpc]; rfl) hrt
    exact iff_of_true le_rfl hpre
  obtain ⟨hsame, h₁⟩ := h.inserted hagrees hins
  have hpc₁ : s₁.pc c = .preemptLocked next := by
    rw [hsame.pc]
    exact hpc
  refine h₁.setPc (.swtching next) ?_ ?_ ?_
  · rw [hpc₁]
    rfl
  · intro n hn
    cases hn
  · rw [hpc₁]
    rfl

theorem State.RealTime.yields (h : s.RealTime) (hok : (s.cpus c).Ok) (hpc : s.pc c = .yielding c)
    {next : Option (Tid C T)} {s₁ : State C T} (hs : takeNext s c = some (next, s₁)) :
    (s₁.setPc c (.yieldTaken next)).RealTime := by
  unfold takeNext at hs
  cases hn : (s.cpus c).nextThread with
  | some n =>
    rw [hn] at hs
    obtain ⟨rfl, rfl⟩ := Prod.mk.inj (Option.some.inj hs)
    refine h.takeNextThread _ hn (by rw [hpc]; rfl) rfl (fun _ hno => by cases hno) ?_
    rw [hpc]
    rfl
  | none =>
    rw [hn] at hs
    obtain ⟨r, cpu', hsel, _, hsame, _⟩ := selectNext_spec hok
    rw [hsel] at hs
    cases r with
    | none =>
      obtain ⟨rfl, rfl⟩ := Prod.mk.inj (Option.some.inj hs)
      exact h.takeQueued hok hpc hn hsel hsame ⟨rfl, fun _ => rfl⟩ rfl rfl rfl
    | some n =>
      obtain ⟨rfl, rfl⟩ := Prod.mk.inj (Option.some.inj hs)
      have hstatus := State.SameThreads.modifyThread (s.modifyCpu c (fun _ => cpu')) n
        (fun k => { k with status := .switching }) rfl rfl
      exact h.takeQueued hok hpc hn hsel hsame ⟨hstatus.prio, hstatus.locked⟩ rfl rfl rfl

theorem State.RealTime.runPc (h : s.RealTime) (hsound : Sound place s)
    (hs : Sched.runPc s c = some s') : s'.RealTime := by
  unfold Sched.runPc at hs
  cases hpc : s.pc c with
  | running => simp [hpc] at hs
  | preemptTaken next =>
    simp only [hpc] at hs
    split_ifs at hs with hwait
    cases hs
    rw [not_or, Bool.not_eq_true] at hwait
    exact h.acquire (.preemptLocked next) _ rfl rfl ((Bool.not_eq_true _).mp hwait.2)
      (by rw [hpc]; rfl) (fun n hn => by rw [hpc]; exact hn) rfl
  | preemptLocked next =>
    simp only [hpc] at hs
    split_ifs at hs with hidle
    · cases hs
      have h₁ := h.modifyThread (s.cpus c).currentThread (fun k => { k with status := .ready })
        rfl rfl
      have hpc₁ : (s.modifyThread (s.cpus c).currentThread
          (fun k => { k with status := .ready })).pc c = .preemptLocked next := hpc
      exact h₁.setPc (.swtching next) (by rw [hpc₁]; rfl) (fun n hn => by cases hn)
        (by rw [hpc₁]; rfl)
    · exact h.preemptInsert hpc hidle hs
  | yielding d =>
    obtain rfl : d = c := (hsound.pcs c).yielding d hpc
    simp only [hpc] at hs
    cases htake : takeNext s d with
    | none =>
      rw [htake] at hs
      cases hs
      exact ⟨h.idle, h.ordered, h.locks⟩
    | some r =>
      obtain ⟨next, s₁⟩ := r
      rw [htake] at hs
      cases hs
      exact h.yields (hsound.ok d) hpc htake
  | yieldTaken next =>
    cases next with
    | none =>
      simp only [hpc] at hs
      cases hs
      exact h.setPc (.swtching (.idle c)) (by rw [hpc]; rfl) (fun n hn => by cases hn)
        (by rw [hpc]; rfl)
    | some next =>
      simp only [hpc] at hs
      split_ifs at hs
      cases hs
      exact h.setPc (.swtching next) (by rw [hpc]; rfl) (fun n hn => by cases hn)
        (by rw [hpc]; rfl)
  | swtching next =>
    simp only [hpc] at hs
    cases hs
    exact h.swtch hpc
  | switched current next =>
    simp only [hpc] at hs
    cases hs
    have h₁ := h.modifyThread current (fun k => { k with switching := false }) rfl rfl
    have hpc₁ : (s.modifyThread current (fun k => { k with switching := false })).pc c =
        .switched current next := hpc
    exact h₁.setPc (.unlocking current next) (by rw [hpc₁]; rfl) (fun n hn => by cases hn)
      (by rw [hpc₁]; rfl)
  | unlocking current next =>
    simp only [hpc] at hs
    cases hs
    exact h.release (.finalizing next) (fun k => { k with threadLocked := false }) rfl rfl
      (by rw [hpc]; rfl) (by rw [hpc]; rfl) rfl rfl
  | finalizing next =>
    simp only [hpc] at hs
    cases hs
    have h₁ := h.modifyThread next (fun k => { k with status := .running }) rfl rfl
    have hpc₁ : (s.modifyThread next (fun k => { k with status := .running })).pc c =
        .finalizing next := hpc
    exact h₁.setPc .running (by rw [hpc₁]; rfl) (fun n hn => by cases hn) (by rw [hpc₁]; rfl)

theorem State.RealTime.blocks (h : s.RealTime) (hpc : s.pc c = .running) (d : C)
    (hfree : (s.threads (s.cpus c).currentThread).threadLocked = false)
    (f : Kthread C → Kthread C) (hprio : ∀ k, (f k).priority = k.priority)
    (hlocked : ∀ k, (f k).threadLocked = true) :
    ((s.modifyThread (s.cpus c).currentThread f).setPc c (.yielding d)).RealTime := by
  refine h.acquire (.yielding d) f (hprio _) (hlocked _) hfree ?_ ?_ rfl
  · rw [hpc]
    rfl
  · intro n hn
    cases hn

/-- **Step lemma.** -/
theorem State.RealTime.step {ev : Event C T} (h : s.RealTime) (hsound : Sound place s)
    (hC : Settled s ev) (hs : stepEvent s ev = some s') : s'.RealTime := by
  cases ev with
  | kthreadInit t priority userThread ownerProcess =>
    simp only [stepEvent] at hs
    split_ifs at hs with hst
    cases hs
    have hfree := (Bool.not_eq_true _).mp hst.2
    exact h.kthreadInit hsound _ hst.1 hfree hfree
  | schedResume t cpu =>
    simp only [stepEvent] at hs
    split_ifs at hs with hst
    cases hs
    exact h.schedResume cpu ((Bool.not_eq_true _).mp hst.2.1)
  | resumeInsert t =>
    simp only [stepEvent] at hs
    cases hr : s.resuming t with
    | idle | inserted => simp [hr] at hs
    | locked cpu =>
      simp only [hr] at hs
      exact h.resumeInsert hC hr hs
  | resumeUnlock t =>
    simp only [stepEvent] at hs
    cases hr : s.resuming t with
    | idle | locked => simp [hr] at hs
    | inserted =>
      simp only [hr] at hs
      cases hs
      exact h.resumeUnlock hr
  | schedPreempt c =>
    simp only [stepEvent] at hs
    split at hs
    · rename_i next hpc hnext
      cases hs
      exact h.takeNextThread (.preemptTaken next) hnext (by rw [hpc]; rfl) rfl
        (fun n hn => (Option.some.inj hn).symm) (by rw [hpc]; rfl)
    · cases hs
  | doWait c =>
    simp only [stepEvent] at hs
    split at hs
    · rename_i hpc
      split_ifs at hs with hidle
      rw [not_or] at hidle
      have hfree := (Bool.not_eq_true _).mp hidle.2
      split at hs
      · cases hs
        exact ⟨h.idle, h.ordered, h.locks⟩
      · rename_i lastCpu hlast
        cases hs
        exact h.blocks hpc lastCpu hfree _ (fun _ => rfl) (fun _ => rfl)
    · cases hs
  | schedExitSelf c =>
    simp only [stepEvent] at hs
    split at hs
    · rename_i hpc
      split_ifs at hs with hidle
      rw [not_or] at hidle
      have hfree := (Bool.not_eq_true _).mp hidle.2
      cases hs
      have h₁ := h.blocks hpc c hfree (fun k => { k with
        vmCtx := some kmap, threadLocked := true, status := .terminating }) (fun _ => rfl)
        (fun _ => rfl)
      exact h₁.setCurrentMap c kmap
    · cases hs
  | vmMapTmpSwitch c map =>
    simp only [stepEvent] at hs
    split at hs
    · split_ifs at hs
      cases hs
      have h₁ := h.modifyThread (s.cpus c).currentThread (fun k => { k with
        origMap := (s.cpus c).currentMap, vmCtx := some map }) rfl rfl
      exact h₁.setCurrentMap c map
    · cases hs
  | vmMapTmpDisable c =>
    simp only [stepEvent] at hs
    split at hs
    · split_ifs at hs
      cases hs
      have h₁ := h.modifyThread (s.cpus c).currentThread (fun k => { k with vmCtx := none })
        rfl rfl
      exact h₁.setCurrentMap c _
    · cases hs
  | execActivate c map =>
    simp only [stepEvent] at hs
    split at hs
    · split_ifs at hs
      cases hs
      have h₁ : (s.setProcessMap (s.threads (s.cpus c).currentThread).ownerProcess map).RealTime :=
        ⟨h.idle, h.ordered, h.locks⟩
      exact h₁.setCurrentMap c map
    · cases hs
  | run c => exact h.runPc hsound hs

end Steps

/-! ## Runs -/

section Runs

variable [DecidableEq C] [DecidableEq T] {s : State C T}

theorem realTime_initial (processMap : ℕ → ℕ) : (initial processMap : State C T).RealTime where
  idle := fun _ => rfl
  ordered := by
    intro d
    refine ⟨?_, ?_, ?_, ?_, ?_, ?_⟩
    · intro i p u hu
      cases hu
    · intro i p u hu
      cases hu
    · intro u hu
      cases hu
    · intro q u hu
      cases q <;> cases hu
    · intro next hnext
      cases hnext
    · intro next hnext
      cases hnext
  locks := by
    refine ⟨?_, ?_, ?_, ?_⟩
    · intro c u hc
      cases hc
    · intro t ht
      cases ht
    · intro c t hc
      cases hc
    · intro c d u hc
      cases hc

/-- **Run lemma.** -/
theorem State.RealTime.of_reachable (h : (system C T).ReachableUnder Settled s) :
    ∃ place, Sound place s ∧ s.RealTime := by
  apply TransitionSystem.ReachableUnder.invariant ?_ ?_ h
  · rintro _ ⟨processMap, -, rfl⟩
    exact ⟨initialPlace, sound_initial processMap, realTime_initial processMap⟩
  · rintro s ev s' ⟨place, hsound, hI⟩ hC hs
    unfold system Sched.step at hs
    simp only at hs
    split_ifs at hs
    obtain ⟨place', hsound'⟩ := hsound.step hs
    exact ⟨place', hsound', hI.step hsound hC hs⟩

end Runs

end Sched
