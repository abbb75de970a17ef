/-
# Wakeups of the reader-writer lock

The event of a `struct rwlock` wakes one waiter at a time, so each wakeup has to be
carried on: by a thread that will take the lock and alarm the event when it lets go,
or by the alarm itself.  A reader that was woken can drop it: it goes back to sleep
when a writer is pending, even on a free lock.

Runs in which no woken reader does that keep the token `WakeToken`, and never lose a
wakeup.
-/
import YakKernel.Rwlock

namespace Rwlock

variable {T : Type*} [DecidableEq T]

/-! ## The wake token -/

/-- The thread sleeps in `sched_wait` and nobody has resumed it. -/
def Pc.IsBlocked (p : Pc) : Prop := ∃ w, p.waitState = some w ∧ w.IsBlocked

instance (p : Pc) : Decidable p.IsBlocked :=
  match h : p.waitState with
  | none => isFalse (by rintro ⟨w, hw, -⟩; rw [h] at hw; cases hw)
  | some w =>
    if hb : w.IsBlocked then isTrue ⟨w, h, hb⟩
    else isFalse (by
      rintro ⟨w', hw', hb'⟩
      rw [h] at hw'
      cases hw'
      exact hb hb')

/-- The lock is free and its event unsignalled, no thread holds it, runs in its code
or is about to, and some thread is blocked. -/
def LostWakeup (s : State T) : Prop :=
  s.lock.state = 0 ∧ s.lock.event.objSignalCount = 0 ∧
    (∀ t, s.pc t = .outside ∨ (s.pc t).IsBlocked) ∧ ∃ t, (s.pc t).IsBlocked

/-- A woken reader that has read a free lock word does not find an exclusive count
while the lock is still free. -/
def NoSwallow (s : State T) : Event T → Prop
  | .run t =>
    match s.pc t with
    | .sharedCount 0 _ true => s.lock.exclusiveCount ≠ 0 → s.lock.state ≠ 0
    | _ => True
  | _ => True

instance (s : State T) (ev : Event T) : Decidable (NoSwallow s ev) := by
  unfold NoSwallow
  split
  · split <;> infer_instance
  · infer_instance

/-- The thread is on its way into the queue, or in it and not yet resumed, or has
read a lock word that was not free. -/
def Pc.IsPending : Pc → Prop
  | .sharedWait _ | .exclusiveWait _ => True
  | .sharedWaiting w | .exclusiveWaiting w => w.waitStatus = none
  | .sharedCount state _ _ | .sharedCas state _ _ => state ≠ 0
  | _ => False

/-- The thread will try for the lock on behalf of the others, or alarm the event. -/
def Pc.IsCarrier : Pc → Prop
  | .sharedLoad _ retry => retry = true
  | .sharedCount state _ retry | .sharedCas state _ retry => state = 0 ∧ retry = true
  | .sharedWaiting w | .exclusiveWaiting w => w.waitStatus = some .success
  | .exclusiveLoad _ | .exclusiveCas _ => True
  | .releaseSharedAlarm _ | .releaseExclusiveAlarm => True
  | _ => False

/-- While somebody is pending, the lock is held, its event is signalled, or some
thread carries the wakeup. -/
def WakeToken (s : State T) : Prop :=
  (∃ t, (s.pc t).IsPending) →
    s.lock.state ≠ 0 ∨ 0 < s.lock.event.objSignalCount ∨ ∃ t, (s.pc t).IsCarrier

/-- No timeout is armed, and a wait that has ended has ended well. -/
def Pc.Untimed : Pc → Prop
  | .sharedLoad hasTimeout _ | .sharedCount _ hasTimeout _ => hasTimeout = false
  | .sharedCas _ hasTimeout _ | .sharedWait hasTimeout => hasTimeout = false
  | .exclusiveAdd hasTimeout | .exclusiveLoad hasTimeout => hasTimeout = false
  | .exclusiveCas hasTimeout | .exclusiveWait hasTimeout => hasTimeout = false
  | .sharedWaiting w | .exclusiveWaiting w =>
    w.hasTimeout = false ∧ (w.waitStatus = none ∨ w.waitStatus = some .success)
  -- reached only from a failed wait
  | .exclusiveSub => False
  | _ => True

/-- Every queued wait block belongs to a thread that waits and has not been resumed. -/
def Queued (event : Kobject T) (pc : T → Pc) : Prop :=
  ∀ wb ∈ event.objWaitList, wb.status = .success ∧ wb.unwaited = false ∧
    ∃ w, (pc wb.thread).waitState = some w ∧ w.waitStatus = none

/-- The invariant of the runs without timeouts in which no wakeup is swallowed. -/
structure Inv (s : State T) : Prop where
  counted : Counted s
  sync : s.lock.event.objType = .objSync
  nonneg : 0 ≤ s.lock.event.objSignalCount
  consistent : s.lock.event.Consistent
  untimed : ∀ t, (s.pc t).Untimed
  queued : Queued s.lock.event s.pc
  token : WakeToken s

/-! ## Waiting without timeouts -/

variable {lock lock' : Rwlock T} {t : T} {p p' : Pc} {woken : List (WaitBlock T)}

/-- Without timeouts a waiting thread leaves `sched_wait` only to try again. -/
theorem runWaiting_untimed {w : WaitState} {again failed : Pc} {waiting : WaitState → Pc}
    (h : runWaiting lock t w again failed waiting = .next lock' p' woken)
    (hw : w.waitStatus = none ∨ w.waitStatus = some .success) :
    woken = [] ∧
      ((lock' = lock ∧ p' = waiting { w with waitPhase := .comitted }) ∨
       (w.waitStatus = some .success ∧
        lock' = { lock with event := lock.event.wbDequeue t } ∧ p' = again)) := by
  obtain ⟨hwoken, h | ⟨status, hst, hlock, hp⟩⟩ := runWaiting_next h
  · exact ⟨hwoken, Or.inl h⟩
  · have hsucc : status = .success := by
      rcases hw with hw | hw
      · rw [hst] at hw
        cases hw
      · rw [hst] at hw
        exact Option.some.inj hw
    subst hsucc
    exact ⟨hwoken, Or.inr ⟨hst, hlock, by simpa [Status.isErr] using hp⟩⟩

theorem runPc_untimed (h : runPc lock t p = .next lock' p' woken) (hu : p.Untimed) :
    p'.Untimed := by
  cases p with
  | outside | shared | exclusive => simp [runPc] at h
  | sharedLoad | sharedCount | exclusiveLoad =>
    simp only [runPc] at h
    split_ifs at h <;> cases h <;> exact hu
  | sharedCas | exclusiveCas =>
    simp only [runPc] at h
    split_ifs at h <;> cases h
    · trivial
    · exact hu
  | sharedWait | exclusiveWait =>
    obtain ⟨-, -, -, ⟨-, -, rfl⟩ | ⟨-, -, rfl⟩⟩ := runWait_next h
    · exact hu
    · exact ⟨hu, Or.inl rfl⟩
  | sharedWaiting | exclusiveWaiting =>
    obtain ⟨-, ⟨-, rfl⟩ | ⟨-, -, rfl⟩⟩ := runWaiting_untimed h hu.2
    · exact ⟨hu.1, hu.2⟩
    · exact hu.1
  | releaseSharedAlarm upgrade =>
    obtain ⟨-, -, -, rfl⟩ := runAlarm_next h
    cases upgrade <;> trivial
  | releaseExclusiveAlarm =>
    obtain ⟨-, -, -, rfl⟩ := runAlarm_next h
    trivial
  | releaseSharedSub upgrade =>
    simp only [runPc] at h
    split_ifs at h <;> cases h
    · trivial
    · cases upgrade <;> trivial
  | releaseSharedAssert | exclusiveAssert | releaseExclusiveAssert | upgradeCas =>
    simp only [runPc] at h
    split_ifs at h <;> cases h <;> trivial
  | exclusiveAdd =>
    cases h
    exact hu
  | exclusiveSub => exact hu.elim
  | exclusiveStore | releaseExclusiveSub | releaseExclusiveStore
  | releaseExclusiveAnd | upgradeLoad | upgradeAdd | upgradeSub =>
    cases h
    trivial

/-! ## What one access does to the token -/

/-- How the token survives one access: the thread carries it on, the lock is held,
the event is signalled, somebody was resumed, nothing changed, or a reader on its
first try steps back for a pending writer. -/
inductive TokenChange (lock lock' : Rwlock T) (p p' : Pc) (woken : List (WaitBlock T)) : Prop where
  | carrier : p'.IsCarrier → TokenChange lock lock' p p' woken
  | held : lock'.state ≠ 0 → TokenChange lock lock' p p' woken
  | signalled : 0 < lock'.event.objSignalCount → TokenChange lock lock' p p' woken
  | resumed : woken ≠ [] → TokenChange lock lock' p p' woken
  | quiet : lock'.state = lock.state →
      lock'.event.objSignalCount = lock.event.objSignalCount → ¬ p.IsCarrier →
      (p'.IsPending → p.IsPending) → TokenChange lock lock' p p' woken
  | reader : lock' = lock → lock.exclusiveCount ≠ 0 → ¬ p.IsCarrier →
      TokenChange lock lock' p p' woken

omit [DecidableEq T] in
theorem tokenChange_of_wait {hasTimeout : Bool} {again : Pc} {waiting : WaitState → Pc}
    (h : runWait lock t hasTimeout again waiting = .next lock' p' woken)
    (hp : p.IsPending) (hnc : ¬ p.IsCarrier) (ha : again.IsCarrier) :
    TokenChange lock lock' p p' woken := by
  obtain ⟨event, rfl, -, ⟨-, -, rfl⟩ | ⟨-, rfl, rfl⟩⟩ := runWait_next h
  · exact .carrier ha
  · exact .quiet rfl rfl hnc (fun _ => hp)

theorem tokenChange_of_waiting {w : WaitState} {again failed : Pc} {waiting : WaitState → Pc}
    (h : runWaiting lock t w again failed waiting = .next lock' p' woken)
    (hw : w.waitStatus = none ∨ w.waitStatus = some .success)
    (hpend : ∀ w, (waiting w).IsPending ↔ w.waitStatus = none)
    (hcar : ∀ w, (waiting w).IsCarrier ↔ w.waitStatus = some .success)
    (hp : p = waiting w) (ha : again.IsCarrier) : TokenChange lock lock' p p' woken := by
  obtain ⟨-, ⟨rfl, rfl⟩ | ⟨-, -, rfl⟩⟩ := runWaiting_untimed h hw
  · rcases hw with hw | hw
    · refine .quiet rfl rfl ?_ ?_
      · rw [hp, hcar, hw]
        simp
      · rw [hp, hpend, hpend]
        exact id
    · exact .carrier ((hcar _).mpr hw)
  · exact .carrier ha

omit [DecidableEq T] in
/-- An alarm on a queue of live waiters signals the event or resumes one of them. -/
theorem tokenChange_of_alarm {after : Pc} (h : runAlarm lock after = .next lock' p' woken)
    (hsync : lock.event.objType = .objSync) (hnonneg : 0 ≤ lock.event.objSignalCount)
    (hcons : lock.event.Consistent) (hlive : ∀ wb ∈ lock.event.objWaitList, wb.unwaited = false) :
    TokenChange lock lock' p p' woken := by
  obtain ⟨event, halarm, rfl, rfl⟩ := runAlarm_next h
  rcases Kobject.eventAlarm_cases hsync hcons halarm with
    ⟨hsig, rfl, -⟩ | ⟨-, -, rfl, -⟩ | ⟨-, q₁, wb, q₂, -, -, -, -, rfl⟩ | ⟨-, hne, hall, -, -⟩
  · refine .signalled ?_
    simp only
    omega
  · exact .signalled (by simp)
  · exact .resumed (by simp)
  · obtain ⟨wb, hwb⟩ := List.exists_mem_of_ne_nil _ hne
    have := hall wb hwb
    rw [hlive wb hwb] at this
    cases this

/-- **The token under one access.**  A reader on its retry needs the lock not to be
free when it finds an exclusive count. -/
theorem runPc_tokenChange (h : runPc lock t p = .next lock' p' woken)
    (hsync : lock.event.objType = .objSync) (hnonneg : 0 ≤ lock.event.objSignalCount)
    (hcons : lock.event.Consistent) (hlive : ∀ wb ∈ lock.event.objWaitList, wb.unwaited = false)
    (hu : p.Untimed)
    (hC : ∀ hasTimeout, p = .sharedCount 0 hasTimeout true → lock.exclusiveCount ≠ 0 →
      lock.state ≠ 0)
    (hle : lock.state ≤ rwlockExclusive)
    (hheld : p.HoldsShared ∨ p.HoldsExclusive → lock.state ≠ 0) :
    TokenChange lock lock' p p' woken := by
  cases p with
  | outside | shared | exclusive => simp [runPc] at h
  | sharedLoad hasTimeout retry =>
    simp only [runPc] at h
    split_ifs at h with hex <;> cases h
    · refine .held (fun h0 => ?_)
      simp [h0, hasExclusive] at hex
    · by_cases h0 : lock.state = 0
      · cases retry with
        | true => exact .carrier ⟨h0, rfl⟩
        | false => exact .quiet rfl rfl (by simp [Pc.IsCarrier]) (fun hp => absurd h0 hp)
      · exact .held h0
  | sharedCount state hasTimeout retry =>
    simp only [runPc] at h
    split_ifs at h with hcount <;> cases h
    · by_cases h0 : state = 0
      · subst h0
        cases retry with
        | true => exact .held (hC hasTimeout rfl hcount)
        | false => exact .reader rfl hcount (by simp [Pc.IsCarrier])
      · exact .quiet rfl rfl (fun hc => h0 hc.1) (fun _ => h0)
    · by_cases hc : state = 0 ∧ retry = true
      · exact .carrier hc
      · exact .quiet rfl rfl hc id
  | sharedCas state hasTimeout retry =>
    simp only [runPc] at h
    split_ifs at h with heq <;> cases h
    · refine .held ?_
      simp only [incr, rwlockExclusive] at *
      omega
    · by_cases h0 : state = 0
      · exact .held (h0 ▸ heq)
      · exact .quiet rfl rfl (fun hc => h0 hc.1) (fun _ => h0)
  | sharedWait hasTimeout => exact tokenChange_of_wait h trivial id rfl
  | sharedWaiting w =>
    exact tokenChange_of_waiting h hu.2 (fun _ => Iff.rfl) (fun _ => Iff.rfl) rfl rfl
  | releaseSharedAssert upgrade =>
    simp only [runPc] at h
    split_ifs at h
    cases h
    exact .held (hheld (Or.inl trivial))
  | releaseSharedSub upgrade =>
    simp only [runPc] at h
    split_ifs at h with hpos hone <;> cases h
    · exact .carrier trivial
    · refine .held ?_
      simp only [readers, decr, rwlockExclusive] at *
      omega
  | releaseSharedAlarm upgrade => exact tokenChange_of_alarm h hsync hnonneg hcons hlive
  | exclusiveAdd hasTimeout =>
    cases h
    exact .carrier trivial
  | exclusiveLoad hasTimeout =>
    simp only [runPc] at h
    split_ifs at h with h0 <;> cases h
    · exact .held h0
    · exact .carrier trivial
  | exclusiveCas hasTimeout =>
    simp only [runPc] at h
    split_ifs at h with h0 <;> cases h
    · exact .held (by simp [rwlockExclusive])
    · exact .held h0
  | exclusiveWait hasTimeout => exact tokenChange_of_wait h trivial id trivial
  | exclusiveWaiting w =>
    exact tokenChange_of_waiting h hu.2 (fun _ => Iff.rfl) (fun _ => Iff.rfl) rfl trivial
  | exclusiveSub =>
    cases h
    exact .quiet rfl rfl id id
  | exclusiveAssert =>
    simp only [runPc] at h
    split_ifs at h
    cases h
    exact .held (hheld (Or.inr trivial))
  | releaseExclusiveAssert =>
    simp only [runPc] at h
    split_ifs at h
    cases h
    exact .held (hheld (Or.inr trivial))
  | exclusiveStore | releaseExclusiveSub | releaseExclusiveStore =>
    cases h
    exact .held (hheld (Or.inr trivial))
  | releaseExclusiveAnd =>
    cases h
    exact .carrier trivial
  | releaseExclusiveAlarm => exact tokenChange_of_alarm h hsync hnonneg hcons hlive
  | upgradeLoad | upgradeAdd | upgradeSub =>
    cases h
    exact .held (hheld (Or.inl trivial))
  | upgradeCas state =>
    simp only [runPc] at h
    split_ifs at h with hone <;> cases h
    · exact .held (by simp [rwlockExclusive])
    · exact .held (hheld (Or.inl trivial))

theorem mem_of_runPc_woken (h : runPc lock t p = .next lock' p' woken)
    (hsync : lock.event.objType = .objSync) (hcons : lock.event.Consistent) :
    ∀ wb ∈ woken, wb ∈ lock.event.objWaitList := by
  have hnil : woken = [] → ∀ wb ∈ woken, wb ∈ lock.event.objWaitList := by
    rintro rfl wb hwb
    cases hwb
  have halarm : ∀ {after}, runAlarm lock after = .next lock' p' woken →
      ∀ wb ∈ woken, wb ∈ lock.event.objWaitList := by
    intro after hrun
    obtain ⟨event, hev, -, -⟩ := runAlarm_next hrun
    rcases Kobject.eventAlarm_cases hsync hcons hev with
      ⟨-, -, rfl⟩ | ⟨-, -, -, rfl⟩ | ⟨-, q₁, wb, q₂, hq, -, -, -, rfl⟩ | ⟨-, -, -, -, rfl⟩
    · exact hnil rfl
    · exact hnil rfl
    · intro b hb
      rw [List.mem_singleton] at hb
      simp [hb, hq]
    · exact hnil rfl
  cases p with
  | outside | shared | exclusive => simp [runPc] at h
  | sharedWait | exclusiveWait =>
    obtain ⟨-, -, hwoken, -⟩ := runWait_next h
    exact hnil hwoken
  | sharedWaiting | exclusiveWaiting => exact hnil (runWaiting_next h).1
  | releaseSharedAlarm | releaseExclusiveAlarm => exact halarm h
  | sharedLoad | sharedCount | sharedCas | releaseSharedAssert | releaseSharedSub
  | exclusiveLoad | exclusiveCas | exclusiveAssert | releaseExclusiveAssert | upgradeCas =>
    simp only [runPc] at h
    split_ifs at h <;> cases h <;> exact hnil rfl
  | exclusiveAdd | exclusiveSub | exclusiveStore | releaseExclusiveSub | releaseExclusiveStore
  | releaseExclusiveAnd | upgradeLoad | upgradeAdd | upgradeSub =>
    cases h
    exact hnil rfl

/-! ## The invariant along a run -/

omit [DecidableEq T] in
theorem inv_initial : Inv (initial : State T) where
  counted := counted_initial
  sync := rfl
  nonneg := le_refl 0
  consistent := Kobject.consistent_kobjectInit _ _
  untimed := fun _ => trivial
  queued := fun wb hwb => absurd hwb (by simp [initial, Kobject.eventInit, Kobject.kobjectInit])
  token := fun ⟨_, ht⟩ => ht.elim

theorem isCarrier_unwait_of_waitState {p : Pc} {w : WaitState} (h : p.waitState = some w) :
    (p.unwait .success).IsCarrier := by
  cases p with
  | sharedWaiting | exclusiveWaiting => simp [Pc.unwait, Pc.IsCarrier, WaitState.threadUnwait]
  | _ => simp [Pc.waitState] at h

theorem isPending_of_waitState {p : Pc} {w : WaitState} (h : p.waitState = some w) :
    p.IsPending ↔ w.waitStatus = none := by
  cases p with
  | sharedWaiting | exclusiveWaiting =>
    cases h
    exact Iff.rfl
  | _ => simp [Pc.waitState] at h

theorem not_isCarrier_of_isPending {p : Pc} (h : p.IsPending) : ¬ p.IsCarrier := by
  cases p with
  | sharedWait | exclusiveWait => exact id
  | sharedWaiting w | exclusiveWaiting w =>
    intro hc
    have hnone : w.waitStatus = none := h
    simp [Pc.IsCarrier, hnone] at hc
  | sharedCount | sharedCas => exact fun hc => h hc.1
  | _ => exact h.elim

omit [DecidableEq T] in
theorem Queued.not_mem {event : Kobject T} {pc : T → Pc} (h : Queued event pc) {t : T}
    (ht : (pc t).waitState = none) : t ∉ event.objWaitList.map WaitBlock.thread := by
  rw [List.mem_map]
  rintro ⟨wb, hwb, rfl⟩
  obtain ⟨-, -, w, hw, -⟩ := h wb hwb
  rw [ht] at hw
  cases hw

theorem Queued.update {event : Kobject T} {pc : T → Pc} (h : Queued event pc) {t : T}
    (ht : t ∉ event.objWaitList.map WaitBlock.thread) (p : Pc) :
    Queued event (Function.update pc t p) := by
  intro wb hwb
  have hne : wb.thread ≠ t := by
    rintro rfl
    exact ht (List.mem_map_of_mem hwb)
  rw [Function.update_of_ne hne]
  exact h wb hwb

/-- The event and its queue after an access that resumes the threads of `woken`. -/
structure Settled (lock : Rwlock T) (pc : T → Pc) (woken : List (WaitBlock T)) : Prop where
  sync : lock.event.objType = .objSync
  nonneg : 0 ≤ lock.event.objSignalCount
  consistent : lock.event.Consistent
  queued : Queued lock.event (resumeAll Pc.unwait woken pc)
  carrier : woken ≠ [] → ∃ u, (resumeAll Pc.unwait woken pc u).IsCarrier

section Settled

variable {pc : T → Pc}

theorem Settled.not_mem (h : Settled lock pc []) (hnone : (pc t).waitState = none) :
    t ∉ lock.event.objWaitList.map WaitBlock.thread := Queued.not_mem h.queued hnone

theorem Settled.same (h : Settled lock pc []) (hev : lock'.event = lock.event)
    (hnone : (pc t).waitState = none) : Settled lock' (Function.update pc t p') [] := by
  refine ⟨?_, ?_, ?_, ?_, fun hne => absurd rfl hne⟩
  all_goals rw [hev]
  · exact h.sync
  · exact h.nonneg
  · exact h.consistent
  · exact Queued.update h.queued (h.not_mem hnone) p'

theorem Settled.runWait (h : Settled lock pc []) {hasTimeout : Bool} {again : Pc}
    {waiting : WaitState → Pc}
    (hrun : runWait lock t hasTimeout again waiting = .next lock' p' woken)
    (hnone : (pc t).waitState = none) (hw : ∀ w, (waiting w).waitState = some w) :
    Settled lock' (Function.update pc t p') woken := by
  have hnq := h.not_mem hnone
  have hqueued := Queued.update h.queued hnq
  obtain ⟨event, rfl, rfl, ⟨hsig, rfl, rfl⟩ | ⟨-, rfl, rfl⟩⟩ := runWait_next hrun
  · rw [Kobject.objMaybeAcquire_of_sync h.sync]
    have hpos : 0 < lock.event.objSignalCount := by simpa [Kobject.isObjSignaled] using hsig
    refine ⟨h.sync, ?_, ⟨h.consistent.count, h.consistent.nodup⟩, hqueued _,
      fun hne => absurd rfl hne⟩
    simp only
    omega
  · refine ⟨h.sync, h.nonneg, h.consistent.enqueue hnq, ?_, fun hne => absurd rfl hne⟩
    intro wb hwb
    simp only [Kobject.enqueue, List.mem_append, List.mem_singleton] at hwb
    rcases hwb with hwb | rfl
    · exact hqueued _ wb hwb
    · exact ⟨rfl, rfl, WaitState.start hasTimeout, by simpa [resumeAll] using hw _, rfl⟩

theorem Settled.runWaiting (h : Settled lock pc []) {w : WaitState} {again failed : Pc}
    {waiting : WaitState → Pc}
    (hrun : runWaiting lock t w again failed waiting = .next lock' p' woken)
    (hst : w.waitStatus = none ∨ w.waitStatus = some .success)
    (ht : (pc t).waitState = some w) (hw : ∀ w, (waiting w).waitState = some w) :
    Settled lock' (Function.update pc t p') woken := by
  obtain ⟨rfl, ⟨rfl, rfl⟩ | ⟨hstatus, rfl, rfl⟩⟩ := runWaiting_untimed hrun hst
  · refine ⟨h.sync, h.nonneg, h.consistent, ?_, fun hne => absurd rfl hne⟩
    intro wb hwb
    obtain ⟨h1, h2, w', hw', hnone⟩ := h.queued wb hwb
    refine ⟨h1, h2, ?_⟩
    by_cases hne : wb.thread = t
    · have hw'' : (pc t).waitState = some w' := hne ▸ hw'
      obtain rfl : w = w' := Option.some.inj (ht.symm.trans hw'')
      exact ⟨{ w with waitPhase := .comitted }, by simpa [resumeAll, hne] using hw _, hnone⟩
    · exact ⟨w', by simpa [resumeAll, Function.update_of_ne hne] using hw', hnone⟩
  · refine ⟨by simpa using h.sync, by simpa using h.nonneg, h.consistent.wbDequeue t, ?_,
      fun hne => absurd rfl hne⟩
    intro wb hwb
    obtain ⟨hwb, hne⟩ := Kobject.mem_wbDequeue.mp hwb
    simp only [resumeAll, List.foldl_nil, Function.update_of_ne hne]
    exact h.queued wb hwb

theorem Settled.runAlarm (h : Settled lock pc []) {after : Pc}
    (hrun : runAlarm lock after = .next lock' p' woken) (hnone : (pc t).waitState = none) :
    Settled lock' (Function.update pc t p') woken := by
  have hnq := h.not_mem hnone
  obtain ⟨event, halarm, rfl, rfl⟩ := runAlarm_next hrun
  rcases Kobject.eventAlarm_cases h.sync h.consistent halarm with
    ⟨-, rfl, rfl⟩ | ⟨-, -, rfl, rfl⟩ | ⟨-, q₁, wb, q₂, hq, -, -, rfl, rfl⟩ |
    ⟨-, hne, hall, -, -⟩
  · exact h.same rfl hnone
  · exact ⟨h.sync, by simp, ⟨h.consistent.count, h.consistent.nodup⟩,
      Queued.update h.queued hnq _, fun hne => absurd rfl hne⟩
  · have hmem : wb ∈ lock.event.objWaitList := by simp [hq]
    obtain ⟨hst, -, w, hw, -⟩ := h.queued wb hmem
    have hwt : wb.thread ≠ t := by
      intro heq
      exact hnq (heq ▸ List.mem_map_of_mem hmem)
    have hnd := h.consistent.nodup
    rw [hq, List.map_append, List.map_cons, List.nodup_append] at hnd
    refine ⟨h.sync, h.nonneg, h.consistent.suffix (hq.trans (List.append_cons q₁ wb q₂)), ?_, ?_⟩
    · intro b hb
      have hbq : b ∈ lock.event.objWaitList := by simp [hq, show b ∈ q₂ from hb]
      have hne : b.thread ≠ wb.thread := by
        intro heq
        exact (List.nodup_cons.mp hnd.2.1).1 (heq ▸ List.mem_map_of_mem hb)
      have hbt : b.thread ≠ t := by
        intro heq
        exact hnq (heq ▸ List.mem_map_of_mem hbq)
      simp only [resumeAll, List.foldl_cons, List.foldl_nil, Function.update_of_ne hne,
        Function.update_of_ne hbt]
      exact h.queued b hbq
    · intro _
      refine ⟨wb.thread, ?_⟩
      simp only [resumeAll, List.foldl_cons, List.foldl_nil, Function.update_self,
        Function.update_of_ne hwt, hst]
      exact isCarrier_unwait_of_waitState hw
  · obtain ⟨wb, hwb⟩ := List.exists_mem_of_ne_nil _ hne
    have := hall wb hwb
    rw [(h.queued wb hwb).2.1] at this
    cases this

theorem Settled.runPc (h : Settled lock pc []) (hu : (pc t).Untimed)
    (hrun : runPc lock t (pc t) = .next lock' p' woken) :
    Settled lock' (Function.update pc t p') woken := by
  cases hp : pc t with
  | outside | shared | exclusive => simp [hp, Rwlock.runPc] at hrun
  | sharedWait | exclusiveWait =>
    rw [hp] at hrun
    exact h.runWait hrun (by simp [hp, Pc.waitState]) (fun _ => rfl)
  | sharedWaiting | exclusiveWaiting =>
    rw [hp] at hrun hu
    exact h.runWaiting hrun hu.2 (by simp [hp, Pc.waitState]) (fun _ => rfl)
  | releaseSharedAlarm | releaseExclusiveAlarm =>
    rw [hp] at hrun
    exact h.runAlarm hrun (by simp [hp, Pc.waitState])
  | sharedLoad | sharedCount | sharedCas | releaseSharedAssert | releaseSharedSub
  | exclusiveLoad | exclusiveCas | exclusiveAssert | releaseExclusiveAssert | upgradeCas =>
    rw [hp] at hrun
    simp only [Rwlock.runPc] at hrun
    split_ifs at hrun <;> cases hrun <;> exact h.same rfl (by simp [hp, Pc.waitState])
  | exclusiveAdd | exclusiveSub | exclusiveStore | releaseExclusiveSub | releaseExclusiveStore
  | releaseExclusiveAnd | upgradeLoad | upgradeAdd | upgradeSub =>
    rw [hp] at hrun
    cases hrun
    exact h.same rfl (by simp [hp, Pc.waitState])

end Settled

theorem not_isPending_unwait {status : Status} (p : Pc) (h : ¬ p.IsPending) :
    ¬ (p.unwait status).IsPending := by
  cases p with
  | sharedWaiting | exclusiveWaiting => simp [Pc.unwait, Pc.IsPending, WaitState.threadUnwait]
  | _ => exact h

theorem isCarrier_unwait (p : Pc) (h : p.IsCarrier) : (p.unwait .success).IsCarrier := by
  cases p with
  | sharedWaiting | exclusiveWaiting => exact isCarrier_unwait_of_waitState rfl
  | _ => exact h

theorem untimed_unwait (p : Pc) (h : p.Untimed) : (p.unwait .success).Untimed := by
  cases p with
  | sharedWaiting | exclusiveWaiting => exact ⟨h.1, Or.inr rfl⟩
  | _ => exact h

variable {s s' : State T}

/-- A thread that enters an operation brings no pending wait and drops no wakeup. -/
theorem WakeToken.move (h : WakeToken s) (hlock : s'.lock = s.lock)
    (hpc : s'.pc = Function.update s.pc t p) (hcar : ¬ (s.pc t).IsCarrier)
    (hpend : p.IsPending → (s.pc t).IsPending) : WakeToken s' := by
  rintro ⟨u, hu⟩
  rw [hlock]
  have hold : ∃ u, (s.pc u).IsPending := by
    by_cases hut : u = t
    · subst hut
      rw [hpc, Function.update_self] at hu
      exact ⟨u, hpend hu⟩
    · rw [hpc, Function.update_of_ne hut] at hu
      exact ⟨u, hu⟩
  refine (h hold).imp_right (Or.imp_right ?_)
  rintro ⟨c, hc⟩
  have hct : c ≠ t := by
    rintro rfl
    exact hcar hc
  exact ⟨c, by rwa [hpc, Function.update_of_ne hct]⟩

/-- Without timeouts, a thread with its one in the exclusive count holds the lock,
carries the wakeup, or is itself pending. -/
theorem Pc.CountsExclusive.cases_untimed (h : p.CountsExclusive) (hu : p.Untimed) :
    (p.HoldsShared ∨ p.HoldsExclusive) ∨ p.IsCarrier ∨ p.IsPending := by
  cases p with
  | exclusiveLoad | exclusiveCas => exact Or.inr (Or.inl trivial)
  | exclusiveWait => exact Or.inr (Or.inr trivial)
  | exclusiveWaiting w => exact Or.inr (hu.2.symm)
  | exclusiveSub => exact hu.elim
  | exclusiveAssert | exclusiveStore | exclusive | releaseExclusiveAssert
  | releaseExclusiveSub => exact Or.inl (Or.inr trivial)
  | upgradeCas | upgradeSub => exact Or.inl (Or.inl trivial)
  | _ => exact h.elim

/-- **The token after one access.** -/
theorem WakeToken.runPc (h : Inv s) (hC : NoSwallow s (.run t))
    (hrun : runPc s.lock t (s.pc t) = .next lock p woken)
    (hcarry : woken ≠ [] →
      ∃ u, (resumeAll Pc.unwait woken (Function.update s.pc t p) u).IsCarrier)
    (hsucc : ∀ wb ∈ woken, wb.status = .success) :
    WakeToken { s with lock := lock
                       pc := resumeAll Pc.unwait woken (Function.update s.pc t p) } := by
  have hcar : ∀ {u}, (Function.update s.pc t p u).IsCarrier →
      (resumeAll Pc.unwait woken (Function.update s.pc t p) u).IsCarrier := by
    intro u hu
    exact resumeAll_induction
      (fun wb hwb p hp => by rw [hsucc wb hwb]; exact isCarrier_unwait p hp) hu
  have hcar' : ¬ (s.pc t).IsCarrier → (∃ c, (s.pc c).IsCarrier) →
      ∃ u, (resumeAll Pc.unwait woken (Function.update s.pc t p) u).IsCarrier := by
    rintro ht ⟨c, hc⟩
    have hct : c ≠ t := by
      rintro rfl
      exact ht hc
    exact ⟨c, hcar (by rwa [Function.update_of_ne hct])⟩
  have hheld : (s.pc t).HoldsShared ∨ (s.pc t).HoldsExclusive → s.lock.state ≠ 0 :=
    h.counted.state_ne_zero
  have hle : s.lock.state ≤ rwlockExclusive := by
    rcases h.counted.state with ⟨-, -, hle⟩ | ⟨-, -, heq⟩
    · exact hle
    · exact heq.le
  have hswallow : ∀ hasTimeout, s.pc t = .sharedCount 0 hasTimeout true →
      s.lock.exclusiveCount ≠ 0 → s.lock.state ≠ 0 := by
    intro hasTimeout ht
    simpa only [NoSwallow, ht] using hC
  rintro ⟨u, hu⟩
  cases runPc_tokenChange hrun h.sync h.nonneg h.consistent (fun wb hwb => (h.queued wb hwb).2.1)
    (h.untimed t) hswallow hle hheld with
  | carrier hp => exact Or.inr (Or.inr ⟨t, hcar (by rwa [Function.update_self])⟩)
  | held h0 => exact Or.inl h0
  | signalled hsig => exact Or.inr (Or.inl hsig)
  | resumed hne => exact Or.inr (Or.inr (hcarry hne))
  | quiet hst hsig hnc hpend =>
    have hold : (Function.update s.pc t p u).IsPending := by
      by_contra hnp
      exact resumeAll_induction (fun _ _ p hp => not_isPending_unwait p hp) hnp hu
    have hpending : ∃ u, (s.pc u).IsPending := by
      by_cases hut : u = t
      · subst hut
        rw [Function.update_self] at hold
        exact ⟨u, hpend hold⟩
      · rw [Function.update_of_ne hut] at hold
        exact ⟨u, hold⟩
    simp only [hst, hsig]
    exact (h.token hpending).imp_right (Or.imp_right (hcar' hnc))
  | reader hlock hcount hnc =>
    -- the pending writer that the reader steps back for is the witness
    obtain ⟨c, hc⟩ := h.counted.exists_countsExclusive hcount
    subst hlock
    rcases hc.cases_untimed (h.untimed c) with hh | hc | hpend
    · exact Or.inl (h.counted.state_ne_zero hh)
    · exact Or.inr (Or.inr (hcar' hnc ⟨c, hc⟩))
    · exact (h.token ⟨c, hpend⟩).imp_right (Or.imp_right (hcar' hnc))

/-- **Run lemma.**  Without timeouts, a step that swallows no wakeup keeps the
invariant. -/
theorem Inv.step {ev : Event T} (h : Inv s) (hC : NoSwallow s ev)
    (hs : Rwlock.step false s ev = some s') : Inv s' := by
  have hcounted := h.counted.step hs
  have hcall : ∀ {t before after}, s.call t before after = some s' → before.waitState = none →
      ¬ before.IsCarrier → ¬ after.IsPending → after.Untimed → Inv s' := by
    intro t before after hs hnone hcar hpend hu
    simp only [State.call] at hs
    split_ifs at hs with hb
    cases hs
    refine ⟨hcounted, h.sync, h.nonneg, h.consistent, ?_, ?_, ?_⟩
    · intro c
      simp only
      by_cases hct : c = t
      · subst hct
        rwa [Function.update_self]
      · rw [Function.update_of_ne hct]
        exact h.untimed c
    · exact h.queued.update (h.queued.not_mem (by rw [hb, hnone])) _
    · exact h.token.move (t := t) rfl rfl (hb ▸ hcar) (fun hp => absurd hp hpend)
  simp only [Rwlock.step] at hs
  split_ifs at hs with hpan
  cases ev with
  | rwlockAcquireShared t hasTimeout =>
    cases hasTimeout with
    | true => simp at hs
    | false => exact hcall hs rfl id (by simp [Pc.IsPending]) rfl
  | rwlockReleaseShared t => exact hcall hs rfl id id trivial
  | rwlockAcquireExclusive t hasTimeout =>
    cases hasTimeout with
    | true => simp at hs
    | false => exact hcall hs rfl id id rfl
  | rwlockReleaseExclusive t => exact hcall hs rfl id id trivial
  | rwlockUpgradeToExclusive t => exact hcall hs rfl id id trivial
  | run t =>
    simp only at hs
    cases hrun : Rwlock.runPc s.lock t (s.pc t) with
    | stuck => simp [hrun] at hs
    | panic =>
      simp only [hrun] at hs
      cases hs
      exact ⟨hcounted, h.sync, h.nonneg, h.consistent, h.untimed, h.queued, h.token⟩
    | next lock p woken =>
      simp only [hrun] at hs
      cases hs
      have hsucc : ∀ wb ∈ woken, wb.status = .success := fun wb hwb =>
        (h.queued wb (mem_of_runPc_woken hrun h.sync h.consistent wb hwb)).1
      have hbefore : Settled s.lock s.pc [] :=
        ⟨h.sync, h.nonneg, h.consistent, h.queued, fun hne => absurd rfl hne⟩
      obtain ⟨hsync, hnonneg, hcons, hqueued, hcarry⟩ := hbefore.runPc (h.untimed t) hrun
      refine ⟨hcounted, hsync, hnonneg, hcons, fun c => ?_, hqueued, ?_⟩
      · refine resumeAll_induction
          (fun wb hwb p hp => by rw [hsucc wb hwb]; exact untimed_unwait p hp) ?_
        by_cases hct : c = t
        · subst hct
          rw [Function.update_self]
          exact runPc_untimed hrun (h.untimed c)
        · rw [Function.update_of_ne hct]
          exact h.untimed c
      · exact WakeToken.runPc h hC hrun hcarry hsucc
  | timeout t =>
    have hno : ∀ w, (s.pc t).waitState = some w → w.hasTimeout = false := by
      intro w hw
      have hu := h.untimed t
      cases hp : s.pc t with
      | sharedWaiting | exclusiveWaiting =>
        rw [hp] at hw hu
        cases hw
        exact hu.1
      | _ =>
        rw [hp] at hw
        cases hw
    simp only at hs
    cases hw : (s.pc t).waitState with
    | none => simp [hw] at hs
    | some w => simp [hw, hno w hw] at hs

theorem Inv.of_reachableUnder (h : (system T false).ReachableUnder NoSwallow s) : Inv s :=
  TransitionSystem.ReachableUnder.invariant (fun _ h0 => h0 ▸ inv_initial)
    (fun _ _ _ hI hC hs => hI.step hC hs) h

omit [DecidableEq T] in
theorem Inv.not_lostWakeup (h : Inv s) : ¬ LostWakeup s := by
  rintro ⟨hstate, hsig, hall, u, w, hw, hblk⟩
  rcases h.token ⟨u, (isPending_of_waitState hw).mpr hblk.2⟩ with h1 | h1 | ⟨c, hc⟩
  · exact h1 hstate
  · omega
  · rcases hall c with hout | ⟨w', hw', hblk'⟩
    · simp [hout, Pc.IsCarrier] at hc
    · exact (not_isCarrier_of_isPending ((isPending_of_waitState hw').mpr hblk'.2)) hc

/-! ## Lost wakeups -/

/-- **No lost wakeup.**  Among threads that wait without timeouts, a run in which no
woken reader goes back to sleep on a free lock never loses a wakeup. -/
theorem no_lost_wakeup {s : State T} (h : (system T false).ReachableUnder NoSwallow s) :
    ¬ LostWakeup s :=
  (Inv.of_reachableUnder h).not_lostWakeup

instance [Fintype T] (s : State T) : Decidable (LostWakeup s) := by
  unfold LostWakeup
  infer_instance

/-- Of four threads, thread 0 takes the lock exclusively; thread 1, a reader, and then
thread 2, a writer, queue up behind it; thread 0 lets go and its alarm resumes thread 1. -/
def queuedReaderRun : List (Event (Fin 4)) :=
  [Event.rwlockAcquireExclusive 0 false] ++ List.replicate 5 (Event.run 0) ++
    [Event.rwlockAcquireShared 1 false] ++ List.replicate 3 (Event.run 1) ++
    [Event.rwlockAcquireExclusive 2 false] ++ List.replicate 4 (Event.run 2) ++
    [Event.rwlockReleaseExclusive 0] ++ List.replicate 5 (Event.run 0)

/-- Thread 1 finds the lock free and a writer pending, and goes back to sleep. -/
def swallowedRun : List (Event (Fin 4)) := queuedReaderRun ++ List.replicate 5 (Event.run 1)

/-- The woken reader swallows the only wakeup: both sleep on a free lock. -/
theorem lost_wakeup : ∃ s, (system (Fin 4) false).Reachable s ∧ LostWakeup s := by
  obtain ⟨s, hs, hp⟩ := TransitionSystem.exists_reachable_of_run
    (show (system (Fin 4) false).init initial from rfl) swallowedRun (fun s => LostWakeup s)
    (by decide +kernel)
  exact ⟨s, hs, by simpa using hp⟩

/-- Without the writer, the woken reader takes the lock. -/
def sharedAgainRun : List (Event (Fin 4)) :=
  [Event.rwlockAcquireExclusive 0 false] ++ List.replicate 5 (Event.run 0) ++
    [Event.rwlockAcquireShared 1 false] ++ List.replicate 3 (Event.run 1) ++
    [Event.rwlockReleaseExclusive 0] ++ List.replicate 5 (Event.run 0) ++ List.replicate 4 (Event.run 1)

theorem no_lost_wakeup_four : ∃ s, (system (Fin 4) false).ReachableUnder NoSwallow s ∧
    s.pc 1 = .shared ∧ s.lock.state = 1 ∧ ¬ LostWakeup s := by
  obtain ⟨s, hs, hp⟩ := TransitionSystem.exists_reachableUnder_of_runUnder
    (C := NoSwallow) (show (system (Fin 4) false).init initial from rfl) sharedAgainRun
    (fun s => s.pc 1 = .shared ∧ s.lock.state = 1) (by decide +kernel)
  simp only [decide_eq_true_eq] at hp
  exact ⟨s, hs, hp.1, hp.2, no_lost_wakeup hs⟩

end Rwlock
