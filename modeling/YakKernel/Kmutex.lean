/-
# The kernel mutex

`core/mutex.c`: any number of threads acquiring, with or without a timeout, and
releasing one `struct kmutex`.  Every compare-and-exchange on the owner, every
section of `sched_wait` and every alarm is one step.
-/
import YakKernel.TransitionSystem
import YakKernel.Kobject

/-- `struct kmutex`. -/
structure Kmutex (T : Type*) where
  event : Kobject T
  owner : Option T
  deriving DecidableEq

/-- `LOCK_TRY_COUNT`. -/
def lockTryCount : ℕ := 50

namespace Kmutex

/-! ## The threads and their steps -/

/-- Where a thread is in `kmutex_acquire_common` or `kmutex_release`. -/
inductive Pc : Type where
  /-- neither acquiring nor holding -/
  | outside
  /-- about to make attempt `i` of the spin loop -/
  | spin (i : ℕ) (hasTimeout : Bool)
  /-- about to call `sched_wait` -/
  | schedWait (hasTimeout : Bool)
  /-- inside `sched_wait` with its wait block queued -/
  | waiting (w : WaitState)
  /-- returned from `kmutex_acquire` with success -/
  | holding
  /-- in `kmutex_release`, owner cleared, about to call `event_alarm` -/
  | alarming
  deriving DecidableEq

/-- The effect of `thread_unwait` on the place of a thread. -/
def Pc.unwait (p : Pc) (status : Status) : Pc :=
  match p with
  | .waiting w => .waiting (w.threadUnwait status)
  | p => p

/-- The mutex and the place of every thread. -/
structure State (T : Type*) where
  mutex : Kmutex T
  pc : T → Pc

/-- What can happen next. -/
inductive Event (T : Type*) where
  | kmutexAcquire (t : T) (hasTimeout : Bool)
  | kmutexRelease (t : T)
  | run (t : T)
  | timeout (t : T)

variable {T : Type*} [DecidableEq T]

/-- One step.  A failed assertion or panic of the source is a step that cannot be
taken. -/
def step (s : State T) : Event T → Option (State T)
  | .kmutexAcquire t hasTimeout =>
    if s.pc t = .outside ∧ s.mutex.owner ≠ some t then
      some { s with pc := Function.update s.pc t (.spin 0 hasTimeout) }
    else none
  | .kmutexRelease t =>
    if s.pc t = .holding ∧ s.mutex.owner = some t then
      some { mutex := { s.mutex with owner := none }
             pc := Function.update s.pc t .alarming }
    else none
  | .run t =>
    match s.pc t with
    | .spin i hasTimeout =>
      if s.mutex.owner = none then
        some { mutex := { s.mutex with owner := some t }
               pc := Function.update s.pc t .holding }
      else if i + 1 < lockTryCount then
        some { s with pc := Function.update s.pc t (.spin (i + 1) hasTimeout) }
      else
        some { s with pc := Function.update s.pc t (.schedWait hasTimeout) }
    | .schedWait hasTimeout =>
      match s.mutex.event.schedWaitEnter t hasTimeout with
      | (event, none) =>
        some { mutex := { s.mutex with event := event }
               pc := Function.update s.pc t (.spin 0 hasTimeout) }
      | (event, some w) =>
        some { mutex := { s.mutex with event := event }
               pc := Function.update s.pc t (.waiting w) }
    | .waiting w =>
      match s.mutex.event.schedWaitRun t w with
      | none => none
      | some (event, .inl w') =>
        some { mutex := { s.mutex with event := event }
               pc := Function.update s.pc t (.waiting w') }
      | some (event, .inr status) =>
        some { mutex := { s.mutex with event := event }
               pc := Function.update s.pc t
                 (if status.isErr then .outside else .spin 0 w.hasTimeout) }
    | .alarming =>
      match s.mutex.event.eventAlarm false with
      | none => none
      | some (event, woken) =>
        some { mutex := { s.mutex with event := event }
               pc := resumeAll Pc.unwait woken (Function.update s.pc t .outside) }
    | .outside => none
    | .holding => none
  | .timeout t =>
    match s.pc t with
    | .waiting w =>
      if w.hasTimeout ∧ w.waitStatus = none then
        some { mutex := { s.mutex with event := s.mutex.event.setUnwaited t }
               pc := Function.update s.pc t (.waiting (w.threadUnwait .timeout)) }
      else none
    | _ => none

/-- `kmutex_init`, with every thread outside. -/
def initial : State T where
  mutex := { event := Kobject.eventInit false false, owner := none }
  pc := fun _ => .outside

/-- Any number of threads sharing one mutex. -/
def system (T : Type*) [DecidableEq T] : TransitionSystem (State T) (Event T) where
  init := fun s => s = initial
  step := step

/-! ## Lost wakeups -/

/-- The thread sleeps in `sched_wait` and nobody has resumed it. -/
def Pc.IsBlocked : Pc → Prop
  | .waiting w => w.IsBlocked
  | _ => False

instance (p : Pc) : Decidable p.IsBlocked := by
  cases p <;> unfold Pc.IsBlocked <;> infer_instance

/-- The mutex is free and its event unsignalled, no release is on its way to the
alarm, somebody contends and every contender is blocked. -/
def LostWakeup (s : State T) : Prop :=
  s.mutex.owner = none ∧ s.mutex.event.objSignalCount = 0 ∧
    (∀ t, s.pc t = .outside ∨ (s.pc t).IsBlocked) ∧ ∃ t, (s.pc t).IsBlocked

/-- Whenever a thread is about to alarm the event, nobody is queued or somebody is
queued who has not been unwaited yet. -/
def AlarmsFindWaiters (s : State T) : Event T → Prop
  | .run t => s.pc t = .alarming → s.mutex.event.objSignalCount = 0 →
      s.mutex.event.NoStaleQueue
  | _ => True

instance (s : State T) (ev : Event T) : Decidable (AlarmsFindWaiters s ev) := by
  cases ev <;> unfold AlarmsFindWaiters <;> infer_instance

/-- The thread is on its way into the queue, or in it and not yet unwaited. -/
def Pc.IsPending : Pc → Prop
  | .schedWait _ => True
  | .waiting w => w.waitStatus = none
  | _ => False

/-- The thread will try for the mutex or alarm the event. -/
def Pc.IsCarrier : Pc → Prop
  | .spin _ _ => True
  | .waiting w => w.waitStatus = some .success
  | .alarming => True
  | _ => False

/-- While somebody is pending, the mutex is owned, its event is signalled, or some
thread carries the wakeup. -/
def WakeToken (s : State T) : Prop :=
  (∃ t, (s.pc t).IsPending) →
    s.mutex.owner ≠ none ∨ 0 < s.mutex.event.objSignalCount ∨ ∃ t, (s.pc t).IsCarrier

/-- Every queued wait block belongs to a waiting thread, which has not been unwaited
unless the block says so. -/
def Queued (event : Kobject T) (pc : T → Pc) : Prop :=
  ∀ wb ∈ event.objWaitList, wb.status = .success ∧
    ∃ w, pc wb.thread = .waiting w ∧ (wb.unwaited = false → w.waitStatus = none)

/-- The invariant of all runs in which alarms find waiters. -/
structure Inv (s : State T) : Prop where
  sync : s.mutex.event.objType = .objSync
  nonneg : 0 ≤ s.mutex.event.objSignalCount
  consistent : s.mutex.event.Consistent
  queued : Queued s.mutex.event s.pc
  token : WakeToken s

/-! ## The token moves with the steps -/

omit [DecidableEq T] in
theorem inv_initial : Inv (initial : State T) where
  sync := rfl
  nonneg := le_refl 0
  consistent := Kobject.consistent_kobjectInit _ _
  queued := fun wb hwb => absurd hwb (by simp [initial, Kobject.eventInit, Kobject.kobjectInit])
  token := fun ⟨_, ht⟩ => ht.elim

omit [DecidableEq T] in
theorem wakeToken_of_owner {s : State T} (h : s.mutex.owner ≠ none) : WakeToken s :=
  fun _ => Or.inl h

omit [DecidableEq T] in
theorem wakeToken_of_signal {s : State T} (h : 0 < s.mutex.event.objSignalCount) :
    WakeToken s :=
  fun _ => Or.inr (Or.inl h)

omit [DecidableEq T] in
theorem wakeToken_of_carrier {s : State T} {t : T} (h : (s.pc t).IsCarrier) : WakeToken s :=
  fun _ => Or.inr (Or.inr ⟨t, h⟩)

/-- A thread that carries nothing may move, if it does not become pending for the
first time. -/
theorem WakeToken.update {s s' : State T} {t : T} {p : Pc} (h : WakeToken s)
    (howner : s'.mutex.owner = s.mutex.owner)
    (hsignal : s'.mutex.event.objSignalCount = s.mutex.event.objSignalCount)
    (hpc : s'.pc = Function.update s.pc t p) (hcarrier : ¬ (s.pc t).IsCarrier)
    (hpending : p.IsPending → (s.pc t).IsPending) : WakeToken s' := by
  rintro ⟨u, hu⟩
  have hold : ∃ u, (s.pc u).IsPending := by
    by_cases hut : u = t
    · subst hut
      rw [hpc, Function.update_self] at hu
      exact ⟨u, hpending hu⟩
    · rw [hpc, Function.update_of_ne hut] at hu
      exact ⟨u, hu⟩
  rw [howner, hsignal]
  refine (h hold).imp_right (Or.imp_right ?_)
  rintro ⟨c, hc⟩
  have hct : c ≠ t := by
    rintro rfl
    exact hcarrier hc
  exact ⟨c, by rwa [hpc, Function.update_of_ne hct]⟩

omit [DecidableEq T] in
theorem Queued.not_mem {event : Kobject T} {pc : T → Pc} (h : Queued event pc) {t : T}
    (ht : ∀ w, pc t ≠ .waiting w) : t ∉ event.objWaitList.map WaitBlock.thread := by
  rw [List.mem_map]
  rintro ⟨wb, hwb, rfl⟩
  obtain ⟨-, w, hw, -⟩ := h wb hwb
  exact ht w hw

theorem Queued.update {event : Kobject T} {pc : T → Pc} (h : Queued event pc) {t : T}
    (ht : t ∉ event.objWaitList.map WaitBlock.thread) (p : Pc) :
    Queued event (Function.update pc t p) := by
  intro wb hwb
  have hne : wb.thread ≠ t := by
    rintro rfl
    exact ht (List.mem_map_of_mem hwb)
  rw [Function.update_of_ne hne]
  exact h wb hwb

/-! ## One lemma per kind of step -/

variable {s s' : State T} {t : T}

theorem Inv.move (h : Inv s) (hevent : s'.mutex.event = s.mutex.event)
    {p : Pc} (hpc : s'.pc = Function.update s.pc t p) (ht : ∀ w, s.pc t ≠ .waiting w)
    (htoken : WakeToken s') : Inv s' where
  sync := by rw [hevent]; exact h.sync
  nonneg := by rw [hevent]; exact h.nonneg
  consistent := by rw [hevent]; exact h.consistent
  queued := by
    rw [hevent, hpc]
    exact h.queued.update (h.queued.not_mem ht) p
  token := htoken

theorem Inv.kmutexAcquire (h : Inv s) {hasTimeout : Bool}
    (hs : step s (.kmutexAcquire t hasTimeout) = some s') : Inv s' := by
  simp only [step] at hs
  split_ifs at hs with hg
  cases hs
  refine h.move rfl rfl (by simp [hg.1]) (wakeToken_of_carrier (t := t) ?_)
  simp [Pc.IsCarrier]

theorem Inv.kmutexRelease (h : Inv s) (hs : step s (.kmutexRelease t) = some s') : Inv s' := by
  simp only [step] at hs
  split_ifs at hs with hg
  cases hs
  refine h.move rfl rfl (by simp [hg.1]) (wakeToken_of_carrier (t := t) ?_)
  simp [Pc.IsCarrier]

/-- A spin attempt takes a free mutex; a failed one shows that it is owned. -/
theorem Inv.run_spin (h : Inv s) {i : ℕ} {hasTimeout : Bool} (ht : s.pc t = .spin i hasTimeout)
    (hs : step s (.run t) = some s') : Inv s' := by
  have hnw : ∀ w, s.pc t ≠ .waiting w := by simp [ht]
  simp only [step, ht] at hs
  split_ifs at hs with hfree hlast <;> cases hs
  · exact h.move rfl rfl hnw (wakeToken_of_owner (by simp))
  · exact h.move rfl rfl hnw (wakeToken_of_owner hfree)
  · exact h.move rfl rfl hnw (wakeToken_of_owner hfree)

/-- Entering `sched_wait` consumes the signal and carries on, or queues the thread. -/
theorem Inv.run_schedWait (h : Inv s) {hasTimeout : Bool} (ht : s.pc t = .schedWait hasTimeout)
    (hs : step s (.run t) = some s') : Inv s' := by
  have hnw : ∀ w, s.pc t ≠ .waiting w := by simp [ht]
  have hnq := h.queued.not_mem hnw
  simp only [step, ht, Kobject.schedWaitEnter] at hs
  by_cases hsig : s.mutex.event.isObjSignaled
  · simp only [hsig, if_true, Kobject.objMaybeAcquire_of_sync h.sync] at hs
    cases hs
    have hpos : 0 < s.mutex.event.objSignalCount := by
      simpa [Kobject.isObjSignaled] using hsig
    refine ⟨h.sync, ?_, ⟨h.consistent.count, h.consistent.nodup⟩, h.queued.update hnq _, ?_⟩
    · have := h.nonneg
      simp only
      omega
    · refine wakeToken_of_carrier (t := t) ?_
      simp [Pc.IsCarrier]
  · simp only [hsig, Bool.false_eq_true, if_false] at hs
    cases hs
    refine ⟨h.sync, h.nonneg, h.consistent.enqueue hnq, ?_, ?_⟩
    · intro wb hwb
      simp only [Kobject.enqueue, List.mem_append, List.mem_singleton] at hwb
      rcases hwb with hwb | rfl
      · exact h.queued.update hnq _ wb hwb
      · exact ⟨rfl, WaitState.start hasTimeout, Function.update_self .., fun _ => rfl⟩
    · refine h.token.update rfl rfl rfl ?_ ?_
      · simp [ht, Pc.IsCarrier]
      · intro _
        simp [ht, Pc.IsPending]

theorem Inv.run_waiting (h : Inv s) {w : WaitState} (ht : s.pc t = .waiting w)
    (hs : step s (.run t) = some s') : Inv s' := by
  have hleave : ∀ status, w.waitStatus = some status → s' =
      { mutex := { s.mutex with event := s.mutex.event.wbDequeue t }
        pc := Function.update s.pc t
          (if status.isErr then .outside else .spin 0 w.hasTimeout) } → Inv s' := by
    rintro status hstatus rfl
    refine ⟨by simpa using h.sync, by simpa using h.nonneg, h.consistent.wbDequeue t, ?_, ?_⟩
    · intro wb hwb
      obtain ⟨hwb, hne⟩ := Kobject.mem_wbDequeue.mp hwb
      simp only [Function.update_of_ne hne]
      exact h.queued wb hwb
    · by_cases herr : status.isErr
      · simp only [herr, if_true]
        refine h.token.update rfl (by simp) rfl ?_ (fun hp => hp.elim)
        rw [ht]
        simp only [Pc.IsCarrier, hstatus, Option.some.injEq]
        rintro rfl
        simp [Status.isErr] at herr
      · refine wakeToken_of_carrier (t := t) ?_
        simp [herr, Pc.IsCarrier]
  simp only [step, ht] at hs
  cases hphase : w.waitPhase with
  | inProgress =>
    simp only [Kobject.schedWaitRun, hphase] at hs
    cases hs
    refine ⟨h.sync, h.nonneg, h.consistent, ?_, ?_⟩
    · intro wb hwb
      obtain ⟨hst, w', hw', hlive⟩ := h.queued wb hwb
      refine ⟨hst, ?_⟩
      by_cases hne : wb.thread = t
      · rw [hne, ht] at hw'
        cases hw'
        exact ⟨{ w with waitPhase := .comitted }, by simp [hne], hlive⟩
      · exact ⟨w', by simpa [Function.update_of_ne hne] using hw', hlive⟩
    · by_cases hcar : w.waitStatus = some .success
      · refine wakeToken_of_carrier (t := t) ?_
        simp [Pc.IsCarrier, hcar]
      · refine h.token.update rfl rfl rfl ?_ ?_
        · simpa [ht, Pc.IsCarrier] using hcar
        · simp [ht, Pc.IsPending]
  | comitted =>
    cases hst : w.waitStatus with
    | none => simp [Kobject.schedWaitRun, hphase, hst] at hs
    | some status =>
      simp only [Kobject.schedWaitRun, hphase, hst] at hs
      exact hleave status hst (by cases hs; rfl)
  | aborted =>
    cases hst : w.waitStatus with
    | none => simp [Kobject.schedWaitRun, hphase, hst] at hs
    | some status =>
      simp only [Kobject.schedWaitRun, hphase, hst] at hs
      exact hleave status hst (by cases hs; rfl)

theorem Inv.run_alarming (h : Inv s) (ht : s.pc t = .alarming)
    (hC : AlarmsFindWaiters s (.run t)) (hs : step s (.run t) = some s') : Inv s' := by
  have hnw : ∀ w, s.pc t ≠ .waiting w := by simp [ht]
  have hnq := h.queued.not_mem hnw
  have hquiet : s.mutex.event.objSignalCount ≠ 0 → 0 < s.mutex.event.objSignalCount := by
    have := h.nonneg
    omega
  simp only [step, ht] at hs
  cases halarm : s.mutex.event.eventAlarm false with
  | none => simp [halarm] at hs
  | some r =>
    obtain ⟨event, woken⟩ := r
    simp only [halarm] at hs
    cases hs
    rcases Kobject.eventAlarm_cases h.sync h.consistent halarm with
      ⟨hsig, rfl, rfl⟩ | ⟨-, hnil, rfl, rfl⟩ | ⟨-, q₁, wb, q₂, hq, -, hlive, rfl, rfl⟩ |
      ⟨h0, hne, hall, -, -⟩
    · exact h.move rfl rfl hnw (wakeToken_of_signal (hquiet hsig))
    · refine ⟨h.sync, by simp, ⟨h.consistent.count, h.consistent.nodup⟩, ?_, ?_⟩
      · exact h.queued.update hnq _
      · exact wakeToken_of_signal (by simp)
    · have hmem : wb ∈ s.mutex.event.objWaitList := by simp [hq]
      obtain ⟨hst, w, hw, hwnone⟩ := h.queued wb hmem
      have hwt : wb.thread ≠ t := by
        intro heq
        rw [heq, ht] at hw
        cases hw
      have hpc : resumeAll Pc.unwait [wb] (Function.update s.pc t .outside) =
          Function.update (Function.update s.pc t .outside) wb.thread
            (.waiting (w.threadUnwait .success)) := by
        simp only [resumeAll, List.foldl_cons, List.foldl_nil, Function.update_of_ne hwt, hw, hst,
          Pc.unwait]
      have hnd := h.consistent.nodup
      rw [hq, List.map_append, List.map_cons, List.nodup_append] at hnd
      refine ⟨h.sync, h.nonneg, h.consistent.suffix (hq.trans (List.append_cons q₁ wb q₂)), ?_, ?_⟩
      · intro b hb
        have hbq : b ∈ s.mutex.event.objWaitList := by simp [hq, show b ∈ q₂ from hb]
        have hne : b.thread ≠ wb.thread := by
          intro heq
          exact (List.nodup_cons.mp hnd.2.1).1 (heq ▸ List.mem_map_of_mem hb)
        have hbt : b.thread ≠ t := by
          intro heq
          exact hnq (heq ▸ List.mem_map_of_mem hbq)
        simp only [hpc, Function.update_of_ne hne, Function.update_of_ne hbt]
        exact h.queued b hbq
      · refine wakeToken_of_carrier (t := wb.thread) ?_
        simp [hpc, Pc.IsCarrier, WaitState.threadUnwait]
    · rcases hC ht h0 with hnil | ⟨b, hb, hlive⟩
      · exact absurd hnil hne
      · rw [hall b hb] at hlive
        cases hlive

theorem Inv.timeout (h : Inv s) (hs : step s (.timeout t) = some s') : Inv s' := by
  simp only [step] at hs
  cases ht : s.pc t with
  | waiting w =>
    simp only [ht] at hs
    split_ifs at hs with hg
    cases hs
    refine ⟨h.sync, h.nonneg, h.consistent.setUnwaited t, ?_, ?_⟩
    · intro wb hwb
      simp only [Kobject.setUnwaited, List.mem_map] at hwb
      obtain ⟨b, hb, rfl⟩ := hwb
      obtain ⟨hst, w', hw', hlive⟩ := h.queued b hb
      by_cases hbt : b.thread = t
      · subst hbt
        simp only [if_true, Function.update_self]
        exact ⟨hst, _, rfl, by simp⟩
      · simp only [hbt, if_false, Function.update_of_ne hbt]
        exact ⟨hst, w', hw', hlive⟩
    · refine h.token.update rfl rfl rfl ?_ ?_
      · simp [ht, Pc.IsCarrier, hg.2]
      · simp [Pc.IsPending, WaitState.threadUnwait]
  | outside => simp [ht] at hs
  | spin i b => simp [ht] at hs
  | schedWait b => simp [ht] at hs
  | holding => simp [ht] at hs
  | alarming => simp [ht] at hs

theorem Inv.step {ev : Event T} (h : Inv s) (hC : AlarmsFindWaiters s ev)
    (hs : step s ev = some s') : Inv s' := by
  cases ev with
  | kmutexAcquire t hasTimeout => exact h.kmutexAcquire hs
  | kmutexRelease t => exact h.kmutexRelease hs
  | timeout t => exact h.timeout hs
  | run t =>
    cases ht : s.pc t with
    | spin i b => exact h.run_spin ht hs
    | schedWait b => exact h.run_schedWait ht hs
    | waiting w => exact h.run_waiting ht hs
    | alarming => exact h.run_alarming ht hC hs
    | outside => simp [Kmutex.step, ht] at hs
    | holding => simp [Kmutex.step, ht] at hs

theorem Inv.of_reachableUnder (h : (system T).ReachableUnder AlarmsFindWaiters s) : Inv s :=
  TransitionSystem.ReachableUnder.invariant (fun _ h0 => h0 ▸ inv_initial)
    (fun _ _ _ hI hC hs => hI.step hC hs) h

omit [DecidableEq T] in
theorem Inv.not_lostWakeup (h : Inv s) : ¬ LostWakeup s := by
  rintro ⟨howner, hsig, hall, u, hu⟩
  have hpend : (s.pc u).IsPending := by
    cases hp : s.pc u with
    | waiting w =>
      rw [hp] at hu
      exact hu.2
    | _ => simp [hp, Pc.IsBlocked] at hu
  rcases h.token ⟨u, hpend⟩ with h1 | h1 | ⟨c, hc⟩
  · exact h1 howner
  · omega
  · rcases hall c with hout | hblk
    · simp [hout, Pc.IsCarrier] at hc
    · cases hp : s.pc c with
      | waiting w =>
        rw [hp] at hc hblk
        have hnone : w.waitStatus = none := hblk.2
        simp [Pc.IsCarrier, hnone] at hc
      | _ => simp [hp, Pc.IsBlocked] at hblk

/-! ## Lost signals -/

/-- **No lost signal.**  An alarm on an unsignalled synchronization event is
delivered exactly when the queue is empty or holds a waiter not yet unwaited; and a
run of the mutex in which every alarm meets that condition never loses a wakeup. -/
theorem no_lost_signal (T : Type) [DecidableEq T] :
    (∀ (e : Kobject T), e.objType = .objSync → e.Consistent → e.objSignalCount = 0 →
      ∀ wakeAll, (∃ e' woken, e.eventAlarm wakeAll = some (e', woken) ∧
        e.AlarmDelivered e' wakeAll woken) ↔ e.NoStaleQueue) ∧
    (∀ s, (system T).ReachableUnder AlarmsFindWaiters s → ¬ LostWakeup s) :=
  ⟨fun _ hsync hcons h0 wakeAll => Kobject.eventAlarm_delivers_iff hsync hcons h0 wakeAll,
    fun _ hs => (Inv.of_reachableUnder hs).not_lostWakeup⟩

instance [Fintype T] (s : State T) : Decidable (LostWakeup s) := by
  unfold LostWakeup
  infer_instance

/-- Thread 0 takes the mutex, thread 1 queues up with a timeout that fires before it
runs again, and thread 2 has just failed its last spin attempt. -/
def staleQueueRun : List (Event (Fin 3)) :=
  [Event.kmutexAcquire 0 false, Event.run 0, Event.kmutexAcquire 1 true] ++
    List.replicate 52 (Event.run 1) ++ [Event.timeout 1, Event.kmutexAcquire 2 false] ++
    List.replicate 50 (Event.run 2) ++ [Event.kmutexRelease 0]

/-- The alarm of thread 0 only drops the stale wait block; thread 2 then sleeps on a
free mutex. -/
def lostSignalRun : List (Event (Fin 3)) :=
  staleQueueRun ++ [.run 0, .run 2, .run 2, .run 1]

/-- The alarm about to be made finds only a waiter that has been unwaited: it resumes
nobody and leaves the event unsignalled, and the mutex loses a wakeup. -/
theorem lost_signal :
    (∃ s, (system (Fin 3)).Reachable s ∧ s.pc 0 = .alarming ∧
      s.mutex.event.objType = .objSync ∧ s.mutex.event.objSignalCount = 0 ∧
      s.mutex.event.eventAlarm false =
        some ({ s.mutex.event with objWaitCount := 0, objWaitList := [] }, [])) ∧
    ∃ s, (system (Fin 3)).Reachable s ∧ LostWakeup s := by
  constructor
  · obtain ⟨s, hs, hp⟩ := TransitionSystem.exists_reachable_of_run
      (show (system (Fin 3)).init initial from rfl) staleQueueRun (fun s => s.pc 0 = .alarming ∧
        s.mutex.event.objType = .objSync ∧ s.mutex.event.objSignalCount = 0 ∧
        s.mutex.event.eventAlarm false =
          some ({ s.mutex.event with objWaitCount := 0, objWaitList := [] }, []))
      (by decide +kernel)
    exact ⟨s, hs, by simpa using hp⟩
  · obtain ⟨s, hs, hp⟩ := TransitionSystem.exists_reachable_of_run
      (show (system (Fin 3)).init initial from rfl) lostSignalRun (fun s => LostWakeup s)
      (by decide +kernel)
    exact ⟨s, hs, by simpa using hp⟩

/-- A handover to a waiter without a timeout meets the condition. -/
def handoverRun : List (Event (Fin 3)) :=
  [Event.kmutexAcquire 0 false, Event.run 0, Event.kmutexAcquire 2 false] ++
    List.replicate 52 (Event.run 2) ++ [Event.kmutexRelease 0, Event.run 0]

theorem no_lost_signal_three :
    (∃ e' woken, (⟨.objSync, 0, 1, [⟨2, .success, false⟩]⟩ : Kobject (Fin 3)).eventAlarm false =
      some (e', woken) ∧ Kobject.AlarmDelivered
        (⟨.objSync, 0, 1, [⟨2, .success, false⟩]⟩ : Kobject (Fin 3)) e' false woken) ∧
    ∃ s, (system (Fin 3)).ReachableUnder AlarmsFindWaiters s ∧ s.mutex.owner = none ∧
      (∃ w, s.pc 2 = .waiting w) ∧ ¬ LostWakeup s := by
  constructor
  · exact ((no_lost_signal (Fin 3)).1 _ rfl ⟨rfl, by decide⟩ rfl false).mpr (by decide)
  · obtain ⟨s, hs, hp⟩ := TransitionSystem.exists_reachableUnder_of_runUnder
      (C := AlarmsFindWaiters) (show (system (Fin 3)).init initial from rfl) handoverRun
      (fun s => s.mutex.owner = none ∧ s.pc 2 = .waiting ⟨.comitted, some .success, false⟩)
      (by decide +kernel)
    simp only [decide_eq_true_eq] at hp
    exact ⟨s, hs, hp.1, ⟨_, hp.2⟩, (no_lost_signal (Fin 3)).2 s hs⟩

/-! ## Mutual exclusion -/

/-- The owner is the thread that has acquired the mutex and not yet released it. -/
def OwnerHolds (s : State T) : Prop := ∀ t, s.mutex.owner = some t ↔ s.pc t = .holding

/-- A thread that does not hold the mutex moves, and does not come to hold it. -/
theorem OwnerHolds.move (h : OwnerHolds s) (howner : s'.mutex.owner = s.mutex.owner)
    (hpc : s'.pc = Function.update s.pc t p) (ht : s.pc t ≠ .holding) (hp : p ≠ .holding) :
    OwnerHolds s' := by
  intro u
  rw [howner, h u, hpc]
  by_cases hu : u = t
  · rw [hu, Function.update_self]
    exact iff_of_false ht hp
  · rw [Function.update_of_ne hu]

theorem unwait_eq_holding (p : Pc) (status : Status) : p.unwait status = .holding ↔ p = .holding := by
  cases p <;> simp [Pc.unwait]

theorem OwnerHolds.step {ev : Event T} (h : OwnerHolds s) (hs : step s ev = some s') :
    OwnerHolds s' := by
  cases ev with
  | kmutexAcquire t hasTimeout =>
    simp only [Kmutex.step, Option.ite_none_right_eq_some, Option.some.injEq] at hs
    obtain ⟨⟨ht, -⟩, rfl⟩ := hs
    exact h.move rfl rfl (by simp [ht]) (by simp)
  | kmutexRelease t =>
    simp only [Kmutex.step, Option.ite_none_right_eq_some, Option.some.injEq] at hs
    obtain ⟨⟨-, howner⟩, rfl⟩ := hs
    intro u
    refine iff_of_false (by simp) ?_
    by_cases hu : u = t
    · simp [hu]
    · dsimp only
      rw [Function.update_of_ne hu, ← h u, howner, Option.some.injEq]
      exact Ne.symm hu
  | timeout t =>
    cases ht : s.pc t with
    | waiting w =>
      simp only [Kmutex.step, ht, Option.ite_none_right_eq_some, Option.some.injEq] at hs
      obtain ⟨-, rfl⟩ := hs
      exact h.move rfl rfl (by simp [ht]) (by simp)
    | _ => simp [Kmutex.step, ht] at hs
  | run t =>
    cases ht : s.pc t with
    | outside | holding => simp [Kmutex.step, ht] at hs
    | spin i hasTimeout =>
      simp only [Kmutex.step, ht] at hs
      split_ifs at hs with hfree hi
      · obtain rfl := Option.some.inj hs
        intro u
        dsimp only
        by_cases hu : u = t
        · simp [hu]
        · rw [Function.update_of_ne hu, ← h u, hfree]
          simp [Ne.symm hu]
      · obtain rfl := Option.some.inj hs
        exact h.move rfl rfl (by simp [ht]) (by simp)
      · obtain rfl := Option.some.inj hs
        exact h.move rfl rfl (by simp [ht]) (by simp)
    | schedWait hasTimeout =>
      simp only [Kmutex.step, ht] at hs
      split at hs
      all_goals
        obtain rfl := Option.some.inj hs
        exact h.move rfl rfl (by simp [ht]) (by simp)
    | waiting w =>
      simp only [Kmutex.step, ht] at hs
      split at hs
      · cases hs
      · obtain rfl := Option.some.inj hs
        exact h.move rfl rfl (by simp [ht]) (by simp)
      · obtain rfl := Option.some.inj hs
        refine h.move rfl rfl (by simp [ht]) ?_
        split_ifs <;> simp
    | alarming =>
      simp only [Kmutex.step, ht] at hs
      split at hs
      · cases hs
      · obtain rfl := Option.some.inj hs
        have hout : OwnerHolds (⟨s.mutex, Function.update s.pc t .outside⟩ : State T) :=
          h.move rfl rfl (by simp [ht]) (by simp)
        intro u
        refine (hout u).trans ⟨?_, not_imp_not.mp ?_⟩
        · exact resumeAll_induction fun wb _ p hp => (unwait_eq_holding p wb.status).mpr hp
        · exact resumeAll_induction fun wb _ p => (unwait_eq_holding p wb.status).not.mpr

/-- **Mutual exclusion**, whatever times out and whatever wakeups are lost: one thread at most holds
the mutex, and the assertions about the owner do not fail. -/
theorem holders_exclude (h : (system T).Reachable s) :
    (∀ t u, s.pc t = .holding → s.pc u = .holding → t = u) ∧
      ∀ t, s.mutex.owner = some t ↔ s.pc t = .holding := by
  have hinv : OwnerHolds s := by
    refine TransitionSystem.Reachable.invariant ?_ (fun _ _ _ h hs => h.step hs) h
    rintro _ rfl t
    exact iff_of_false (by simp [initial]) (by simp [initial])
  refine ⟨fun t u ht hu => ?_, hinv⟩
  exact Option.some.inj (((hinv t).mpr ht).symm.trans ((hinv u).mpr hu))

/-- One of two threads takes the mutex. -/
theorem holders_exclude_two : ∃ s, (system (Fin 2)).Reachable s ∧ s.pc 0 = .holding ∧
    ∀ u, s.pc u = .holding → u = 0 := by
  obtain ⟨s, hs, hp⟩ := TransitionSystem.exists_reachable_of_run
    (show (system (Fin 2)).init initial from rfl) [.kmutexAcquire 0 false, .run 0]
    (fun s => decide (s.pc 0 = .holding)) (by decide +kernel)
  have hp := of_decide_eq_true hp
  exact ⟨s, hs, hp, fun u hu => (holders_exclude hs).1 u 0 hu hp⟩

end Kmutex
