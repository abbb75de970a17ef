/-
# The reader-writer lock

`core/rwlock.c`: any number of threads calling the five operations on one
`struct rwlock`.  Every atomic access to the lock word, the exclusive count and the
owner is one step, and so is every section of `sched_wait` and every alarm.

`runPc` says what a thread does next from its place in the code, and on the lock;
`step` puts that into the state of all threads.
-/
import YakKernel.TransitionSystem
import YakKernel.Tally
import YakKernel.Kobject

/-- `struct rwlock`; `state` and `exclusiveCount` are 32-bit counters. -/
structure Rwlock (T : Type*) where
  event : Kobject T
  exclusiveOwner : Option T
  state : ℕ
  exclusiveCount : ℕ
  deriving DecidableEq

namespace Rwlock

/-! ## The lock word -/

/-- `RWLOCK_EXCLUSIVE`. -/
def rwlockExclusive : ℕ := 2 ^ 31

/-- `state & RWLOCK_READER_MASK`. -/
def readers (state : ℕ) : ℕ := state % rwlockExclusive

/-- `(state & RWLOCK_EXCLUSIVE) != 0`. -/
def hasExclusive (state : ℕ) : Bool := state / rwlockExclusive % 2 = 1

/-- `__atomic_fetch_add(p, 1)` on a 32-bit counter. -/
def incr (n : ℕ) : ℕ := (n + 1) % 2 ^ 32

/-- `__atomic_fetch_sub(p, 1)` on a 32-bit counter. -/
def decr (n : ℕ) : ℕ := (n + (2 ^ 32 - 1)) % 2 ^ 32

/-! ## The threads -/

/-- Where a thread is in the code of the lock.  A name ending in the access says
which atomic access comes next; `retry` is true once the loop of the acquire
function has come back from `sched_wait`. -/
inductive Pc : Type where
  | outside
  /-- `rwlock_acquire_shared` -/
  | sharedLoad (hasTimeout retry : Bool)
  | sharedCount (state : ℕ) (hasTimeout retry : Bool)
  | sharedCas (state : ℕ) (hasTimeout retry : Bool)
  | sharedWait (hasTimeout : Bool)
  | sharedWaiting (w : WaitState)
  /-- holds the lock shared -/
  | shared
  /-- `rwlock_release_shared`, called by `rwlock_upgrade_to_exclusive` or not -/
  | releaseSharedAssert (upgrade : Bool)
  | releaseSharedSub (upgrade : Bool)
  | releaseSharedAlarm (upgrade : Bool)
  /-- `rwlock_acquire_exclusive` -/
  | exclusiveAdd (hasTimeout : Bool)
  | exclusiveLoad (hasTimeout : Bool)
  | exclusiveCas (hasTimeout : Bool)
  | exclusiveWait (hasTimeout : Bool)
  | exclusiveWaiting (w : WaitState)
  | exclusiveSub
  /-- the lock word is taken; the owner is checked, then stored -/
  | exclusiveAssert
  | exclusiveStore
  /-- holds the lock exclusively -/
  | exclusive
  /-- `rwlock_release_exclusive` -/
  | releaseExclusiveAssert
  | releaseExclusiveSub
  | releaseExclusiveStore
  | releaseExclusiveAnd
  | releaseExclusiveAlarm
  /-- `rwlock_upgrade_to_exclusive` -/
  | upgradeLoad
  | upgradeAdd (state : ℕ)
  | upgradeCas (state : ℕ)
  | upgradeSub
  deriving DecidableEq

/-- The effect of `thread_unwait` on the place of a thread. -/
def Pc.unwait (p : Pc) (status : Status) : Pc :=
  match p with
  | .sharedWaiting w => .sharedWaiting (w.threadUnwait status)
  | .exclusiveWaiting w => .exclusiveWaiting (w.threadUnwait status)
  | p => p

/-- The outcome of one access: the lock, the next place and the wait blocks resumed;
a failed assertion; or a thread that cannot run. -/
inductive Result (T : Type*) where
  | next (lock : Rwlock T) (p : Pc) (woken : List (WaitBlock T))
  | panic
  | stuck

/-- The end of `rwlock_release_shared`, or its continuation in an upgrade. -/
def afterReleaseShared (upgrade : Bool) : Pc :=
  if upgrade then .exclusiveAdd false else .outside

variable {T : Type*} [DecidableEq T]

/-- The alarm that ends a release. -/
def runAlarm (lock : Rwlock T) (p : Pc) : Result T :=
  match lock.event.eventAlarm false with
  | none => .panic
  | some (event, woken) => .next { lock with event := event } p woken

/-- Entering `sched_wait`: on a signal the loop goes on at `again`, else the thread
waits as `waiting` says. -/
def runWait (lock : Rwlock T) (t : T) (hasTimeout : Bool) (again : Pc)
    (waiting : WaitState → Pc) : Result T :=
  match lock.event.schedWaitEnter t hasTimeout with
  | (event, none) => .next { lock with event := event } again []
  | (event, some w) => .next { lock with event := event } (waiting w) []

/-- A thread inside `sched_wait`; it leaves to `again` on success and to `failed` on
an error. -/
def runWaiting (lock : Rwlock T) (t : T) (w : WaitState) (again failed : Pc)
    (waiting : WaitState → Pc) : Result T :=
  match lock.event.schedWaitRun t w with
  | none => .stuck
  | some (event, .inl w') => .next { lock with event := event } (waiting w') []
  | some (event, .inr status) =>
    .next { lock with event := event } (if status.isErr then failed else again) []

/-- The next access of thread `t` from its place in the code. -/
def runPc (lock : Rwlock T) (t : T) : Pc → Result T
  | .outside => .stuck
  | .sharedLoad hasTimeout retry =>
    -- either locked exclusive or waiting to clear shared locks
    if hasExclusive lock.state then .next lock (.sharedWait hasTimeout) []
    else .next lock (.sharedCount lock.state hasTimeout retry) []
  | .sharedCount state hasTimeout retry =>
    if lock.exclusiveCount ≠ 0 then .next lock (.sharedWait hasTimeout) []
    else .next lock (.sharedCas state hasTimeout retry) []
  | .sharedCas state hasTimeout _ =>
    if lock.state = state then .next { lock with state := incr state } .shared []
    else .next lock (.sharedWait hasTimeout) []
  | .sharedWait hasTimeout =>
    runWait lock t hasTimeout (.sharedLoad hasTimeout true) .sharedWaiting
  | .sharedWaiting w =>
    runWaiting lock t w (.sharedLoad w.hasTimeout true) .outside .sharedWaiting
  | .shared => .stuck
  | .releaseSharedAssert upgrade =>
    if 0 < readers lock.state then .next lock (.releaseSharedSub upgrade) []
    else .panic
  | .releaseSharedSub upgrade =>
    -- we should never underflow
    if 0 < readers lock.state then
      -- only alarm when we're the last one
      if readers lock.state = 1 then
        .next { lock with state := decr lock.state } (.releaseSharedAlarm upgrade) []
      else
        .next { lock with state := decr lock.state } (afterReleaseShared upgrade) []
    else .panic
  | .releaseSharedAlarm upgrade => runAlarm lock (afterReleaseShared upgrade)
  | .exclusiveAdd hasTimeout =>
    .next { lock with exclusiveCount := incr lock.exclusiveCount } (.exclusiveLoad hasTimeout) []
  | .exclusiveLoad hasTimeout =>
    -- already locked or still has shared readers
    if lock.state ≠ 0 then .next lock (.exclusiveWait hasTimeout) []
    else .next lock (.exclusiveCas hasTimeout) []
  | .exclusiveCas hasTimeout =>
    if lock.state = 0 then .next { lock with state := rwlockExclusive } .exclusiveAssert []
    else .next lock (.exclusiveWait hasTimeout) []
  | .exclusiveWait hasTimeout =>
    runWait lock t hasTimeout (.exclusiveLoad hasTimeout) .exclusiveWaiting
  | .exclusiveWaiting w =>
    runWaiting lock t w (.exclusiveLoad w.hasTimeout) .exclusiveSub .exclusiveWaiting
  | .exclusiveSub =>
    .next { lock with exclusiveCount := decr lock.exclusiveCount } .outside []
  | .exclusiveAssert =>
    if lock.exclusiveOwner = none then .next lock .exclusiveStore [] else .panic
  | .exclusiveStore => .next { lock with exclusiveOwner := some t } .exclusive []
  | .exclusive => .stuck
  | .releaseExclusiveAssert =>
    if lock.exclusiveOwner = some t then .next lock .releaseExclusiveSub [] else .panic
  | .releaseExclusiveSub =>
    .next { lock with exclusiveCount := decr lock.exclusiveCount } .releaseExclusiveStore []
  | .releaseExclusiveStore =>
    .next { lock with exclusiveOwner := none } .releaseExclusiveAnd []
  | .releaseExclusiveAnd =>
    .next { lock with state := readers lock.state } .releaseExclusiveAlarm []
  | .releaseExclusiveAlarm => runAlarm lock .outside
  | .upgradeLoad => .next lock (.upgradeAdd lock.state) []
  | .upgradeAdd state =>
    .next { lock with exclusiveCount := incr lock.exclusiveCount } (.upgradeCas state) []
  | .upgradeCas state =>
    if state = 1 ∧ lock.state = 1 then
      .next { lock with state := rwlockExclusive } .exclusiveAssert []
    else .next lock .upgradeSub []
  | .upgradeSub =>
    .next { lock with exclusiveCount := decr lock.exclusiveCount } (.releaseSharedAssert true) []

/-! ## The system -/

/-- The lock, the place of every thread, and whether an assertion has failed. -/
structure State (T : Type*) where
  lock : Rwlock T
  pc : T → Pc
  panicked : Bool

/-- The five operations, a thread running on, and a timeout expiring. -/
inductive Event (T : Type*) where
  | rwlockAcquireShared (t : T) (hasTimeout : Bool)
  | rwlockReleaseShared (t : T)
  | rwlockAcquireExclusive (t : T) (hasTimeout : Bool)
  | rwlockReleaseExclusive (t : T)
  | rwlockUpgradeToExclusive (t : T)
  | run (t : T)
  | timeout (t : T)

/-- Enter an operation from a given place. -/
def State.call (s : State T) (t : T) (before after : Pc) : Option (State T) :=
  if s.pc t = before then some { s with pc := Function.update s.pc t after } else none

/-- The wait of a thread that sits in `sched_wait`. -/
def Pc.waitState : Pc → Option WaitState
  | .sharedWaiting w => some w
  | .exclusiveWaiting w => some w
  | _ => none

/-- One step; after a failed assertion there is none. -/
def step (timeouts : Bool) (s : State T) (ev : Event T) : Option (State T) :=
  if s.panicked then none
  else match ev with
  | .rwlockAcquireShared t hasTimeout =>
    if hasTimeout ∧ ¬ timeouts then none
    else s.call t .outside (.sharedLoad hasTimeout false)
  | .rwlockReleaseShared t => s.call t .shared (.releaseSharedAssert false)
  | .rwlockAcquireExclusive t hasTimeout =>
    if hasTimeout ∧ ¬ timeouts then none
    else s.call t .outside (.exclusiveAdd hasTimeout)
  | .rwlockReleaseExclusive t => s.call t .exclusive .releaseExclusiveAssert
  | .rwlockUpgradeToExclusive t => s.call t .shared .upgradeLoad
  | .run t =>
    match runPc s.lock t (s.pc t) with
    | .next lock p woken =>
      some { s with lock := lock, pc := resumeAll Pc.unwait woken (Function.update s.pc t p) }
    | .panic => some { s with panicked := true }
    | .stuck => none
  | .timeout t =>
    match (s.pc t).waitState with
    | some w =>
      if w.hasTimeout ∧ w.waitStatus = none then
        some { s with
          lock := { s.lock with event := s.lock.event.setUnwaited t }
          pc := Function.update s.pc t ((s.pc t).unwait .timeout) }
      else none
    | none => none

/-- `rwlock_init`, with every thread outside. -/
def initial : State T where
  lock := { event := Kobject.eventInit false false, exclusiveOwner := none
            state := 0, exclusiveCount := 0 }
  pc := fun _ => .outside
  panicked := false

/-- Any number of threads sharing one lock, with or without finite timeouts. -/
def system (T : Type*) [DecidableEq T] (timeouts : Bool) :
    TransitionSystem (State T) (Event T) where
  init := fun s => s = initial
  step := step timeouts

/-! ## Who holds the lock -/

/-- The thread has its one in the reader count of the lock word. -/
def Pc.HoldsShared : Pc → Prop
  | .shared | .releaseSharedAssert _ | .releaseSharedSub _ => True
  | .upgradeLoad | .upgradeAdd _ | .upgradeCas _ | .upgradeSub => True
  | _ => False

/-- The thread has set the exclusive bit and not yet cleared it. -/
def Pc.HoldsExclusive : Pc → Prop
  | .exclusiveAssert | .exclusiveStore | .exclusive => True
  | .releaseExclusiveAssert | .releaseExclusiveSub => True
  | .releaseExclusiveStore | .releaseExclusiveAnd => True
  | _ => False

/-- The thread has its one in `exclusive_count`. -/
def Pc.CountsExclusive : Pc → Prop
  | .exclusiveLoad _ | .exclusiveCas _ | .exclusiveWait _ | .exclusiveWaiting _ => True
  | .exclusiveSub | .exclusiveAssert | .exclusiveStore | .exclusive => True
  | .releaseExclusiveAssert | .releaseExclusiveSub => True
  | .upgradeCas _ | .upgradeSub => True
  | _ => False

/-- The lock word counts the shared holders, or is exactly the exclusive bit and one
thread holds the lock exclusively. -/
def StateCounts (state : ℕ) (pc : T → Pc) : Prop :=
  (Tally (fun t => (pc t).HoldsShared) state ∧ Tally (fun t => (pc t).HoldsExclusive) 0 ∧
    state ≤ rwlockExclusive) ∨
  (Tally (fun t => (pc t).HoldsShared) 0 ∧ Tally (fun t => (pc t).HoldsExclusive) 1 ∧
    state = rwlockExclusive)

/-- `exclusive_count` counts the exclusive holders and the pending ones, as a 32-bit
counter. -/
def ExclusiveCounts (count : ℕ) (pc : T → Pc) : Prop :=
  ∃ k, Tally (fun t => (pc t).CountsExclusive) k ∧ count = k % 2 ^ 32

/-! ## What one access can do -/

theorem lt_of_not_hasExclusive {n : ℕ} (hn : n ≤ rwlockExclusive) (h : hasExclusive n = false) :
    n < rwlockExclusive := by
  rcases Nat.lt_or_eq_of_le hn with hlt | rfl
  · exact hlt
  · simp [hasExclusive, rwlockExclusive] at h

theorem incr_of_lt {n : ℕ} (h : n < rwlockExclusive) : incr n = n + 1 := by
  simp only [incr, rwlockExclusive] at *
  omega

theorem decr_succ {n : ℕ} (h : n < rwlockExclusive) : decr (n + 1) = n := by
  simp only [decr, rwlockExclusive] at *
  omega

/-- The value a shared acquirer loaded has no exclusive bit. -/
def Pc.Fits : Pc → Prop
  | .sharedCount state _ _ | .sharedCas state _ _ => hasExclusive state = false
  | _ => True

variable {lock lock' : Rwlock T} {t : T} {p p' : Pc} {woken : List (WaitBlock T)}

omit [DecidableEq T] in
theorem runWait_next {hasTimeout : Bool} {again : Pc} {waiting : WaitState → Pc}
    (h : runWait lock t hasTimeout again waiting = .next lock' p' woken) :
    ∃ event, lock' = { lock with event := event } ∧ woken = [] ∧
      ((lock.event.isObjSignaled = true ∧ event = lock.event.objMaybeAcquire ∧ p' = again) ∨
       (lock.event.isObjSignaled = false ∧ event = lock.event.enqueue ⟨t, .success, false⟩ ∧
        p' = waiting (WaitState.start hasTimeout))) := by
  simp only [runWait, Kobject.schedWaitEnter] at h
  cases hsig : lock.event.isObjSignaled <;> simp only [hsig, Bool.false_eq_true, if_true,
    if_false] at h <;> cases h
  · exact ⟨_, rfl, rfl, Or.inr ⟨rfl, rfl, rfl⟩⟩
  · exact ⟨_, rfl, rfl, Or.inl ⟨rfl, rfl, rfl⟩⟩

theorem runWaiting_next {w : WaitState} {again failed : Pc} {waiting : WaitState → Pc}
    (h : runWaiting lock t w again failed waiting = .next lock' p' woken) :
    woken = [] ∧
      ((lock' = lock ∧ p' = waiting { w with waitPhase := .comitted }) ∨
       ∃ status, w.waitStatus = some status ∧
        lock' = { lock with event := lock.event.wbDequeue t } ∧
        p' = if status.isErr then failed else again) := by
  simp only [runWaiting] at h
  cases hphase : w.waitPhase with
  | inProgress =>
    simp only [Kobject.schedWaitRun, hphase] at h
    cases h
    exact ⟨rfl, Or.inl ⟨rfl, rfl⟩⟩
  | comitted =>
    cases hst : w.waitStatus with
    | none => simp [Kobject.schedWaitRun, hphase, hst] at h
    | some status =>
      simp only [Kobject.schedWaitRun, hphase, hst] at h
      cases h
      exact ⟨rfl, Or.inr ⟨status, rfl, rfl, rfl⟩⟩
  | aborted =>
    cases hst : w.waitStatus with
    | none => simp [Kobject.schedWaitRun, hphase, hst] at h
    | some status =>
      simp only [Kobject.schedWaitRun, hphase, hst] at h
      cases h
      exact ⟨rfl, Or.inr ⟨status, rfl, rfl, rfl⟩⟩

omit [DecidableEq T] in
theorem runAlarm_next {after : Pc} (h : runAlarm lock after = .next lock' p' woken) :
    ∃ event, lock.event.eventAlarm false = some (event, woken) ∧
      lock' = { lock with event := event } ∧ p' = after := by
  simp only [runAlarm] at h
  cases halarm : lock.event.eventAlarm false with
  | none => simp [halarm] at h
  | some r =>
    simp only [halarm] at h
    cases h
    exact ⟨_, rfl, rfl, rfl⟩

/-- The changes of the lock word that one access can make, with the change of the
thread's own hold. -/
inductive HoldChange (state state' : ℕ) (p p' : Pc) : Prop where
  | same : state' = state → (p'.HoldsShared ↔ p.HoldsShared) →
      (p'.HoldsExclusive ↔ p.HoldsExclusive) → HoldChange state state' p p'
  | enterShared : hasExclusive state = false → state' = incr state → ¬ p.HoldsShared →
      p'.HoldsShared → ¬ p.HoldsExclusive → ¬ p'.HoldsExclusive → HoldChange state state' p p'
  | leaveShared : 0 < readers state → state' = decr state → p.HoldsShared →
      ¬ p'.HoldsShared → ¬ p.HoldsExclusive → ¬ p'.HoldsExclusive → HoldChange state state' p p'
  | enterExclusive : state = 0 → state' = rwlockExclusive → ¬ p.HoldsShared →
      ¬ p'.HoldsShared → ¬ p.HoldsExclusive → p'.HoldsExclusive → HoldChange state state' p p'
  | upgrade : state = 1 → state' = rwlockExclusive → p.HoldsShared →
      ¬ p'.HoldsShared → ¬ p.HoldsExclusive → p'.HoldsExclusive → HoldChange state state' p p'
  | leaveExclusive : state' = readers state → ¬ p.HoldsShared →
      ¬ p'.HoldsShared → p.HoldsExclusive → ¬ p'.HoldsExclusive → HoldChange state state' p p'

theorem not_holdsShared_afterReleaseShared (b : Bool) :
    ¬ (afterReleaseShared b).HoldsShared ∧ ¬ (afterReleaseShared b).HoldsExclusive ∧
      ¬ (afterReleaseShared b).CountsExclusive := by
  cases b <;> simp [afterReleaseShared, Pc.HoldsShared, Pc.HoldsExclusive, Pc.CountsExclusive]

omit [DecidableEq T] in
theorem holdChange_of_wait {hasTimeout : Bool} {again : Pc} {waiting : WaitState → Pc}
    (h : runWait lock t hasTimeout again waiting = .next lock' p' woken)
    (hp : ¬ p.HoldsShared ∧ ¬ p.HoldsExclusive)
    (ha : ¬ again.HoldsShared ∧ ¬ again.HoldsExclusive)
    (hw : ∀ w, ¬ (waiting w).HoldsShared ∧ ¬ (waiting w).HoldsExclusive) :
    HoldChange lock.state lock'.state p p' := by
  obtain ⟨event, rfl, -, ⟨-, -, rfl⟩ | ⟨-, -, rfl⟩⟩ := runWait_next h
  · exact .same rfl (iff_of_false ha.1 hp.1) (iff_of_false ha.2 hp.2)
  · exact .same rfl (iff_of_false (hw _).1 hp.1) (iff_of_false (hw _).2 hp.2)

theorem holdChange_of_waiting {w : WaitState} {again failed : Pc} {waiting : WaitState → Pc}
    (h : runWaiting lock t w again failed waiting = .next lock' p' woken)
    (hp : ¬ p.HoldsShared ∧ ¬ p.HoldsExclusive)
    (ha : ¬ again.HoldsShared ∧ ¬ again.HoldsExclusive)
    (hf : ¬ failed.HoldsShared ∧ ¬ failed.HoldsExclusive)
    (hw : ∀ w, ¬ (waiting w).HoldsShared ∧ ¬ (waiting w).HoldsExclusive) :
    HoldChange lock.state lock'.state p p' := by
  obtain ⟨-, ⟨rfl, rfl⟩ | ⟨status, -, rfl, rfl⟩⟩ := runWaiting_next h
  · exact .same rfl (iff_of_false (hw _).1 hp.1) (iff_of_false (hw _).2 hp.2)
  · refine .same rfl (iff_of_false ?_ hp.1) (iff_of_false ?_ hp.2) <;> split_ifs
    exacts [hf.1, ha.1, hf.2, ha.2]

omit [DecidableEq T] in
theorem holdChange_of_alarm {after : Pc} (h : runAlarm lock after = .next lock' p' woken)
    (hp : ¬ p.HoldsShared ∧ ¬ p.HoldsExclusive)
    (ha : ¬ after.HoldsShared ∧ ¬ after.HoldsExclusive) :
    HoldChange lock.state lock'.state p p' := by
  obtain ⟨event, -, rfl, rfl⟩ := runAlarm_next h
  exact .same rfl (iff_of_false ha.1 hp.1) (iff_of_false ha.2 hp.2)

theorem runPc_holdChange (h : runPc lock t p = .next lock' p' woken) (hfits : p.Fits) :
    HoldChange lock.state lock'.state p p' := by
  cases p with
  | outside | shared | exclusive => simp [runPc] at h
  | sharedWait | exclusiveWait => exact holdChange_of_wait h ⟨id, id⟩ ⟨id, id⟩ (fun _ => ⟨id, id⟩)
  | sharedWaiting | exclusiveWaiting =>
    exact holdChange_of_waiting h ⟨id, id⟩ ⟨id, id⟩ ⟨id, id⟩ (fun _ => ⟨id, id⟩)
  | sharedCas state hasTimeout retry =>
    simp only [runPc] at h
    split_ifs at h with heq <;> cases h
    · exact .enterShared (heq ▸ hfits) (by rw [heq]) id trivial id id
    · exact .same rfl Iff.rfl Iff.rfl
  | releaseSharedSub upgrade =>
    obtain ⟨hs, he, -⟩ := not_holdsShared_afterReleaseShared upgrade
    simp only [runPc] at h
    split_ifs at h with hpos hone <;> cases h
    · exact .leaveShared hpos rfl trivial id id id
    · exact .leaveShared hpos rfl trivial hs id he
  | releaseSharedAlarm upgrade =>
    obtain ⟨hs, he, -⟩ := not_holdsShared_afterReleaseShared upgrade
    exact holdChange_of_alarm h ⟨id, id⟩ ⟨hs, he⟩
  | exclusiveCas hasTimeout =>
    simp only [runPc] at h
    split_ifs at h with h0 <;> cases h
    · exact .enterExclusive h0 rfl id id id trivial
    · exact .same rfl Iff.rfl Iff.rfl
  | releaseExclusiveAnd =>
    cases h
    exact .leaveExclusive rfl id id trivial id
  | releaseExclusiveAlarm => exact holdChange_of_alarm h ⟨id, id⟩ ⟨id, id⟩
  | upgradeCas state =>
    simp only [runPc] at h
    split_ifs at h with hone <;> cases h
    · exact .upgrade hone.2 rfl trivial id id trivial
    · exact .same rfl Iff.rfl Iff.rfl
  | sharedLoad | sharedCount | releaseSharedAssert | exclusiveLoad | exclusiveAssert
  | releaseExclusiveAssert =>
    simp only [runPc] at h
    split_ifs at h <;> cases h <;> exact .same rfl Iff.rfl Iff.rfl
  | exclusiveAdd | exclusiveSub | exclusiveStore | releaseExclusiveSub | releaseExclusiveStore
  | upgradeLoad | upgradeAdd | upgradeSub =>
    cases h
    exact .same rfl Iff.rfl Iff.rfl

/-- The changes of the exclusive count that one access can make. -/
inductive CountChange (count count' : ℕ) (p p' : Pc) : Prop where
  | same : count' = count → (p'.CountsExclusive ↔ p.CountsExclusive) →
      CountChange count count' p p'
  | enter : count' = incr count → ¬ p.CountsExclusive → p'.CountsExclusive →
      CountChange count count' p p'
  | leave : count' = decr count → p.CountsExclusive → ¬ p'.CountsExclusive →
      CountChange count count' p p'

omit [DecidableEq T] in
theorem countChange_of_wait {hasTimeout : Bool} {again : Pc} {waiting : WaitState → Pc}
    (h : runWait lock t hasTimeout again waiting = .next lock' p' woken)
    (ha : again.CountsExclusive ↔ p.CountsExclusive)
    (hw : ∀ w, (waiting w).CountsExclusive ↔ p.CountsExclusive) :
    CountChange lock.exclusiveCount lock'.exclusiveCount p p' := by
  obtain ⟨event, rfl, -, ⟨-, -, rfl⟩ | ⟨-, -, rfl⟩⟩ := runWait_next h
  · exact .same rfl ha
  · exact .same rfl (hw _)

theorem countChange_of_waiting {w : WaitState} {again failed : Pc} {waiting : WaitState → Pc}
    (h : runWaiting lock t w again failed waiting = .next lock' p' woken)
    (ha : again.CountsExclusive ↔ p.CountsExclusive)
    (hf : failed.CountsExclusive ↔ p.CountsExclusive)
    (hw : ∀ w, (waiting w).CountsExclusive ↔ p.CountsExclusive) :
    CountChange lock.exclusiveCount lock'.exclusiveCount p p' := by
  obtain ⟨-, ⟨rfl, rfl⟩ | ⟨status, -, rfl, rfl⟩⟩ := runWaiting_next h
  · exact .same rfl (hw _)
  · refine .same rfl ?_
    split_ifs
    exacts [hf, ha]

omit [DecidableEq T] in
theorem countChange_of_alarm {after : Pc} (h : runAlarm lock after = .next lock' p' woken)
    (ha : after.CountsExclusive ↔ p.CountsExclusive) :
    CountChange lock.exclusiveCount lock'.exclusiveCount p p' := by
  obtain ⟨event, -, rfl, rfl⟩ := runAlarm_next h
  exact .same rfl ha

theorem runPc_countChange (h : runPc lock t p = .next lock' p' woken) :
    CountChange lock.exclusiveCount lock'.exclusiveCount p p' := by
  cases p with
  | outside | shared | exclusive => simp [runPc] at h
  | sharedWait | exclusiveWait => exact countChange_of_wait h Iff.rfl (fun _ => Iff.rfl)
  | sharedWaiting | exclusiveWaiting =>
    exact countChange_of_waiting h Iff.rfl Iff.rfl (fun _ => Iff.rfl)
  | releaseSharedSub upgrade =>
    obtain ⟨-, -, hc⟩ := not_holdsShared_afterReleaseShared upgrade
    simp only [runPc] at h
    split_ifs at h <;> cases h
    · exact .same rfl Iff.rfl
    · exact .same rfl (iff_of_false hc id)
  | releaseSharedAlarm upgrade =>
    obtain ⟨-, -, hc⟩ := not_holdsShared_afterReleaseShared upgrade
    exact countChange_of_alarm h (iff_of_false hc id)
  | releaseExclusiveAlarm => exact countChange_of_alarm h Iff.rfl
  | exclusiveAdd | upgradeAdd =>
    cases h
    exact .enter rfl id trivial
  | exclusiveSub | releaseExclusiveSub | upgradeSub =>
    cases h
    exact .leave rfl trivial id
  | sharedLoad | sharedCount | sharedCas | releaseSharedAssert | exclusiveLoad | exclusiveCas
  | exclusiveAssert | releaseExclusiveAssert | upgradeCas =>
    simp only [runPc] at h
    split_ifs at h <;> cases h <;> exact .same rfl Iff.rfl
  | exclusiveStore | releaseExclusiveStore | releaseExclusiveAnd | upgradeLoad =>
    cases h
    exact .same rfl Iff.rfl

theorem runPc_fits (h : runPc lock t p = .next lock' p' woken) (hfits : p.Fits) : p'.Fits := by
  cases p with
  | outside | shared | exclusive => simp [runPc] at h
  | sharedLoad hasTimeout retry =>
    simp only [runPc] at h
    split_ifs at h with hex <;> cases h
    · trivial
    · exact Bool.eq_false_iff.mpr hex
  | sharedCount state hasTimeout retry =>
    simp only [runPc] at h
    split_ifs at h <;> cases h
    · trivial
    · exact hfits
  | sharedWait hasTimeout =>
    obtain ⟨-, -, -, ⟨-, -, rfl⟩ | ⟨-, -, rfl⟩⟩ := runWait_next h <;> trivial
  | exclusiveWait hasTimeout =>
    obtain ⟨-, -, -, ⟨-, -, rfl⟩ | ⟨-, -, rfl⟩⟩ := runWait_next h <;> trivial
  | sharedWaiting w =>
    obtain ⟨-, ⟨-, rfl⟩ | ⟨status, -, -, rfl⟩⟩ := runWaiting_next h
    · trivial
    · split_ifs <;> trivial
  | exclusiveWaiting w =>
    obtain ⟨-, ⟨-, rfl⟩ | ⟨status, -, -, rfl⟩⟩ := runWaiting_next h
    · trivial
    · split_ifs <;> trivial
  | releaseSharedAlarm upgrade =>
    obtain ⟨-, -, -, rfl⟩ := runAlarm_next h
    cases upgrade <;> trivial
  | releaseExclusiveAlarm =>
    obtain ⟨-, -, -, rfl⟩ := runAlarm_next h
    trivial
  | releaseSharedSub upgrade =>
    simp only [runPc] at h
    split_ifs at h <;> cases h
    · trivial
    · cases upgrade <;> trivial
  | sharedCas | releaseSharedAssert | exclusiveLoad | exclusiveCas | exclusiveAssert
  | releaseExclusiveAssert | upgradeCas =>
    simp only [runPc] at h
    split_ifs at h <;> cases h <;> trivial
  | exclusiveAdd | exclusiveSub | exclusiveStore | releaseExclusiveSub | releaseExclusiveStore
  | releaseExclusiveAnd | upgradeLoad | upgradeAdd | upgradeSub =>
    cases h
    trivial

/-! ## The counters stay exact -/

variable {pc : T → Pc}

/-- **Step lemma for the lock word.** -/
theorem StateCounts.update {state state' : ℕ} (h : StateCounts state pc)
    (hc : HoldChange state state' (pc t) p') : StateCounts state' (Function.update pc t p') := by
  rcases h with ⟨hsh, hex, hle⟩ | ⟨hsh, hex, heq⟩
  · cases hc with
    | same hst hs he =>
      exact Or.inl ⟨hst ▸ hsh.update_of_iff hs, hex.update_of_iff he, hst ▸ hle⟩
    | enterShared hbit hst hs hs' he he' =>
      have hlt := lt_of_not_hasExclusive hle hbit
      rw [hst, incr_of_lt hlt]
      exact Or.inl ⟨hsh.update_insert hs hs', hex.update_of_iff (iff_of_false he' he), hlt⟩
    | leaveShared hpos hst hs hs' he he' =>
      obtain ⟨n, rfl⟩ : ∃ n, state = n + 1 := Nat.exists_eq_succ_of_ne_zero (by
        rintro rfl
        simp [readers] at hpos)
      have hlt : n < rwlockExclusive := hle
      rw [hst, decr_succ hlt]
      exact Or.inl ⟨hsh.update_erase hs hs', hex.update_of_iff (iff_of_false he' he), hlt.le⟩
    | enterExclusive h0 hst hs hs' he he' =>
      subst h0
      exact Or.inr ⟨hsh.update_of_iff (iff_of_false hs' hs), hex.update_insert he he', hst⟩
    | upgrade h1 hst hs hs' he he' =>
      subst h1
      exact Or.inr ⟨hsh.update_erase hs hs', hex.update_insert he he', hst⟩
    | leaveExclusive _ _ _ he _ => exact absurd he (Tally.zero_iff.mp hex t)
  · cases hc with
    | same hst hs he =>
      exact Or.inr ⟨hsh.update_of_iff hs, hex.update_of_iff he, hst ▸ heq⟩
    | enterShared hbit =>
      rw [heq] at hbit
      simp [hasExclusive, rwlockExclusive] at hbit
    | leaveShared _ _ hs => exact absurd hs (Tally.zero_iff.mp hsh t)
    | enterExclusive h0 =>
      rw [heq] at h0
      simp [rwlockExclusive] at h0
    | upgrade h1 =>
      rw [heq] at h1
      simp [rwlockExclusive] at h1
    | leaveExclusive hst hs hs' he he' =>
      have h0 : state' = 0 := by rw [hst, heq, readers, Nat.mod_self]
      subst h0
      exact Or.inl ⟨hsh.update_of_iff (iff_of_false hs' hs), hex.update_erase he he',
        Nat.zero_le _⟩

/-- **Step lemma for the exclusive count.** -/
theorem ExclusiveCounts.update {count count' : ℕ} (h : ExclusiveCounts count pc)
    (hc : CountChange count count' (pc t) p') :
    ExclusiveCounts count' (Function.update pc t p') := by
  obtain ⟨k, hk, rfl⟩ := h
  cases hc with
  | same hst hp => exact ⟨k, hk.update_of_iff hp, hst⟩
  | enter hst hp hp' =>
    refine ⟨k + 1, hk.update_insert hp hp', ?_⟩
    rw [hst, incr]
    omega
  | leave hst hp hp' =>
    obtain ⟨n, rfl⟩ : ∃ n, k = n + 1 := Nat.exists_eq_succ_of_ne_zero (by
      have := hk.pos (a := t) hp
      omega)
    refine ⟨n, hk.update_erase hp hp', ?_⟩
    rw [hst, decr]
    omega

/-- A property of places that `thread_unwait` does not change is tallied alike before
and after an alarm resumes threads. -/
theorem tally_resumeAll {P : Pc → Prop} (hP : ∀ p status, P (p.unwait status) ↔ P p)
    (woken : List (WaitBlock T)) {n : ℕ} :
    ∀ {pc : T → Pc}, Tally (fun t => P (pc t)) n →
      Tally (fun t => P (resumeAll Pc.unwait woken pc t)) n := by
  induction woken with
  | nil => exact fun h => h
  | cons wb woken ih => exact fun h => ih (h.update_of_iff (hP _ _))

theorem holdsShared_unwait (p : Pc) (status : Status) :
    (p.unwait status).HoldsShared ↔ p.HoldsShared := by cases p <;> exact Iff.rfl

theorem holdsExclusive_unwait (p : Pc) (status : Status) :
    (p.unwait status).HoldsExclusive ↔ p.HoldsExclusive := by cases p <;> exact Iff.rfl

theorem countsExclusive_unwait (p : Pc) (status : Status) :
    (p.unwait status).CountsExclusive ↔ p.CountsExclusive := by cases p <;> exact Iff.rfl

theorem fits_unwait (p : Pc) (status : Status) : (p.unwait status).Fits ↔ p.Fits := by
  cases p <;> exact Iff.rfl

theorem StateCounts.resumeAll {state : ℕ} (h : StateCounts state pc)
    (woken : List (WaitBlock T)) : StateCounts state (resumeAll Pc.unwait woken pc) := by
  refine h.imp ?_ ?_
  · exact fun h => ⟨tally_resumeAll holdsShared_unwait woken h.1,
      tally_resumeAll holdsExclusive_unwait woken h.2.1, h.2.2⟩
  · exact fun h => ⟨tally_resumeAll holdsShared_unwait woken h.1,
      tally_resumeAll holdsExclusive_unwait woken h.2.1, h.2.2⟩

theorem ExclusiveCounts.resumeAll {count : ℕ} (h : ExclusiveCounts count pc)
    (woken : List (WaitBlock T)) : ExclusiveCounts count (resumeAll Pc.unwait woken pc) := by
  obtain ⟨k, hk, hcount⟩ := h
  exact ⟨k, tally_resumeAll countsExclusive_unwait woken hk, hcount⟩

/-- The counters of the lock agree with the places of the threads. -/
structure Counted (s : State T) : Prop where
  state : StateCounts s.lock.state s.pc
  count : ExclusiveCounts s.lock.exclusiveCount s.pc
  fits : ∀ t, (s.pc t).Fits

omit [DecidableEq T] in
theorem counted_initial : Counted (initial : State T) where
  state := Or.inl ⟨Tally.zero_iff.mpr (fun _ => id), Tally.zero_iff.mpr (fun _ => id),
    Nat.zero_le _⟩
  count := ⟨0, Tally.zero_iff.mpr (fun _ => id), rfl⟩
  fits := fun _ => trivial

theorem Counted.move {s s' : State T} (h : Counted s) (hstate : s'.lock.state = s.lock.state)
    (hcount : s'.lock.exclusiveCount = s.lock.exclusiveCount)
    (hpc : s'.pc = Function.update s.pc t p)
    (hs : p.HoldsShared ↔ (s.pc t).HoldsShared) (he : p.HoldsExclusive ↔ (s.pc t).HoldsExclusive)
    (hc : p.CountsExclusive ↔ (s.pc t).CountsExclusive) (hfits : p.Fits) : Counted s' where
  state := by
    rw [hpc]
    exact h.state.update (.same hstate hs he)
  count := by
    rw [hpc]
    exact h.count.update (.same hcount hc)
  fits := by
    intro u
    rw [hpc]
    by_cases hu : u = t
    · subst hu
      rwa [Function.update_self]
    · rw [Function.update_of_ne hu]
      exact h.fits u

/-- **Run lemma.**  Every step keeps the counters exact. -/
theorem Counted.step {timeouts : Bool} {s s' : State T} {ev : Event T} (h : Counted s)
    (hs : step timeouts s ev = some s') : Counted s' := by
  have hcall : ∀ {t before after}, s.call t before after = some s' →
      (after.HoldsShared ↔ before.HoldsShared) → (after.HoldsExclusive ↔ before.HoldsExclusive) →
      (after.CountsExclusive ↔ before.CountsExclusive) → after.Fits → Counted s' := by
    intro t before after hs h1 h2 h3 h4
    simp only [State.call] at hs
    split_ifs at hs with hb
    cases hs
    exact h.move rfl rfl rfl (hb ▸ h1) (hb ▸ h2) (hb ▸ h3) h4
  simp only [Rwlock.step] at hs
  split_ifs at hs
  cases ev with
  | rwlockAcquireShared t hasTimeout =>
    simp only at hs
    split_ifs at hs
    exact hcall hs Iff.rfl Iff.rfl Iff.rfl trivial
  | rwlockReleaseShared t => exact hcall hs Iff.rfl Iff.rfl Iff.rfl trivial
  | rwlockAcquireExclusive t hasTimeout =>
    simp only at hs
    split_ifs at hs
    exact hcall hs Iff.rfl Iff.rfl Iff.rfl trivial
  | rwlockReleaseExclusive t => exact hcall hs Iff.rfl Iff.rfl Iff.rfl trivial
  | rwlockUpgradeToExclusive t => exact hcall hs Iff.rfl Iff.rfl Iff.rfl trivial
  | run t =>
    simp only at hs
    cases hrun : runPc s.lock t (s.pc t) with
    | stuck => simp [hrun] at hs
    | panic =>
      simp only [hrun] at hs
      cases hs
      exact ⟨h.state, h.count, h.fits⟩
    | next lock p woken =>
      simp only [hrun] at hs
      cases hs
      refine ⟨?_, ?_, ?_⟩
      · exact (h.state.update (runPc_holdChange hrun (h.fits t))).resumeAll woken
      · exact (h.count.update (runPc_countChange hrun)).resumeAll woken
      · have hupd : ∀ u, (Function.update s.pc t p u).Fits := by
          intro u
          by_cases hu : u = t
          · subst hu
            rw [Function.update_self]
            exact runPc_fits hrun (h.fits u)
          · rw [Function.update_of_ne hu]
            exact h.fits u
        exact fun u => resumeAll_induction (fun wb _ p => (fits_unwait p wb.status).mpr) (hupd u)
  | timeout t =>
    simp only at hs
    cases hw : (s.pc t).waitState with
    | none => simp [hw] at hs
    | some w =>
      simp only [hw] at hs
      split_ifs at hs
      cases hs
      exact h.move rfl rfl rfl (holdsShared_unwait _ _) (holdsExclusive_unwait _ _)
        (countsExclusive_unwait _ _) ((fits_unwait _ _).mpr (h.fits t))

theorem Counted.of_reachable {timeouts : Bool} {s : State T}
    (h : (system T timeouts).Reachable s) : Counted s :=
  TransitionSystem.Reachable.invariant (fun _ h0 => h0 ▸ counted_initial)
    (fun _ _ _ hI hs => hI.step hs) h

omit [DecidableEq T] in
theorem Counted.state_ne_zero {s : State T} (h : Counted s) {t : T}
    (ht : (s.pc t).HoldsShared ∨ (s.pc t).HoldsExclusive) : s.lock.state ≠ 0 := by
  rcases h.state with ⟨hsh, hex, -⟩ | ⟨-, -, heq⟩
  · rcases ht with ht | ht
    · have := hsh.pos (a := t) ht
      omega
    · exact absurd ht (Tally.zero_iff.mp hex t)
  · rw [heq]
    simp [rwlockExclusive]

omit [DecidableEq T] in
theorem Counted.exists_countsExclusive {s : State T} (h : Counted s)
    (hc : s.lock.exclusiveCount ≠ 0) : ∃ t, (s.pc t).CountsExclusive := by
  obtain ⟨k, hk, hcount⟩ := h.count
  refine hk.exists_of_pos ?_
  rcases Nat.eq_zero_or_pos k with rfl | hpos
  · exact absurd hcount hc
  · exact hpos

end Rwlock
