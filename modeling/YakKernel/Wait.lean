/-
# Waiting for objects

The blocking branches of `sched_wait` and `sched_wait_many` (`core/wait.c`), the signals
(`core/object.c`, `core/semaphore.c`, `core/kevent.c`) and the timeout timer of every thread
(`core/timer.c`).  Any number of threads and objects; a section under an object's lock or a
thread's lock is one step.

A thread that has been resumed and does not run yet has status `ready`, whatever queue it is
on.  The timer of a wait is installed on the processor of the thread and fires in a DPC of
that processor, so it cannot fire while the thread sets its wait up at `IPL_DPC`; after the
wait the thread may be on another processor.

Three fields are ghosts: `grants` lists what has ended the current wait of a thread, `signals`
counts the signals of a synchronization object and `taken` the successful waits on it.
-/
import YakKernel.TransitionSystem
import YakKernel.Tally
import YakKernel.Kobject

namespace Wait

/-! ## Objects and threads -/

/-- `enum wait_phase`. -/
inductive Phase where
  | none
  | inProgress
  | comitted
  | aborted
  deriving DecidableEq

/-- The states of a thread that waiting tells apart. -/
inductive ThreadStatus where
  | running
  | waiting
  | ready
  deriving DecidableEq

/-- What a wait returns: `YAK_SUCCESS`, `YAK_WAIT_SUCCESS + i` or `YAK_TIMEOUT`. -/
inductive WaitStatus where
  | success
  | waitSuccess (i : ℕ)
  | timeout
  deriving DecidableEq

/-- A pointer to a wait block: the thread's block for its `i`-th object, or its
`timeout_wait_block`. -/
structure Block (T : Type*) where
  thread : T
  index : Option ℕ
  deriving DecidableEq

/-- A pointer to an object: one that threads wait for, or the header of the
`timeout_timer` of a thread. -/
inductive Kptr (T O : Type*) where
  | obj (o : O)
  | timer (t : T)
  deriving DecidableEq

/-- `struct kobject` without its spinlock. -/
structure Kobj (T : Type*) where
  objType : KobjectType
  objSignalCount : ℤ
  objWaitCount : ℕ
  objWaitList : List (Block T)

/-- `kobject_init`. -/
def kobjectInit (T : Type*) (signalstate : ℤ) (type : KobjectType) : Kobj T :=
  ⟨type, signalstate, 0, []⟩

/-- What an object is: a semaphore, an event of one of the two types, or a timer. -/
inductive Kind where
  | semaphore
  | event (type : KobjectType)
  | timer
  deriving DecidableEq

def Kind.objType : Kind → KobjectType
  | .semaphore => .objSync
  | .event type => type
  | .timer => .objNotif

def Kind.isEvent : Kind → Bool
  | .event _ => true
  | _ => false

/-- The states of a timer. -/
inductive TimerState where
  | unused
  | queued
  | canceled
  | fired
  deriving DecidableEq

/-- `struct timer` without its header; `installed` says that `cpu` is set and the timer is
in that processor's heap. -/
structure Timer where
  state : TimerState
  installed : Bool
  deriving DecidableEq

/-- What a thread still has to undo after its wait. -/
inductive Task where
  | wbDequeue (index : Option ℕ)
  | timerUninstall
  /-- `timer_uninstall` once it has found the timer queued -/
  | timerRemove
  deriving DecidableEq

/-- Where a thread is in the code of a wait. -/
inductive Pc where
  | outside
  | setup
  /-- in the loop over the objects -/
  | enqueue (i : ℕ)
  /-- has consumed the signal of object `i` -/
  | found (i : ℕ)
  | arming
  | committing
  /-- in the call of `sched_yield` of `do_wait` -/
  | waiting
  | cleanup (aborted : Bool) (todo : List Task)
  | returning (status : WaitStatus)
  deriving DecidableEq

/-- At `IPL_DPC` on the processor that the wait has been set up on. -/
def Pc.pinned : Pc → Bool
  | .enqueue _ | .found _ | .arming | .committing | .cleanup true _ => true
  | _ => false

/-- The part of `struct kthread` that waiting uses, with the flags of the wait blocks. -/
structure Thread (T O : Type*) where
  pc : Pc
  waitPhase : Phase
  status : ThreadStatus
  waitStatus : WaitStatus
  objects : List O
  many : Bool
  hasTimeout : Bool
  /-- `WB_DEQUEUED` -/
  dequeued : Option ℕ → Bool
  /-- `WB_UNWAITED` -/
  unwaited : Option ℕ → Bool
  grants : List (Kptr T O × WaitStatus)

/-- `wb->status`. -/
def Thread.blockStatus {T O : Type*} (th : Thread T O) : Option ℕ → WaitStatus
  | none => .timeout
  | some i => if th.many then .waitSuccess i else .success

/-- `wb->object`. -/
def Thread.object {T O : Type*} (th : Thread T O) (t : T) : Option ℕ → Option (Kptr T O)
  | none => some (.timer t)
  | some i => th.objects[i]?.map .obj

/-- The object that a status names. -/
def Thread.named {T O : Type*} (th : Thread T O) : WaitStatus → Option O
  | .success => th.objects[0]?
  | .waitSuccess i => th.objects[i]?
  | .timeout => none

/-- The threads, the objects, the timers, whether an assertion has failed or a list has been
corrupted, and two ghost counters. -/
structure State (T O : Type*) where
  threads : T → Thread T O
  kobj : Kptr T O → Kobj T
  timers : T → Timer
  panicked : Bool
  signals : O → ℕ
  taken : O → ℕ

variable {T O : Type*} [DecidableEq T] [DecidableEq O]

@[simps -fullyApplied]
def State.modifyThread (s : State T O) (t : T) (f : Thread T O → Thread T O) : State T O :=
  { s with threads := Function.update s.threads t (f (s.threads t)) }

@[simps -fullyApplied]
def State.modifyKobj (s : State T O) (k : Kptr T O) (f : Kobj T → Kobj T) : State T O :=
  { s with kobj := Function.update s.kobj k (f (s.kobj k)) }

@[simps -fullyApplied]
def State.modifyTimer (s : State T O) (t : T) (f : Timer → Timer) : State T O :=
  { s with timers := Function.update s.timers t (f (s.timers t)) }

@[simps -fullyApplied]
def State.panic (s : State T O) : State T O := { s with panicked := true }

/-- Count `n` more signals of an object. -/
@[simps -fullyApplied]
def State.countSignals (s : State T O) (o : O) (n : ℕ) : State T O :=
  { s with signals := Function.update s.signals o (s.signals o + n) }

/-- Count one more successful wait. -/
@[simps -fullyApplied]
def State.countTaken (s : State T O) (o : O) : State T O :=
  { s with taken := Function.update s.taken o (s.taken o + 1) }

def State.setPc (s : State T O) (t : T) (pc : Pc) : State T O :=
  s.modifyThread t (fun th => { th with pc := pc })

/-! ## Signals -/

/-- The thread after `thread_unwait`, called for the signal of `k`. -/
def Thread.woken {T O : Type*} (th : Thread T O) (status : WaitStatus) (k : Kptr T O) :
    Thread T O :=
  { th with
    waitPhase := if th.status = .running then .aborted else th.waitPhase
    waitStatus := status
    -- set all wait blocks to unwaited
    unwaited := fun index => match index with
      | none => true
      | some i => i < th.objects.length || th.unwaited (some i)
    status := if th.status = .waiting then .ready else th.status
    grants := th.grants ++ [(k, status)] }

/-- `thread_unwait`. -/
def threadUnwait (s : State T O) (t : T) (status : WaitStatus) (k : Kptr T O) : State T O :=
  if (s.threads t).status = .waiting ∨ (s.threads t).waitPhase = .inProgress then
    s.modifyThread t (fun th => th.woken status k)
  else s.panic

/-- `wb->flags |= WB_DEQUEUED`. -/
def Thread.popped {T O : Type*} (th : Thread T O) (index : Option ℕ) : Thread T O :=
  { th with dequeued := Function.update th.dequeued index true }

/-- One round of `kobject_signal_locked` takes the first block off the list. -/
def popBlock (s : State T O) (k : Kptr T O) (n : ℕ) (wb : Block T) (rest : List (Block T)) :
    State T O :=
  (s.modifyThread wb.thread (fun th => th.popped wb.index)).modifyKobj k
    (fun hdr => { hdr with objWaitList := rest, objWaitCount := n })

/-- The loop of `kobject_signal_locked` over `obj_wait_count`: the state afterwards and the
number of threads woken. -/
def signalLoop (unblockAll : Bool) (k : Kptr T O) : ℕ → State T O → State T O × ℕ
  | 0, s => (s, 0)
  | n + 1, s =>
    match (s.kobj k).objWaitList with
    | [] => (s.panic, 0)
    | wb :: rest =>
      let s := popBlock s k n wb rest
      if (s.threads wb.thread).unwaited wb.index then
        -- already unwaited elsewhere
        signalLoop unblockAll k n s
      else
        let s := threadUnwait s wb.thread ((s.threads wb.thread).blockStatus wb.index) k
        if !unblockAll then (s, 1)
        else
          let r := signalLoop unblockAll k n s
          (r.1, r.2 + 1)

/-- `kobject_signal_locked`. -/
def kobjectSignalLocked (s : State T O) (k : Kptr T O) (unblockAll : Bool) : State T O × ℕ :=
  signalLoop unblockAll k (s.kobj k).objWaitCount s

/-- `obj_signal_count = n`. -/
def State.setSignalCount (s : State T O) (k : Kptr T O) (n : ℤ) : State T O :=
  s.modifyKobj k (fun hdr => { hdr with objSignalCount := n })

/-- `semaphore_signal`. -/
def semaphoreSignal (s : State T O) (o : O) : State T O :=
  let r := kobjectSignalLocked s (.obj o) false
  let s := if r.2 = 0 then
      -- no one to be woken
      r.1.setSignalCount (.obj o) ((r.1.kobj (.obj o)).objSignalCount + 1)
    else r.1
  s.countSignals o 1

/-- `event_alarm`. -/
def eventAlarm (s : State T O) (o : O) (wakeAll : Bool) : State T O :=
  if (s.kobj (.obj o)).objSignalCount = 0 then
    if (s.kobj (.obj o)).objWaitCount ≠ 0 then
      match (s.kobj (.obj o)).objType with
      | .objSync =>
        let r := kobjectSignalLocked s (.obj o) wakeAll
        r.1.countSignals o (max 1 r.2)
      | .objNotif => (kobjectSignalLocked s (.obj o) true).1.setSignalCount (.obj o) 1
    else
      -- no waiters: mark the event signaled
      (s.setSignalCount (.obj o) 1).countSignals o 1
  else s

/-! ## Timers -/

/-- What a round of `timer_update` does to the header of the timer. -/
def timerSignal (s : State T O) (k : Kptr T O) : State T O :=
  let s := if (s.kobj k).objWaitCount ≠ 0 then
      -- signal all waiters
      (kobjectSignalLocked s k true).1
    else s
  s.setSignalCount k 1

/-- The round of `timer_update` that pops the timer of thread `t`. -/
def timerUpdate (s : State T O) (t : T) : State T O :=
  timerSignal (s.modifyTimer t (fun _ => ⟨.fired, false⟩)) (.timer t)

/-- `set_timeout`: `timer_reset`, `timer_install` and the timeout block.  Nobody else touches
the timer meanwhile. -/
def setTimeout (s : State T O) (t : T) : State T O :=
  if (s.timers t).state = .queued then s.panic
  else
    let s := s.setSignalCount (.timer t) 0
    let s := if (s.timers t).installed then s
      else (s.modifyTimer t (fun _ => ⟨.queued, true⟩)).setSignalCount (.timer t) 0
    s.modifyKobj (.timer t) (fun hdr => { hdr with
      objWaitList := hdr.objWaitList ++ [⟨t, none⟩], objWaitCount := 1 })

/-! ## Waits -/

/-- `is_obj_signaled`. -/
def Kobj.isObjSignaled (obj : Kobj T) : Bool := 0 < obj.objSignalCount

/-- `obj_maybe_acquire`. -/
def Kobj.objMaybeAcquire (obj : Kobj T) : Kobj T :=
  match obj.objType with
  | .objSync => { obj with objSignalCount := obj.objSignalCount - 1 }
  | .objNotif => obj

/-- `wb_dequeue`; taking a block off a list that it is not on corrupts the list. -/
def wbDequeue (s : State T O) (t : T) (index : Option ℕ) : State T O :=
  -- signaling an object sets WB_DEQUEUED
  if (s.threads t).dequeued index then s
  else match (s.threads t).object t index with
  | none => s.panic
  | some k =>
    if ⟨t, index⟩ ∈ (s.kobj k).objWaitList then
      s.modifyKobj k (fun hdr => { hdr with
        objWaitList := hdr.objWaitList.erase ⟨t, index⟩
        objWaitCount := hdr.objWaitCount - 1 })
    else s.panic

/-- The blocks of the table. -/
def Thread.blockTasks (th : Thread T O) : List Task :=
  (List.range th.objects.length).map (fun i => .wbDequeue (some i))

/-- What is undone when the wait has been aborted before the thread slept. -/
def Thread.abortTasks (th : Thread T O) : List Task :=
  (if th.hasTimeout then [.timerUninstall, .wbDequeue none] else []) ++ th.blockTasks

/-- What `do_wait` undoes after `sched_yield`. -/
def Thread.wakeTasks (th : Thread T O) : List Task :=
  th.blockTasks ++ (if th.hasTimeout then [.wbDequeue none, .timerUninstall] else [])

/-- One task; what is still to do stands in the place of the thread. -/
def runTask (s : State T O) (t : T) (aborted : Bool) (task : Task) (todo : List Task) :
    State T O :=
  match task with
  | .wbDequeue index => (wbDequeue s t index).setPc t (.cleanup aborted todo)
  | .timerUninstall =>
    if (s.timers t).state = .queued then s.setPc t (.cleanup aborted (.timerRemove :: todo))
    else s.setPc t (.cleanup aborted todo)
  | .timerRemove =>
    if (s.timers t).installed ∧ (s.timers t).state = .queued then
      (s.modifyTimer t (fun _ => ⟨.canceled, false⟩)).setPc t (.cleanup aborted todo)
    else
      -- another cpu got to the timer first
      s.setPc t (.cleanup aborted todo)

/-- Consume the signal of the `i`-th object, or queue the block for it. -/
def enqueueOne (s : State T O) (t : T) (i : ℕ) (o : O) : State T O :=
  let th := s.threads t
  if (s.kobj (.obj o)).isObjSignaled then
    (s.modifyKobj (.obj o) Kobj.objMaybeAcquire).modifyThread t (fun th => { th with
      grants := th.grants ++ [(.obj o, th.blockStatus (some i))], pc := .found i })
  else
    (s.modifyKobj (.obj o) (fun obj => { obj with
      objWaitList := obj.objWaitList ++ [⟨t, some i⟩], objWaitCount := obj.objWaitCount + 1 })).setPc
        t (if i + 1 < th.objects.length then .enqueue (i + 1)
          else if th.hasTimeout then .arming else .committing)

/-- The next step of a running thread; `none` when it is outside of a wait. -/
def runPc (s : State T O) (t : T) : Option (State T O) :=
  let th := s.threads t
  match th.pc with
  | .outside => none
  | .setup =>
    some (s.modifyThread t (fun th => { th with
      waitPhase := .inProgress
      dequeued := Function.update th.dequeued none false
      unwaited := Function.update th.unwaited none false
      pc := .enqueue 0 }))
  | .enqueue i =>
    match th.objects[i]? with
    | none => none
    | some o => some (enqueueOne s t i o)
  | .found i =>
    some (s.modifyThread t (fun th => { th with
      waitPhase := .none, pc := .returning (th.blockStatus (some i)) }))
  | .arming => some ((setTimeout s t).setPc t .committing)
  | .committing =>
    if th.waitPhase = .aborted then some (s.setPc t (.cleanup true th.abortTasks))
    else some (s.modifyThread t (fun th => { th with
      waitPhase := .comitted, status := .waiting, pc := .waiting }))
  | .waiting => some (s.setPc t (.cleanup false th.wakeTasks))
  | .cleanup aborted (task :: todo) => some (runTask s t aborted task todo)
  | .cleanup true [] =>
    some (s.modifyThread t (fun th => { th with
      waitPhase := .none, pc := .returning th.waitStatus }))
  | .cleanup false [] => some (s.setPc t (.returning th.waitStatus))
  | .returning status =>
    let s := match th.named status with
      | some o => s.countTaken o
      | none => s
    some (s.modifyThread t (fun th => { th with grants := [], pc := .outside }))

/-! ## The system -/

/-- The two kinds of waits, a thread running on, a resumed thread getting a processor, the
signals, the expiry of a timer object, and the timeout of a thread. -/
inductive Event (T O : Type*) where
  | schedWait (t : T) (object : O) (hasTimeout : Bool)
  | schedWaitMany (t : T) (objects : List O) (hasTimeout : Bool)
  | run (t : T)
  | dispatch (t : T)
  | semaphoreSignal (o : O)
  | eventAlarm (o : O) (wakeAll : Bool)
  | timerExpiry (o : O)
  | timerUpdate (t : T)

/-- Enter a wait: fill in the wait blocks. -/
def State.call (s : State T O) (t : T) (objects : List O) (many hasTimeout : Bool) :
    Option (State T O) :=
  if (s.threads t).pc = .outside ∧ (s.threads t).status = .running ∧ objects ≠ [] then
    some (s.modifyThread t (fun th => { th with
      objects := objects
      many := many
      hasTimeout := hasTimeout
      dequeued := fun index => match index with
        | none => th.dequeued none
        | some i => if i < objects.length then false else th.dequeued (some i)
      unwaited := fun index => match index with
        | none => th.unwaited none
        | some i => if i < objects.length then false else th.unwaited (some i)
      pc := .setup }))
  else none

/-- The effect of an event; `none` when it cannot happen. -/
def stepEvent (kinds : O → Kind) (s : State T O) : Event T O → Option (State T O)
  | .schedWait t object hasTimeout => s.call t [object] false hasTimeout
  | .schedWaitMany t objects hasTimeout => s.call t objects true hasTimeout
  | .run t => if (s.threads t).status = .running then runPc s t else none
  | .dispatch t =>
    if (s.threads t).status = .ready then
      some (s.modifyThread t (fun th => { th with status := .running }))
    else none
  | .semaphoreSignal o => if kinds o = .semaphore then some (semaphoreSignal s o) else none
  | .eventAlarm o wakeAll => if (kinds o).isEvent then some (eventAlarm s o wakeAll) else none
  | .timerExpiry o => if kinds o = .timer then some (timerSignal s (.obj o)) else none
  | .timerUpdate t =>
    if (s.timers t).state = .queued ∧ ¬ (s.threads t).pc.pinned then some (timerUpdate s t)
    else none

/-- One step; after a failed assertion there is none. -/
def step (kinds : O → Kind) (s : State T O) (ev : Event T O) : Option (State T O) :=
  if s.panicked then none else stepEvent kinds s ev

omit [DecidableEq T] [DecidableEq O] in
/-- Fresh objects with initial counts; all threads outside. -/
def initial (kinds : O → Kind) (counts : O → ℤ) : State T O where
  threads := fun _ => ⟨.outside, .none, .running, .success, [], false, false, fun _ => false,
    fun _ => false, []⟩
  kobj := fun k => match k with
    | .obj o => kobjectInit T (counts o) (kinds o).objType
    | .timer _ => kobjectInit T 0 .objNotif
  timers := fun _ => ⟨.unused, false⟩
  panicked := false
  signals := fun _ => 0
  taken := fun _ => 0

/-- Any number of threads waiting for objects of the given kinds. -/
def system (T : Type*) [DecidableEq T] {O : Type*} [DecidableEq O] (kinds : O → Kind)
    (counts : O → ℤ) : TransitionSystem (State T O) (Event T O) where
  init := fun s => s = initial kinds counts
  step := step kinds

end Wait
