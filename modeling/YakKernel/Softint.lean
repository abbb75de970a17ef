/-
# Software interrupts and deferred calls

One processor's part of `core/irq/softint.c`, `core/irq/dpc.c`, `arch/x86_64/ipl.c` (with lazy
IPLs), and of `sched_insert` and `sched_preempt` in `core/sched.c`, with interrupts on it and the
other processors that insert threads on it.

What the processor executes is a stack of frames, the running one first; every other thread has
the stack with which it goes on.  A section with interrupts disabled, or under `sched_lock` on this
processor, is one step; another processor stores `next_thread` and sets the pending bit in two.  A
frame of ordinary code (a thread's, an interrupt handler's, the function's of a DPC) may do
anything that such code does: that is an event.  The runqueues, the hardware's own interrupt
priority and the waiting for locks are left out.
-/
import YakKernel.JobLog
import YakKernel.Sched

namespace Softint

/-- `IPL_PASSIVE`. -/
def iplPassive : ℕ := 0

/-- `IPL_DPC`. -/
def iplDpc : ℕ := 2

/-- `IPL_HIGH`. -/
def iplHigh : ℕ := 15

/-- `PENDING`. -/
def pending (ipl : ℕ) : BitVec 64 := 1#64 <<< (ipl - 1)

/-- `struct dpc`. -/
structure Dpc (X : Type*) where
  enqueued : Bool
  context : X

/-- Where `do_dpc_int` is. -/
inductive DpcPc (D X T : Type*) where
  /-- at `softint_ack` -/
  | ack
  /-- at `ripl(IPL_DPC)` -/
  | raise
  /-- at `enable_interrupts` -/
  | enable
  /-- in `dpc_queue_run`, at the head of the loop -/
  | queueRun
  /-- in `dpc_queue_run`, about to call the function of the DPC it has taken -/
  | call (dpc : D) (context : X)
  /-- about to look at `next_thread` -/
  | checkNext
  /-- at the call of `sched_preempt` -/
  | preempt
  /-- in `sched_preempt`, the next thread taken -/
  | preemptInsert (next : T)
  /-- at `disable_interrupts` -/
  | disable

/-- A frame of the stack. -/
inductive Frame (D X T : Type*) where
  /-- a thread's own code -/
  | code
  /-- code between `ripl` and `xipl(old)` -/
  | raised (old : ℕ)
  /-- the handler of an interrupt; `xipl(old)` follows -/
  | handler (old : ℕ)
  /-- interrupts are enabled again: the return from one, or `sti` in `asm_thread_trampoline` -/
  | sti
  /-- `xipl`, at its start and before it looks at `softint_pending` -/
  | xipl (ipl : ℕ)
  | xiplCheck (ipl : ℕ)
  /-- `softint_dispatch`, at its start, at the head of the loop and after its `xipl` -/
  | dispatch (ipl : ℕ)
  | dispatchLoop (ipl : ℕ) (state : Bool)
  | dispatchEnd (state : Bool)
  /-- `do_dpc_int` -/
  | dpcInt (pc : DpcPc D X T)
  /-- the function of a DPC -/
  | func
  /-- at the call of `swtch` -/
  | swtch (next : T)

/-- Ordinary code. -/
def Frame.free {D X T : Type*} : Frame D X T → Bool
  | .code | .raised _ | .handler _ | .func => true
  | _ => false

/-- The code of a thread, with no interrupt and no DPC in between. -/
def Frame.threadCode {D X T : Type*} : Frame D X T → Bool
  | .code | .raised _ => true
  | _ => false

/-- The processor.  `saved` are the stacks of the other threads, `inserting` is the other processor
that has stored `next_thread` and is about to set the pending bit, `log` tells what happened to the
DPCs. -/
structure State (D X T R : Type*) where
  softintPending : BitVec 64
  softIpl : ℕ
  interrupts : Bool
  dpcs : D → Dpc X
  dpcQueue : List D
  currentThread : T
  nextThread : Option T
  status : T → Sched.ThreadState
  stack : List (Frame D X T)
  saved : T → List (Frame D X T)
  inserting : Option R
  log : List (JobLog.Action D X)

variable {D X T R : Type*} [DecidableEq D] [DecidableEq T] [DecidableEq R]

/-! ## Deferred calls -/

/-- `softint_issue(IPL_DPC)`. -/
def State.softintIssue (s : State D X T R) : State D X T R :=
  { s with softintPending := s.softintPending ||| pending iplDpc }

/-- `dpc_enqueue`. -/
def dpcEnqueue (s : State D X T R) (dpc : D) (context : X) : State D X T R :=
  if (s.dpcs dpc).enqueued then { s with log := .refused dpc context :: s.log }
  else
    { s with
      dpcs := Function.update s.dpcs dpc ⟨true, context⟩
      dpcQueue := dpc :: s.dpcQueue
      softintPending := s.softintPending ||| pending iplDpc
      log := .put dpc context :: s.log }

/-- `dpc_dequeue`. -/
def dpcDequeue (s : State D X T R) (dpc : D) : State D X T R :=
  if (s.dpcs dpc).enqueued then
    { s with
      dpcs := Function.update s.dpcs dpc ⟨false, (s.dpcs dpc).context⟩
      dpcQueue := s.dpcQueue.erase dpc
      log := .cancel dpc (s.dpcs dpc).context :: s.log }
  else s

/-! ## The scheduler -/

/-- One round of the loop of `sched_insert`: the state, the thread that the next round inserts, and
whether the softint is issued. -/
def insertRound (idle : T) (priority : T → ℕ) (s : State D X T R) (thread : T) :
    State D X T R × Option T × Bool :=
  let s := { s with status := Function.update s.status thread .ready }
  let comp := s.nextThread.getD s.currentThread
  if Sched.prioRealTime ≤ priority thread ∧ priority thread ≤ priority comp then (s, none, false)
  else if priority thread < Sched.prioRealTime ∧ comp ≠ idle then (s, none, false)
  else
    ({ s with status := Function.update s.status thread .next, nextThread := some thread },
      s.nextThread, s.nextThread.isNone)

/-- `sched_insert`, for at most `fuel` rounds, and whether the softint is issued. -/
def schedInsert (idle : T) (priority : T → ℕ) :
    ℕ → State D X T R → T → Option (State D X T R × Bool)
  | 0, _, _ => none
  | fuel + 1, s, thread =>
    match insertRound idle priority s thread with
    | (s, some next, _) => schedInsert idle priority fuel s next
    | (s, none, issue) => some (s, issue)

/-- `sched_insert` on this processor. -/
def schedInsertHere (idle : T) (priority : T → ℕ) (s : State D X T R) (thread : T) :
    Option (State D X T R) :=
  (schedInsert idle priority 2 s thread).map
    (fun r => if r.2 then r.1.softintIssue else r.1)

/-- `swtch`: the stack below is that of the current thread. -/
def swtch (s : State D X T R) (thread : T) (rest : List (Frame D X T)) :
    Option (State D X T R) :=
  if s.softIpl = iplDpc ∧ s.currentThread ≠ thread then
    some { s with
      saved := Function.update s.saved s.currentThread rest
      stack := s.saved thread
      currentThread := thread
      status := Function.update s.status thread .running }
  else none

/-! ## Software interrupts -/

/-- `softint_handlers`; there is none but `do_dpc_int`. -/
def softintHandler (index : ℕ) : Option (Frame D X T) :=
  if index = 1 then some (.dpcInt .ack) else none

/-- The next step of `do_dpc_int`, which the rest of the stack called. -/
def runDpcInt (idle : T) (priority : T → ℕ) (s : State D X T R) (rest : List (Frame D X T)) :
    DpcPc D X T → Option (State D X T R)
  | .ack =>
    some { s with
      softintPending := s.softintPending &&& ~~~pending iplDpc
      stack := .dpcInt .raise :: rest }
  | .raise => some { s with softIpl := iplDpc, stack := .dpcInt .enable :: rest }
  | .enable => some { s with interrupts := true, stack := .dpcInt .queueRun :: rest }
  | .queueRun =>
    match s.dpcQueue with
    | [] => some { s with stack := .dpcInt .checkNext :: rest }
    | dpc :: queue =>
      let context := (s.dpcs dpc).context
      some { s with
        dpcs := Function.update s.dpcs dpc ⟨false, context⟩
        dpcQueue := queue
        log := .take dpc context :: s.log
        stack := .dpcInt (.call dpc context) :: rest }
  | .call dpc context =>
    some { s with
      log := .run dpc context :: s.log
      stack := .func :: .dpcInt .queueRun :: rest }
  | .checkNext =>
    match s.nextThread with
    | none => some { s with stack := .dpcInt .disable :: rest }
    | some _ => some { s with stack := .dpcInt .preempt :: rest }
  | .preempt =>
    -- another processor that inserts a thread holds sched_lock
    if s.inserting ≠ none then none
    else match s.nextThread with
    | none => some { s with stack := .dpcInt .disable :: rest }
    | some next =>
      some { s with
        nextThread := none
        status := Function.update s.status next .switching
        stack := .dpcInt (.preemptInsert next) :: rest }
  | .preemptInsert next =>
    if s.currentThread = idle then
      some { s with
        status := Function.update s.status s.currentThread .ready
        stack := .swtch next :: .dpcInt .disable :: rest }
    else if s.inserting ≠ none then none
    else (schedInsertHere idle priority s s.currentThread).map
      (fun s => { s with stack := .swtch next :: .dpcInt .disable :: rest })
  | .disable => some { s with interrupts := false, stack := rest }

/-- The next step of the processor; `none` when ordinary code runs. -/
def run (idle : T) (priority : T → ℕ) (s : State D X T R) : Option (State D X T R) :=
  match s.stack with
  | .sti :: rest => some { s with interrupts := true, stack := rest }
  | .xipl ipl :: rest => some { s with softIpl := ipl, stack := .xiplCheck ipl :: rest }
  | .xiplCheck ipl :: rest =>
    if s.softintPending >>> ipl ≠ 0 then some { s with stack := .dispatch ipl :: rest }
    else some { s with stack := rest }
  | .dispatch ipl :: rest =>
    some { s with interrupts := false, stack := .dispatchLoop ipl s.interrupts :: rest }
  | .dispatchLoop ipl state :: rest =>
    if s.softintPending &&& (0xFFFF#64 <<< ipl) ≠ 0 then
      (softintHandler (Nat.log2 (s.softintPending.setWidth 32).toNat)).map
        (fun frame => { s with stack := frame :: .dispatchLoop ipl state :: rest })
    else some { s with stack := .xipl ipl :: .dispatchEnd state :: rest }
  | .dispatchEnd state :: rest =>
    some { s with interrupts := s.interrupts || state, stack := rest }
  | .dpcInt pc :: rest => runDpcInt idle priority s rest pc
  | .swtch next :: rest => swtch s next rest
  | _ => none

/-! ## The system -/

/-- What can happen: the processor goes on; ordinary code raises the IPL and lowers it again;
an interrupt comes, or its handler returns; the function of a DPC returns; a DPC is enqueued or
dequeued; a thread is inserted, here or by another processor; the current thread waits. -/
inductive Event (D X T R : Type*) where
  | run
  | ripl (ipl : ℕ)
  | xipl
  | interrupt (ipl : ℕ)
  | handlerReturn
  | dpcReturn
  | dpcEnqueue (dpc : D) (context : X)
  | dpcDequeue (dpc : D)
  | schedInsert (thread : T)
  | schedInsertOther (cpu : R) (thread : T)
  | softintIssueOther (cpu : R)
  | doWait (selected : Option T)

/-- The processor executes ordinary code. -/
def State.Free (s : State D X T R) : Prop := ∃ frame ∈ s.stack.head?, frame.free = true

instance (s : State D X T R) : Decidable s.Free :=
  inferInstanceAs (Decidable (∃ frame ∈ s.stack.head?, frame.free = true))

/-- A thread that waits or is new may be inserted. -/
def State.MayInsert (s : State D X T R) (thread : T) : Prop :=
  s.status thread = .waiting ∨ s.status thread = .undefined

instance (s : State D X T R) (thread : T) : Decidable (s.MayInsert thread) :=
  inferInstanceAs (Decidable (_ ∨ _))

/-- The effect of an event; `none` when it cannot happen. -/
def step (idle : T) (priority : T → ℕ) (s : State D X T R) :
    Event D X T R → Option (State D X T R)
  | .run => run idle priority s
  | .ripl ipl =>
    -- every caller raises to IPL_DPC or above
    if s.Free ∧ iplDpc ≤ ipl ∧ ipl ≤ iplHigh then
      some { s with softIpl := ipl, stack := .raised s.softIpl :: s.stack }
    else none
  | .xipl =>
    match s.stack with
    | .raised old :: rest => some { s with stack := .xipl old :: rest }
    | _ => none
  | .interrupt ipl =>
    -- the vectors of the interrupts start above IPL_DPC
    if s.interrupts ∧ s.softIpl < ipl ∧ iplDpc < ipl ∧ ipl ≤ iplHigh then
      some { s with softIpl := ipl, stack := .handler s.softIpl :: s.stack }
    else none
  | .handlerReturn =>
    match s.stack with
    | .handler old :: rest =>
      some { s with interrupts := false, stack := .xipl old :: .sti :: rest }
    | _ => none
  | .dpcReturn =>
    match s.stack with
    | .func :: rest => some { s with stack := rest }
    | _ => none
  | .dpcEnqueue dpc context => if s.Free then some (dpcEnqueue s dpc context) else none
  | .dpcDequeue dpc => if s.Free then some (dpcDequeue s dpc) else none
  | .schedInsert thread =>
    -- sched_lock is taken at IPL_DPC or above
    if s.Free ∧ iplDpc ≤ s.softIpl ∧ s.inserting = none ∧ s.MayInsert thread then
      schedInsertHere idle priority s thread
    else none
  | .schedInsertOther cpu thread =>
    if s.inserting = none ∧ s.MayInsert thread then
      (schedInsert idle priority 2 s thread).map
        (fun r => if r.2 then { r.1 with inserting := some cpu } else r.1)
    else none
  | .softintIssueOther cpu =>
    if s.inserting = some cpu then some { s.softintIssue with inserting := none } else none
  | .doWait selected =>
    if (∀ frame ∈ s.stack, frame.threadCode = true) ∧ s.softIpl = iplDpc ∧
        s.currentThread ≠ idle ∧ s.inserting = none ∧
        (∀ thread ∈ selected, s.status thread = .ready ∧ thread ≠ idle) then
      -- the next thread, or what select_next chose, or the idle thread
      let next := (s.nextThread.or selected).getD idle
      some { s with
        nextThread := none
        status := Function.update (Function.update s.status s.currentThread .waiting) next
          .switching
        stack := .swtch next :: s.stack }
    else none

/-- The processor runs its idle thread; the other threads are new and start in
`asm_thread_trampoline`. -/
def initial [Inhabited X] (idle : T) : State D X T R where
  softintPending := 0
  softIpl := iplPassive
  interrupts := true
  dpcs := fun _ => ⟨false, default⟩
  dpcQueue := []
  currentThread := idle
  nextThread := none
  status := fun thread => if thread = idle then .running else .undefined
  stack := [.code]
  saved := fun _ => [.xipl iplPassive, .sti, .code]
  inserting := none
  log := []

/-- The processor, with the priorities of its threads. -/
def system (D X T R : Type*) [DecidableEq D] [DecidableEq T] [DecidableEq R] [Inhabited X]
    (idle : T) (priority : T → ℕ) : TransitionSystem (State D X T R) (Event D X T R) where
  init := fun s => s = initial idle
  step := step idle priority

end Softint
