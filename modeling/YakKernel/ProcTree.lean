/-
# The process tree: fork, exit and waitpid

`kernel/core/process.c`, `kernel/core/thread.c` (`kthread_destroy`), `kernel/core/syscall/fork.c`,
`exec.c` and `waitpid.c`, with the mutex of `kernel/core/mutex.c` and the semaphore of
`kernel/core/semaphore.c`.  A process is its pid, and the fields of `struct kprocess` are maps from
pids.  A process has one thread that runs; the others have exited.  A section under a spinlock is
one step, and so is a section under a mutex that takes no other lock.
-/
import YakKernel.Roster
import YakKernel.TransitionSystem
import Mathlib.Tactic

namespace ProcTree

/-! ## Data -/

inductive ProcState
  | alive
  | zombie
  deriving DecidableEq, Repr

/-- The arguments of `sys_waitpid`: a pid, or `-1` for any child, and the flag `WNOHANG`. -/
structure Request where
  pid : ℤ
  nohang : Bool
  deriving DecidableEq, Repr

/-- The scan does not pass over the child: `pid == -1 || child->pid == pid`. -/
def Request.accepts (req : Request) (child : ℕ) : Bool :=
  req.pid == -1 || (child : ℤ) == req.pid

/-- Where the thread of a process is. -/
inductive Thread
  /-- Outside of the system calls below. -/
  | user
  /-- In `uprocess_init`, before the insertion of the new process. -/
  | forking (child : ℕ)
  /-- In `sys_fork`, before `sched_resume` of the new thread. -/
  | inserted (child : ℕ)
  /-- Before the acquisition of its own `child_list_lock`. -/
  | locking (req : Request)
  /-- In `LIST_FOREACH`, with the children not looked at yet and `found_child`. -/
  | scanning (req : Request) (rest : List ℕ) (found : Bool)
  /-- Before `sched_wait`. -/
  | waitNext (req : Request)
  /-- Blocked in `sched_wait` on its own `wait_semaphore`. -/
  | waiting (req : Request)
  /-- In `reap_zombie`, before the acquisition of the lock of the zombie. -/
  | reaping (zombie : ℕ)
  /-- At the head of the loop of `process_destroy`. -/
  | destroying (zombie : ℕ)
  /-- Between the change of the parent of a child and its insertion into the list of init. -/
  | moving (zombie child : ℕ)
  /-- After the loop of `process_destroy`. -/
  | freeing (zombie : ℕ)
  deriving DecidableEq, Repr

/-- Why the kernel has stopped. -/
inductive Halt
  /-- `assert(mutex->owner != curthread())` -/
  | ownLock
  /-- `assert(mutex->owner == curthread())` -/
  | notOwner
  /-- `panic("attempted to kill init!")` -/
  | killInit
  /-- `panic("try to destroy init or kernel")` -/
  | destroyInit
  /-- `assert(process->state == PROC_ALIVE)` -/
  | notAlive
  /-- `assert(init_process)` -/
  | noInit
  /-- `assert(LIST_EMPTY(&process->child_list))` -/
  | notEmpty
  /-- `assert(proc->thread_count == 1)` -/
  | execThreads
  /-- An access to a process that is not there. -/
  | fault
  deriving DecidableEq, Repr

/-- The processes by their pids, and their threads. -/
structure State where
  /-- The processes in `pid_table`, which are those that are allocated. -/
  pidTable : ℕ → Bool
  state : ℕ → ProcState
  ppid : ℕ → ℕ
  parentProcess : ℕ → Option ℕ
  /-- The owner of the mutex, by the process of the thread. -/
  childListLock : ℕ → Option ℕ
  childList : ℕ → List ℕ
  waitSemaphore : ℕ → ℕ
  threadCount : ℕ → ℕ
  /-- The thread that runs, when it does. -/
  threads : ℕ → Option Thread
  /-- The threads in `reaper_queue`. -/
  exited : ℕ → ℕ
  nextPid : ℕ
  /-- The pids returned by `sys_waitpid`, the last one first. -/
  reaped : List ℕ
  halt : Option Halt

/-- The kernel, and init before it runs. -/
def boot : State where
  pidTable p := p == 0 || p == 1
  state _ := .alive
  ppid _ := 0
  parentProcess p := if p = 1 then some 0 else none
  childListLock _ := none
  childList p := if p = 0 then [1] else []
  waitSemaphore _ := 0
  threadCount p := if p = 1 then 1 else 0
  threads p := if p = 1 then some .user else none
  exited _ := 0
  nextPid := 2
  reaped := []
  halt := none

namespace State

variable (s : State)

def stop (why : Halt) : State := { s with halt := some why }

def setThread (t : ℕ) (thread : Option Thread) : State :=
  { s with threads := Function.update s.threads t thread }

def setChildList (p : ℕ) (children : List ℕ) : State :=
  { s with childList := Function.update s.childList p children }

/-! ## Locks -/

/-- `kmutex_acquire` of the list of `p` by the thread of `t`; it blocks while another thread has
the lock. -/
def acquire (t p : ℕ) (next : State → State) : Option State :=
  match s.childListLock p with
  | none => some (next { s with childListLock := Function.update s.childListLock p (some t) })
  | some owner => if owner = t then some (s.stop .ownLock) else none

/-- `kmutex_release` -/
def release (t p : ℕ) (next : State → State) : State :=
  if s.childListLock p = some t then
    next { s with childListLock := Function.update s.childListLock p none }
  else s.stop .notOwner

/-- `guard(mutex)` around a section with no other step. -/
def guarded (t p : ℕ) (section_ : State → State) : Option State :=
  match s.childListLock p with
  | none => some (section_ s)
  | some owner => if owner = t then some (s.stop .ownLock) else none

/-! ## fork and exec -/

/-- `uprocess_init`, up to the insertion into the list of the parent. -/
def uprocessInit (parent : ℕ) : State :=
  { s with
    pidTable := Function.update s.pidTable s.nextPid true
    state := Function.update s.state s.nextPid .alive
    ppid := Function.update s.ppid s.nextPid parent
    parentProcess := Function.update s.parentProcess s.nextPid (some parent)
    childListLock := Function.update s.childListLock s.nextPid none
    childList := Function.update s.childList s.nextPid []
    waitSemaphore := Function.update s.waitSemaphore s.nextPid 0
    threadCount := Function.update s.threadCount s.nextPid 0
    nextPid := s.nextPid + 1 }

/-- `sys_fork` starts. -/
def fork (t : ℕ) : State := (s.uprocessInit t).setThread t (some (.forking s.nextPid))

/-- `LIST_INSERT_HEAD` of a new process. -/
def insertChild (t child : ℕ) : Option State :=
  s.guarded t t fun s =>
    (s.setChildList t (child :: s.childList t)).setThread t (some (.inserted child))

/-- The rest of `sys_fork`: the new process has a thread, and it runs. -/
def resumeChild (t child : ℕ) : State :=
  ({ s with threadCount := Function.update s.threadCount child (s.threadCount child + 1) }.setThread
    child (some .user)).setThread t (some .user)

/-- `sys_execve`: a new thread, and the old one exits. -/
def exec (t : ℕ) : State :=
  if s.threadCount t ≠ 1 then s.stop .execThreads
  else { s with
    threadCount := Function.update s.threadCount t (s.threadCount t + 1)
    exited := Function.update s.exited t (s.exited t + 1) }

/-! ## Exit -/

/-- `sched_exit_self` -/
def exit (t : ℕ) : State :=
  { s with exited := Function.update s.exited t (s.exited t + 1) }.setThread t none

/-- `semaphore_signal` of a `wait_semaphore`: it wakes the thread that is blocked, or counts. -/
def semaphoreSignal (p : ℕ) : State :=
  match s.threads p with
  | some (.waiting req) => s.setThread p (some (.locking req))
  | _ => { s with waitSemaphore := Function.update s.waitSemaphore p (s.waitSemaphore p + 1) }

/-- The last thread of `p` is gone. -/
def becomeZombie (p : ℕ) : State :=
  if p = 1 then s.stop .killInit
  else if s.state p ≠ .alive then s.stop .notAlive
  else
    match s.parentProcess p with
    | none => s.stop .fault
    | some parent =>
      if s.pidTable parent = false then s.stop .fault
      else { s with state := Function.update s.state p .zombie }.semaphoreSignal parent

/-- A thread less in a process. -/
def dropThread (p : ℕ) : State :=
  { s with
    exited := Function.update s.exited p (s.exited p - 1)
    threadCount := Function.update s.threadCount p (s.threadCount p - 1) }

/-- `kthread_destroy` of a thread of `p`. -/
def kthreadDestroy (p : ℕ) : State :=
  if (s.dropThread p).threadCount p = 0 then (s.dropThread p).becomeZombie p else s.dropThread p

/-! ## waitpid -/

/-- `sys_waitpid` starts. -/
def waitpid (t : ℕ) (req : Request) : State :=
  if req.pid < -1 ∨ req.pid = 0 then s
  else s.setThread t (some (.locking req))

/-- One round of `LIST_FOREACH`. -/
def lookAt (t child : ℕ) (req : Request) (rest : List ℕ) (found : Bool) : State :=
  if s.pidTable child = false then s.stop .fault
  else if req.accepts child = false then s.setThread t (some (.scanning req rest found))
  else if s.state child = .zombie then
    (s.setChildList t ((s.childList t).erase child)).setThread t (some (.reaping child))
  else s.setThread t (some (.scanning req rest true))

/-- After `LIST_FOREACH`. -/
def endScan (t : ℕ) (req : Request) (found : Bool) : State :=
  s.release t t fun s =>
    if found = false ∨ req.nohang = true then s.setThread t (some .user)
    else s.setThread t (some (.waitNext req))

/-- `sched_wait(&proc->wait_semaphore, ..)` -/
def schedWait (t : ℕ) (req : Request) : State :=
  if s.waitSemaphore t = 0 then s.setThread t (some (.waiting req))
  else { s with waitSemaphore := Function.update s.waitSemaphore t (s.waitSemaphore t - 1) }.setThread
    t (some (.locking req))

/-- `process_destroy`, up to its loop. -/
def lockZombie (t z : ℕ) : Option State :=
  if z = 0 ∨ z = 1 then some (s.stop .destroyInit)
  else if s.pidTable 1 = false then some (s.stop .noInit)
  else s.acquire t z fun s => s.setThread t (some (.destroying z))

/-- The loop of `process_destroy` takes the first child, and makes it a child of init. -/
def takeChild (t z child : ℕ) (rest : List ℕ) : State :=
  { s.setChildList z rest with
    ppid := Function.update s.ppid child 1
    parentProcess := Function.update s.parentProcess child (some 1) }.setThread
    t (some (.moving z child))

/-- The loop of `process_destroy` puts a child on the list of init. -/
def giveToInit (t z child : ℕ) : Option State :=
  s.guarded t 1 fun s =>
    (s.setChildList 1 (child :: s.childList 1)).setThread t (some (.destroying z))

/-- The head of the loop of `process_destroy`. -/
def destroyChild (t z : ℕ) : State :=
  match s.childList z with
  | child :: rest => s.takeChild t z child rest
  | [] => s.release t z fun s => s.setThread t (some (.freeing z))

/-- The rest of `process_destroy`, `kfree` and the return of `sys_waitpid`. -/
def free (t z : ℕ) : State :=
  if s.childList z ≠ [] then s.stop .notEmpty
  else { s with
    pidTable := Function.update s.pidTable z false
    reaped := z :: s.reaped }.release t t fun s => s.setThread t (some .user)

/-! ## Steps -/

/-- The next step of a thread inside of a system call. -/
def advance (t : ℕ) : Thread → Option State
  | .user => none
  | .forking child => s.insertChild t child
  | .inserted child => some (s.resumeChild t child)
  | .locking req => s.acquire t t fun s =>
      s.setThread t (some (.scanning req (s.childList t) false))
  | .scanning req (child :: rest) found => some (s.lookAt t child req rest found)
  | .scanning req [] found => some (s.endScan t req found)
  | .waitNext req => some (s.schedWait t req)
  | .waiting _ => none
  | .reaping z => s.lockZombie t z
  | .destroying z => some (s.destroyChild t z)
  | .moving z child => s.giveToInit t z child
  | .freeing z => some (s.free t z)

end State

/-- What can happen next. -/
inductive Event
  /-- The thread calls `fork`. -/
  | fork (t : ℕ)
  | exec (t : ℕ)
  | exit (t : ℕ)
  | waitpid (t : ℕ) (req : Request)
  /-- The reaper thread destroys a thread of `p`. -/
  | kthreadDestroy (p : ℕ)
  /-- The thread goes on inside of its system call. -/
  | run (t : ℕ)
  deriving DecidableEq, Repr

/-- One step of the kernel. -/
def step (s : State) (e : Event) : Option State :=
  if s.halt.isSome then none
  else
    match e with
    | .fork t => if s.threads t = some .user then some (s.fork t) else none
    | .exec t => if s.threads t = some .user then some (s.exec t) else none
    | .exit t => if s.threads t = some .user then some (s.exit t) else none
    | .waitpid t req => if s.threads t = some .user then some (s.waitpid t req) else none
    | .kthreadDestroy p => if s.exited p = 0 then none else some (s.kthreadDestroy p)
    | .run t => (s.threads t).bind (s.advance t)

/-- The processes from the start of init on. -/
def system : TransitionSystem State Event where
  init s := s = boot
  step := step

end ProcTree
