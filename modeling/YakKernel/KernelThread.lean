/-
# Kernel threads

`kthread_init` of `kernel/core/sched.c`, `kthread_context_init` of `kernel/arch/x86_64/sched.c`, and
`kernel_thread_create` and `kernel_thread_init` of `kernel/core/thread.c`.  What the allocators
return is given.  A thread joins the list of its process before it has a stack, and when there is no
stack, both the inner and the outer function free it.
-/
import YakKernel.Status

namespace KernelThread

open Function

/-! ## Threads -/

/-- `KTHREAD_MAX_NAME_LEN` -/
def maxNameLen : ℕ := 32

/-- `KSTACK_SIZE` -/
def kstackSize : ℕ := 4096 * 16

/-- The process id of `kproc0`. -/
def kproc0 : ℕ := 0

/-- What `kthread_context_init` leaves in `struct md_pcb`. -/
structure Pcb where
  rsp : ℕ
  r12 : ℕ
  r13 : ℕ
  r14 : ℕ
  /-- For user threads. -/
  fpState : Option ℕ
  deriving DecidableEq

/-- `struct kthread`, as far as its creation goes. -/
structure Kthread where
  pcb : Option Pcb
  name : List UInt8
  kstackTop : Option ℕ
  userThread : Bool
  priority : ℕ
  /-- `THREAD_UNDEFINED`: off-list, freshly created. -/
  undefined : Bool
  vmCtx : Option ℕ
  ownerProcess : ℕ
  deriving DecidableEq

/-- Threads and processes.  A ghost log has the calls of `kfree` and `vm_kfree`, the last one
first, and one the calls of `sched_resume`. -/
structure Kernel where
  /-- The thread structures, by address. -/
  thread : ℕ → Kthread
  /-- `thread_list` of a process. -/
  threadList : ℕ → List ℕ
  /-- `thread_count` of a process. -/
  threadCount : ℕ → BitVec 64
  kfreed : List ℕ
  vmKfreed : List ℕ
  resumed : List ℕ

namespace Kernel

variable (k : Kernel)

def kfree (ptr : ℕ) : Kernel := { k with kfreed := ptr :: k.kfreed }

def vmKfree (ptr : ℕ) : Kernel := { k with vmKfreed := ptr :: k.vmKfreed }

def setThread (thread : ℕ) (th : Kthread) : Kernel :=
  { k with thread := update k.thread thread th }

end Kernel

/-- The part of a name that is kept. -/
def keptName (name : List UInt8) : List UInt8 :=
  name.take (if name.length > maxNameLen then maxNameLen - 1 else name.length)

/-- `kthread_init` -/
def kthreadInit (k : Kernel) (thread : ℕ) (name : List UInt8) (initialPriority process : ℕ)
    (userThread : Bool) : Kernel :=
  { k.setThread thread
      { pcb := none
        name := keptName name
        kstackTop := none
        userThread := userThread
        priority := initialPriority
        undefined := true
        vmCtx := none
        ownerProcess := process } with
    threadCount := update k.threadCount process (k.threadCount process + 1)
    threadList := update k.threadList process (thread :: k.threadList process) }

/-- `kthread_context_init`; `fpState` is what `fpu_alloc` returns. -/
def kthreadContextInit (k : Kernel) (thread kstackTop entrypoint context1 context2 : ℕ)
    (fpState : Option ℕ) : Kernel :=
  k.setThread thread { k.thread thread with
    kstackTop := some kstackTop
    pcb := some {
      rsp := kstackTop - 16
      r12 := entrypoint
      r13 := context1
      r14 := context2
      fpState := if (k.thread thread).userThread then fpState else none } }

/-- `sched_resume`: the thread is ready to run. -/
def schedResume (k : Kernel) (thread : ℕ) : Kernel :=
  { k.setThread thread { k.thread thread with undefined := false } with
    resumed := thread :: k.resumed }

/-! ## Creation -/

/-- The arguments of `kernel_thread_create`, but for `out`. -/
structure Request where
  name : List UInt8
  priority : ℕ
  entry : ℕ
  context : ℕ
  instantLaunch : Bool

/-- `kernel_thread_init`; `stack` is what `vm_kalloc` returns. -/
def kernelThreadInit (k : Kernel) (thread : ℕ) (r : Request) (stack : Option ℕ) :
    Status × Kernel :=
  let k := kthreadInit k thread r.name r.priority kproc0 false
  match stack with
  | none => (.oom, k.kfree thread)
  | some stackAddr =>
    let stackTop := stackAddr + kstackSize
    let k := kthreadContextInit k thread stackTop r.entry r.context 0 none
    (.success, if r.instantLaunch then schedResume k thread else k)

/-- `kernel_thread_create`; `thread` is what `kmalloc` returns.  The second component is `*out`, if
it is stored. -/
def kernelThreadCreate (k : Kernel) (r : Request) (thread stack : Option ℕ) :
    Status × Option ℕ × Kernel :=
  match thread with
  | none => (.oom, none, k)
  | some thread =>
    let (rv, k) := kernelThreadInit k thread r stack
    if rv.isErr then (rv, none, k.kfree thread) else (.success, some thread, k)

/-- **The claim of a caller**: a call that returns an error leaves the process as it was, and has
freed the thread, if it had one, exactly once. -/
def FailsCleanly (k : Kernel) (r : Request) (thread stack : Option ℕ) : Prop :=
  (kernelThreadCreate k r thread stack).1.isErr →
    let k' := (kernelThreadCreate k r thread stack).2.2
    k'.threadList = k.threadList ∧ k'.threadCount = k.threadCount ∧
      k'.kfreed = thread.toList ++ k.kfreed

/-! ## What the calls do -/

variable {k : Kernel} {r : Request}

theorem kthreadInit_threadList (k : Kernel) (thread : ℕ) (name : List UInt8)
    (priority process : ℕ) (userThread : Bool) :
    (kthreadInit k thread name priority process userThread).threadList process =
      thread :: k.threadList process := update_self ..

/-- With memory and a stack, the thread is in the list, and will start with its entry. -/
theorem kernelThreadCreate_granted (k : Kernel) (r : Request) (thread stack : ℕ) :
    ∃ k', kernelThreadCreate k r (some thread) (some stack) = (.success, some thread, k') ∧
      k'.threadList kproc0 = thread :: k.threadList kproc0 ∧ k'.kfreed = k.kfreed ∧
      (k'.thread thread).pcb.map Pcb.r12 = some r.entry ∧
      (k'.thread thread).kstackTop = some (stack + kstackSize) := by
  refine ⟨_, rfl, ?_⟩
  cases r.instantLaunch with
  | true => simp [kthreadContextInit, kthreadInit, schedResume, Kernel.setThread]
  | false => simp [kthreadContextInit, kthreadInit, Kernel.setThread]

/-- **A failure is clean** exactly when it is not the stack that is missing. -/
theorem create_failsCleanly_iff (k : Kernel) (r : Request) (thread stack : Option ℕ) :
    FailsCleanly k r thread stack ↔ ¬ (thread ≠ none ∧ stack = none) := by
  cases thread with
  | none => exact iff_of_true (fun _ => ⟨rfl, rfl, rfl⟩) (fun h => h.1 rfl)
  | some thread =>
    cases stack with
    | none =>
      refine iff_of_false (fun h => ?_) (fun h => h ⟨Option.some_ne_none thread, rfl⟩)
      obtain ⟨hlist, -, -⟩ := h rfl
      have hhead := kthreadInit_threadList k thread r.name r.priority kproc0 false
      have hsame := (congrFun hlist kproc0).symm.trans hhead
      exact List.cons_ne_self _ _ hsame.symm
    | some stack =>
      obtain ⟨k', hcreate, -⟩ := kernelThreadCreate_granted k r thread stack
      refine iff_of_true (fun herr => ?_) (fun h => absurd h.2 (Option.some_ne_none stack))
      rw [hcreate] at herr
      exact absurd herr Bool.false_ne_true

/-- A kernel with one thread. -/
def oneThread : Kernel where
  thread _ := ⟨none, [], none, false, 0, true, none, 0⟩
  threadList _ := [1]
  threadCount _ := 1
  kfreed := []
  vmKfreed := []
  resumed := []

/-- **Counterexample.**  The thread at 2 gets no stack: it is freed twice, and stays in the list. -/
theorem not_failsCleanly :
    (kernelThreadCreate oneThread ⟨[], 0, 0, 0, true⟩ (some 2) none).1 = .oom ∧
      (kernelThreadCreate oneThread ⟨[], 0, 0, 0, true⟩ (some 2) none).2.2.threadList kproc0 =
        [2, 1] ∧
      (kernelThreadCreate oneThread ⟨[], 0, 0, 0, true⟩ (some 2) none).2.2.kfreed = [2, 2] ∧
      ¬ FailsCleanly oneThread ⟨[], 0, 0, 0, true⟩ (some 2) none := by
  refine ⟨rfl, rfl, rfl, fun h => ?_⟩
  obtain ⟨-, -, hfreed⟩ := h rfl
  exact absurd hfreed (by decide)

end KernelThread
