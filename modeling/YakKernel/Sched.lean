/-
# The scheduler

`core/sched.c` and what switches address spaces around it (`vm/map.c`, `core/launch.c`,
`core/syscall/exec.c`).  Any number of processors and threads; a section under
`sched_lock` is one step, and so is every other access that another processor can see.

A processor is in one place of the code, `Pc`; `runPc` takes it on.  Resuming a thread is
not tied to a processor: it may happen anywhere while the thread's lock is free.
Statistics, stacks and the interrupt that makes a processor call `sched_preempt` are left
out: `sched_preempt` may be called whenever the processor is in a thread's own code.
-/
import Mathlib.Data.BitVec
import YakKernel.TransitionSystem

namespace Sched

/-! ## Threads and processors -/

/-- `enum thread_state`. -/
inductive ThreadState where
  | ready
  | running
  | next
  | switching
  | terminating
  | waiting
  | undefined
  deriving DecidableEq

/-- `SCHED_PRIO_TIME_SHARE`. -/
def prioTimeShare : ℕ := 1

/-- `SCHED_PRIO_REAL_TIME`. -/
def prioRealTime : ℕ := 17

/-- `SCHED_PRIO_MAX`. -/
def prioMax : ℕ := 32

/-- The priorities that threads are made with. -/
abbrev Priority := { n : ℕ // n ≤ prioMax }

/-- A `struct kthread *`: the idle thread of a processor, or any other thread. -/
inductive Tid (C T : Type*) where
  | idle (c : C)
  | thread (t : T)
  deriving DecidableEq

/-- `kmap()`, and the map of the kernel's own process. -/
def kmap : ℕ := 0

/-- `kproc0`. -/
def kproc0 : ℕ := 0

/-- `struct kthread`.  Maps and processes are addresses; `origMap` is the local variable of
that name in `launch_elf`. -/
structure Kthread (C : Type*) where
  threadLocked : Bool
  switching : Bool
  userThread : Bool
  priority : Priority
  status : ThreadState
  affinityCpu : Option C
  lastCpu : Option C
  vmCtx : Option ℕ
  ownerProcess : ℕ
  origMap : ℕ

/-- `struct runqueue`. -/
structure Runqueue (C T : Type*) where
  readyMask : BitVec 32
  queues : ℕ → List (Tid C T)

/-- The scheduler's part of `struct cpu`; `currentRq` and `nextRq` point into `rqs`. -/
structure Cpu (C T : Type*) where
  rqs : Bool → Runqueue C T
  currentRq : Bool
  nextRq : Bool
  idleRq : List (Tid C T)
  currentThread : Tid C T
  nextThread : Option (Tid C T)
  currentMap : ℕ

/-- Where a processor is in the code of the scheduler. -/
inductive Pc (C T : Type*) where
  /-- in the code of its current thread -/
  | running
  /-- `sched_preempt`, the next thread taken -/
  | preemptTaken (next : Tid C T)
  /-- `sched_preempt`, the lock of the current thread held -/
  | preemptLocked (next : Tid C T)
  /-- at the call of `sched_yield(current, cpu)` -/
  | yielding (cpu : C)
  /-- `sched_yield`, the next thread chosen, if any -/
  | yieldTaken (next : Option (Tid C T))
  /-- at the call of `swtch` -/
  | swtching (next : Tid C T)
  /-- `sched_finalize_swtch`, at each of its three accesses -/
  | switched (current next : Tid C T)
  | unlocking (current next : Tid C T)
  | finalizing (next : Tid C T)

/-- How far somebody is with resuming a thread. -/
inductive Resume (C : Type*) where
  | idle
  /-- holds its `thread_lock`, about to take the `sched_lock` of a processor -/
  | locked (cpu : C)
  | inserted

/-- The threads, the processors, who is being resumed, the map of every process, and
whether an assertion has failed. -/
structure State (C T : Type*) where
  threads : Tid C T → Kthread C
  cpus : C → Cpu C T
  pc : C → Pc C T
  resuming : T → Resume C
  processMap : ℕ → ℕ
  panicked : Bool

variable {C T : Type*} [DecidableEq C] [DecidableEq T]

/-! ## Setters -/

@[simps -fullyApplied]
def State.modifyThread (s : State C T) (t : Tid C T) (f : Kthread C → Kthread C) : State C T :=
  { s with threads := Function.update s.threads t (f (s.threads t)) }

@[simps -fullyApplied]
def State.modifyCpu (s : State C T) (c : C) (f : Cpu C T → Cpu C T) : State C T :=
  { s with cpus := Function.update s.cpus c (f (s.cpus c)) }

@[simps -fullyApplied]
def State.setPc (s : State C T) (c : C) (p : Pc C T) : State C T :=
  { s with pc := Function.update s.pc c p }

@[simps -fullyApplied]
def State.setResuming (s : State C T) (t : T) (r : Resume C) : State C T :=
  { s with resuming := Function.update s.resuming t r }

@[simps -fullyApplied]
def State.setProcessMap (s : State C T) (p m : ℕ) : State C T :=
  { s with processMap := Function.update s.processMap p m }

@[simps -fullyApplied]
def State.panic (s : State C T) : State C T := { s with panicked := true }

/-- A thread's status alone. -/
def State.setStatus (s : State C T) (t : Tid C T) (status : ThreadState) : State C T :=
  s.modifyThread t (fun k => { k with status := status })

/-- `thread->last_cpu = cpu; thread->status = THREAD_READY;` -/
def State.setReady (s : State C T) (c : C) (t : Tid C T) : State C T :=
  s.modifyThread t (fun k => { k with lastCpu := some c, status := .ready })

/-! ## The queues -/

/-- `sched_rq_insert`. -/
def schedRqInsert (rq : Runqueue C T) (thread : Tid C T) (priority : ℕ) : Runqueue C T where
  readyMask := rq.readyMask ||| (1#32 <<< (priority - 1))
  queues := Function.update rq.queues (priority - 1) (rq.queues (priority - 1) ++ [thread])

/-- `sched_rq_insert` into one of the two runqueues of a processor. -/
def Cpu.rqInsert (cpu : Cpu C T) (rq : Bool) (thread : Tid C T) (priority : ℕ) : Cpu C T :=
  { cpu with rqs := Function.update cpu.rqs rq (schedRqInsert (cpu.rqs rq) thread priority) }

/-- One round of the loop of `sched_insert`, and the thread that the next round inserts. -/
def insertRound (s : State C T) (c : C) (thread : Tid C T) : State C T × Option (Tid C T) :=
  let s := s.setReady c thread
  let cpu := s.cpus c
  let priority := (s.threads thread).priority.val
  -- compare with an already selected thread, or else with the running one
  let comp := cpu.nextThread.getD cpu.currentThread
  if prioRealTime ≤ priority ∧ priority ≤ (s.threads comp).priority.val then
    (s.modifyCpu c (fun cpu => cpu.rqInsert cpu.currentRq thread priority), none)
  else if priority < prioRealTime ∧ comp ≠ .idle c then
    if priority = prioTimeShare then
      (s.modifyCpu c (fun cpu => cpu.rqInsert cpu.nextRq thread priority), none)
    else (s.modifyCpu c (fun cpu => { cpu with idleRq := cpu.idleRq ++ [thread] }), none)
  else
    ((s.setStatus thread .next).modifyCpu c (fun cpu => { cpu with nextThread := some thread }),
      cpu.nextThread)

/-- `sched_insert`, for at most `fuel` rounds. -/
def schedInsert : ℕ → State C T → C → Tid C T → Option (State C T)
  | 0, _, _, _ => none
  | fuel + 1, s, c, thread =>
    match insertRound s c thread with
    | (s, none) => some s
    | (s, some next) => schedInsert fuel s c next

/-- The first branch of `select_next`, on one runqueue; `none` when its assertion fails. -/
def selectFrom (cpu : Cpu C T) (i : Bool) (priority : ℕ) :
    Option (Option (Tid C T) × Cpu C T) :=
  let rq := cpu.rqs i
  let nextPriority := Nat.log2 rq.readyMask.toNat
  if nextPriority < priority then some (none, cpu)
  else match rq.queues nextPriority with
  | [] => none
  | thread :: rest =>
    let rq : Runqueue C T :=
      { readyMask :=
          -- if runqueue is now empty, update mask
          if rest = [] then rq.readyMask &&& ~~~(1#32 <<< nextPriority) else rq.readyMask
        queues := Function.update rq.queues nextPriority rest }
    some (some thread, { cpu with rqs := Function.update cpu.rqs i rq })

/-- `select_next`. -/
def selectNext (cpu : Cpu C T) (priority : ℕ) : Option (Option (Tid C T) × Cpu C T) :=
  if (cpu.rqs cpu.currentRq).readyMask ≠ 0 then selectFrom cpu cpu.currentRq priority
  else if (cpu.rqs cpu.nextRq).readyMask ≠ 0 then
    -- the runqueues change places; the recursion takes the branch above
    selectFrom { cpu with currentRq := cpu.nextRq, nextRq := cpu.currentRq } cpu.nextRq priority
  else match cpu.idleRq with
  | [] => some (none, cpu)
  | thread :: rest => some (some thread, { cpu with idleRq := rest })

/-- The section of `sched_yield` under `sched_lock`. -/
def takeNext (s : State C T) (c : C) : Option (Option (Tid C T) × State C T) :=
  match (s.cpus c).nextThread with
  | some next =>
    some (some next,
      (s.modifyCpu c (fun cpu => { cpu with nextThread := none })).setStatus next .switching)
  | none =>
    match selectNext (s.cpus c) 0 with
    | none => none
    | some (none, cpu) => some (none, s.modifyCpu c (fun _ => cpu))
    | some (some next, cpu) =>
      some (some next, (s.modifyCpu c (fun _ => cpu)).setStatus next .switching)

/-! ## Switching -/

/-- The map that `swtch` leaves active on a processor. -/
def mapAfterSwtch (s : State C T) (c : C) (current thread : Kthread C) : ℕ :=
  match thread.vmCtx with
  | some m => m
  | none =>
    if thread.userThread ∧ current.ownerProcess ≠ thread.ownerProcess then
      s.processMap thread.ownerProcess
    else (s.cpus c).currentMap

/-- `swtch`, up to the change of stacks. -/
def swtch (s : State C T) (c : C) (current thread : Tid C T) : State C T :=
  if current = thread ∨ ¬ (s.threads current).threadLocked then s.panic
  -- kernel processes can attach themselves to arbitrary map contexts
  else if (s.threads thread).vmCtx ≠ none ∧ (s.threads thread).ownerProcess ≠ kproc0 then
    s.panic
  else
    let map := mapAfterSwtch s c (s.threads current) (s.threads thread)
    ((s.modifyThread current (fun k => { k with affinityCpu := some c })).modifyCpu c
      (fun cpu => { cpu with currentThread := thread, currentMap := map })).setPc c
      (.switched current thread)

/-- The next step of processor `c`; `none` while it runs a thread's code or spins. -/
def runPc (s : State C T) (c : C) : Option (State C T) :=
  let current := (s.cpus c).currentThread
  match s.pc c with
  | .running => none
  | .preemptTaken next =>
    -- wait_for_switch, then the lock of the current thread
    if (s.threads next).switching ∨ (s.threads current).threadLocked then none
    else some ((s.modifyThread current
      (fun k => { k with threadLocked := true, switching := true })).setPc c (.preemptLocked next))
  | .preemptLocked next =>
    if current = .idle c then
      -- the idle thread remains ready
      some ((s.setStatus current .ready).setPc c (.swtching next))
    else (schedInsert 2 s c current).map (fun s => s.setPc c (.swtching next))
  | .yielding cpu =>
    match takeNext s cpu with
    | none => some s.panic
    | some (next, s) => some (s.setPc c (.yieldTaken next))
  | .yieldTaken (some next) =>
    if (s.threads next).switching then none else some (s.setPc c (.swtching next))
  | .yieldTaken none => some (s.setPc c (.swtching (.idle c)))
  | .swtching next => some (swtch s c current next)
  | .switched current next =>
    some ((s.modifyThread current (fun k => { k with switching := false })).setPc c
      (.unlocking current next))
  | .unlocking current next =>
    some ((s.modifyThread current (fun k => { k with threadLocked := false })).setPc c
      (.finalizing next))
  | .finalizing next => some ((s.setStatus next .running).setPc c .running)

/-! ## The system -/

/-- What can happen: a thread is made; it is resumed, in three steps; a processor is told
to preempt, its thread blocks or exits; its thread switches to another address space for a
while, or replaces that of its process; a processor runs on. -/
inductive Event (C T : Type*) where
  | kthreadInit (t : T) (priority : Priority) (userThread : Bool) (ownerProcess : ℕ)
  | schedResume (t : T) (cpu : C)
  | resumeInsert (t : T)
  | resumeUnlock (t : T)
  | schedPreempt (c : C)
  | doWait (c : C)
  | schedExitSelf (c : C)
  | vmMapTmpSwitch (c : C) (map : ℕ)
  | vmMapTmpDisable (c : C)
  | execActivate (c : C) (map : ℕ)
  | run (c : C)

/-- The effect of an event; `none` when it cannot happen. -/
def stepEvent (s : State C T) : Event C T → Option (State C T)
  | .kthreadInit t priority userThread ownerProcess =>
    -- the memory is new, or was given back by the reaper, which waits for the lock
    let k := s.threads (.thread t)
    if (k.status = .undefined ∨ k.status = .terminating) ∧ ¬ k.threadLocked then
      some (s.modifyThread (.thread t) (fun k => { k with
        switching := false, userThread := userThread, priority := priority
        status := .undefined, affinityCpu := none, lastCpu := none, vmCtx := none
        ownerProcess := ownerProcess }))
    else none
  | .schedResume t cpu =>
    -- thread_unwait resumes a thread that is waiting, its maker one that is new
    let k := s.threads (.thread t)
    if (k.status = .waiting ∨ k.status = .undefined) ∧ ¬ k.threadLocked ∧
        k.affinityCpu.getD cpu = cpu then
      some ((s.modifyThread (.thread t) (fun k => { k with threadLocked := true })).setResuming t
        (.locked cpu))
    else none
  | .resumeInsert t =>
    match s.resuming t with
    | .locked cpu => (schedInsert 2 s cpu (.thread t)).map (fun s => s.setResuming t .inserted)
    | _ => none
  | .resumeUnlock t =>
    match s.resuming t with
    | .inserted => some ((s.modifyThread (.thread t)
        (fun k => { k with threadLocked := false })).setResuming t .idle)
    | _ => none
  | .schedPreempt c =>
    match s.pc c, (s.cpus c).nextThread with
    | .running, some next =>
      some (((s.modifyCpu c (fun cpu => { cpu with nextThread := none })).setStatus next
        .switching).setPc c (.preemptTaken next))
    | _, _ => none
  | .doWait c =>
    let current := (s.cpus c).currentThread
    match s.pc c with
    | .running =>
      -- the idle thread must not wait!
      if current = .idle c ∨ (s.threads current).threadLocked then none
      else match (s.threads current).lastCpu with
      | none => some s.panic
      | some lastCpu =>
        some ((s.modifyThread current
          (fun k => { k with threadLocked := true, status := .waiting })).setPc c
            (.yielding lastCpu))
    | _ => none
  | .schedExitSelf c =>
    let current := (s.cpus c).currentThread
    match s.pc c with
    | .running =>
      if current = .idle c ∨ (s.threads current).threadLocked then none
      else some (((s.modifyThread current (fun k => { k with
          vmCtx := some kmap, threadLocked := true, status := .terminating })).modifyCpu c
            (fun cpu => { cpu with currentMap := kmap })).setPc c (.yielding c))
    | _ => none
  | .vmMapTmpSwitch c map =>
    let current := (s.cpus c).currentThread
    match s.pc c with
    | .running =>
      if current = .idle c then none
      else some ((s.modifyThread current (fun k => { k with
          origMap := (s.cpus c).currentMap, vmCtx := some map })).modifyCpu c
            (fun cpu => { cpu with currentMap := map }))
    | _ => none
  | .vmMapTmpDisable c =>
    let current := (s.cpus c).currentThread
    match s.pc c with
    | .running =>
      if current = .idle c ∨ (s.threads current).vmCtx = none then none
      else some ((s.modifyThread current (fun k => { k with vmCtx := none })).modifyCpu c
        (fun cpu => { cpu with currentMap := (s.threads current).origMap }))
    | _ => none
  | .execActivate c map =>
    let current := (s.cpus c).currentThread
    match s.pc c with
    | .running =>
      if current = .idle c ∨ (s.threads current).userThread = false then none
      else some ((s.setProcessMap (s.threads current).ownerProcess map).modifyCpu c
        (fun cpu => { cpu with currentMap := map }))
    | _ => none
  | .run c => runPc s c

/-- One step; after a failed assertion there is none. -/
def step (s : State C T) (ev : Event C T) : Option (State C T) :=
  if s.panicked then none else stepEvent s ev

/-- `kthread_init`. -/
def kthreadInit (priority : Priority) (userThread : Bool) (ownerProcess : ℕ) : Kthread C where
  threadLocked := false
  switching := false
  userThread := userThread
  priority := priority
  status := .undefined
  affinityCpu := none
  lastCpu := none
  vmCtx := none
  ownerProcess := ownerProcess
  origMap := kmap

/-- `cpudata_init`; the processor runs its idle thread on the kernel's map. -/
def cpudataInit (c : C) : Cpu C T where
  rqs := fun _ => ⟨0, fun _ => []⟩
  currentRq := false
  nextRq := true
  idleRq := []
  currentThread := .idle c
  nextThread := none
  currentMap := kmap

/-- All processors are up and run their idle threads; there are no other threads yet. -/
def initial (processMap : ℕ → ℕ) : State C T where
  threads := fun _ => kthreadInit ⟨0, Nat.zero_le _⟩ false kproc0
  cpus := cpudataInit
  pc := fun _ => .running
  resuming := fun _ => .idle
  processMap := processMap
  panicked := false

/-- The scheduler; every process has some map, the kernel's has `kmap`. -/
def system (C T : Type*) [DecidableEq C] [DecidableEq T] :
    TransitionSystem (State C T) (Event C T) where
  init := fun s => ∃ processMap : ℕ → ℕ, processMap kproc0 = kmap ∧ s = initial processMap
  step := step

end Sched
