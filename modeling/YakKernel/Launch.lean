/-
# Launching a program

`launch_elf` of `kernel/core/launch.c`.  What it calls is given by what it returns: the allocators,
`vfs_open`, `elf_load` and `vm_map`.  All failures go through one label, with a status that starts
as success; the new thread joins its process at the end.
-/
import YakKernel.KernelThread
import YakKernel.UserStack

namespace Launch

open ByteMemory KernelThread

/-! ## launch_elf -/

/-- `USER_STACK_LENGTH` -/
def userStackLength : ℕ := 4 * 2 ^ 20

/-- The address of `kernel_enter_userspace`. -/
def kernelEnterUserspace : ℕ := 0xffffffff80001000

/-- A call of `launch_elf`.  The lists of strings end with a null pointer, and the strings with a
null byte. -/
structure Program where
  proc : ℕ
  map : ℕ
  priority : ℕ
  argv : List (List UInt8)
  envp : List (List UInt8)
  argv_string : ∀ str ∈ argv, (0 : UInt8) ∉ str
  envp_string : ∀ str ∈ envp, (0 : UInt8) ∉ str

/-- What the calls return, each when it is reached. -/
structure Answers where
  vfsOpen : Status
  thrd : Option ℕ
  argvPtr : Option ℕ
  envpPtr : Option ℕ
  kernelStack : Option ℕ
  elfLoad : Status × LoadInfo
  userStack : Status × ℕ
  fpState : Option ℕ
  /-- What is in the user map when the stack is mapped. -/
  userMemory : ℕ → UInt8

structure State where
  kernel : Kernel
  /-- The user memory of the new map. -/
  mem : ℕ → UInt8
  currentMap : Option ℕ
  /-- `curthread()->vm_ctx` -/
  vmCtx : Option ℕ
  /-- The reference count of the file's vnode. -/
  refcnt : ℕ

/-- How a call can end otherwise. -/
inductive Crash where
  | assertion
  | nullDeref
  deriving DecidableEq

/-- The local variables at the labels; a null pointer is `none`. -/
structure Held where
  thrd : Option ℕ := none
  kernelStack : Option ℕ := none
  argvPtr : Option ℕ := none
  envpPtr : Option ℕ := none
  origMap : Option ℕ := none

/-- `if (ptr) kfree(ptr, ..)` -/
def kfreeIf (k : Kernel) (ptr : Option ℕ) : Kernel := ptr.elim k k.kfree

/-- `if (ptr) vm_kfree(ptr, ..)` -/
def vmKfreeIf (k : Kernel) (ptr : Option ℕ) : Kernel := ptr.elim k k.vmKfree

/-- `vm_map_tmp_switch` -/
def vmMapTmpSwitch (map : ℕ) (s : State) : State :=
  { s with
    vmCtx := some map
    currentMap := some map }

/-- `vm_map_tmp_disable` -/
def vmMapTmpDisable (map : ℕ) (s : State) : Except Crash State :=
  if s.vmCtx = none then .error .assertion
  else .ok { s with
    vmCtx := none
    currentMap := some map }

/-- From the label `Cleanup` on. -/
def cleanup (h : Held) (s : State) : Except Crash State :=
  (h.origMap.elim (.ok s) fun map => vmMapTmpDisable map s).map fun s =>
    { s with
      refcnt := s.refcnt - 1
      kernel := kfreeIf (kfreeIf s.kernel h.argvPtr) h.envpPtr }

/-- From the label `ErrCleanup` on: the status, and nothing in `*thread_out`. -/
def errCleanup (rv : Status) (h : Held) (s : State) : Except Crash (Status × Option ℕ × State) :=
  (cleanup h { s with kernel := vmKfreeIf (kfreeIf s.kernel h.thrd) h.kernelStack }).map
    fun s => (rv, none, s)

/-- The end of `launch_elf`, when the stack is mapped. -/
def startThread (ans : Answers) (p : Program) (thrd kernelStack : ℕ) (h : Held) (s : State) :
    Except Crash (Status × Option ℕ × State) :=
  let stackAddr := kernelStack + kstackSize
  let info := ans.elfLoad.2
  let top := (ans.userStack.2 + userStackLength) % 2 ^ 64
  if top % 16 ≠ 0 then .error .assertion
  else
    let stack := fillStack ⟨ans.userMemory, top⟩ p.argv p.envp (setupAuxv info)
    -- without arguments this is `strlen(NULL)`
    p.argv.head?.elim (.error .nullDeref) fun name =>
      let k := kthreadInit s.kernel thrd name p.priority p.proc true
      let k := k.setThread thrd { k.thread thrd with kstackTop := some stackAddr }
      if stack.sp % 16 ≠ 0 then .error .assertion
      else if ans.fpState = none then .error .nullDeref
      else
        let k := kthreadContextInit k thrd stackAddr kernelEnterUserspace info.realEntry.toNat
          stack.sp ans.fpState
        (cleanup h { s with
          kernel := k
          mem := stack.mem }).map fun s => (ans.userStack.1, some thrd, s)

/-- `launch_elf`: the status, what is stored in `*thread_out`, and the state. -/
def launchElf (ans : Answers) (p : Program) (s : State) :
    Except Crash (Status × Option ℕ × State) :=
  let rv := Status.success
  if ans.vfsOpen.isErr then .ok (ans.vfsOpen, none, s)
  else
    let s := { s with refcnt := s.refcnt + 1 }
    ans.thrd.elim (errCleanup rv {} s) fun thrd =>
    ans.argvPtr.elim (errCleanup rv { thrd := some thrd } s) fun argvPtr =>
    ans.envpPtr.elim (errCleanup rv { thrd := some thrd, argvPtr := some argvPtr } s)
      fun envpPtr =>
    ans.kernelStack.elim
      (errCleanup rv { thrd := some thrd, argvPtr := some argvPtr, envpPtr := some envpPtr } s)
      fun kernelStack =>
    let h : Held := {
      thrd := some thrd
      kernelStack := some kernelStack
      argvPtr := some argvPtr
      envpPtr := some envpPtr
      origMap := s.currentMap }
    let s := vmMapTmpSwitch p.map s
    if ans.elfLoad.1.isErr then errCleanup ans.elfLoad.1 h s
    else
      let s := { s with mem := ans.userMemory }
      if ans.userStack.1.isErr then errCleanup ans.userStack.1 h s
      else startThread ans p thrd kernelStack h s

/-! ## What its callers expect -/

/-- The caller runs in its own map, and not in another one for a while. -/
structure State.Ready (s : State) : Prop where
  currentMap : s.currentMap ≠ none
  vmCtx : s.vmCtx = none

/-- `vm_map` returns the address of pages. -/
def Answers.Lawful (ans : Answers) : Prop :=
  ans.userStack.2 % 4096 = 0 ∧ ans.userStack.2 + userStackLength < 2 ^ 64

/-- All that is allocated with `kzalloc`, if the file is opened. -/
def Answers.allocated (ans : Answers) : List ℕ :=
  if ans.vfsOpen.isErr then []
  else ans.thrd.elim [] fun thrd => thrd :: ans.argvPtr.elim [] fun argvPtr =>
    argvPtr :: ans.envpPtr.toList

/-- **A fully initialised thread**: it belongs to the process, and will enter the program with the
stack pointer `sp`. -/
structure Launched (ans : Answers) (p : Program) (thrd sp : ℕ) (s s' : State) : Prop where
  thread : ∃ kernelStack name, ans.kernelStack = some kernelStack ∧ p.argv.head? = some name ∧
    ans.fpState ≠ none ∧ s'.kernel.thread thrd =
      { pcb := some {
          rsp := kernelStack + kstackSize - 16
          r12 := kernelEnterUserspace
          r13 := ans.elfLoad.2.realEntry.toNat
          r14 := sp
          fpState := ans.fpState }
        name := keptName name
        kstackTop := some (kernelStack + kstackSize)
        userThread := true
        priority := p.priority
        undefined := true
        vmCtx := none
        ownerProcess := p.proc }
  listed : s'.kernel.threadList p.proc = thrd :: s.kernel.threadList p.proc
  counted : s'.kernel.threadCount p.proc = s.kernel.threadCount p.proc + 1

/-- No allocation fails that is reached, and a program that is loaded has arguments. -/
def Granted (ans : Answers) (p : Program) : Prop :=
  ans.vfsOpen = .success → ans.thrd ≠ none ∧ ans.argvPtr ≠ none ∧ ans.envpPtr ≠ none ∧
    ans.kernelStack ≠ none ∧
    (ans.elfLoad.1 = .success → ans.userStack.1 = .success → p.argv ≠ [] ∧ ans.fpState ≠ none)

variable {ans : Answers} {p : Program} {s s' : State} {rv : Status} {h : Held}

theorem isErr_iff : rv.isErr = true ↔ rv ≠ .success := by
  rw [Status.isErr, decide_eq_true_iff]

theorem isErr_false (hrv : rv = .success) : ¬ rv.isErr = true := by
  rw [isErr_iff, not_not]
  exact hrv

/-! ## Cleaning up -/

theorem cleanup_of_some {map : ℕ} (hmap : h.origMap = some map) (hctx : s.vmCtx ≠ none) :
    cleanup h s = .ok { s with
      vmCtx := none
      currentMap := some map
      refcnt := s.refcnt - 1
      kernel := kfreeIf (kfreeIf s.kernel h.argvPtr) h.envpPtr } := by
  rw [cleanup, hmap, Option.elim_some, vmMapTmpDisable, if_neg hctx]
  rfl

/-- All allocations succeed, and the file is opened. -/
structure Answers.Allocates (ans : Answers) (thrd argvPtr envpPtr kernelStack : ℕ) : Prop where
  vfsOpen : ans.vfsOpen = .success
  thrd : ans.thrd = some thrd
  argvPtr : ans.argvPtr = some argvPtr
  envpPtr : ans.envpPtr = some envpPtr
  kernelStack : ans.kernelStack = some kernelStack

/-- The local variables when the program is loaded. -/
def allHeld (thrd argvPtr envpPtr kernelStack : ℕ) (s : State) : Held where
  thrd := some thrd
  kernelStack := some kernelStack
  argvPtr := some argvPtr
  envpPtr := some envpPtr
  origMap := s.currentMap

/-- The state in which the program is loaded. -/
def loading (p : Program) (s : State) : State :=
  vmMapTmpSwitch p.map { s with refcnt := s.refcnt + 1 }

section
variable {thrd argvPtr envpPtr kernelStack : ℕ}

theorem launchElf_allocates (h : ans.Allocates thrd argvPtr envpPtr kernelStack) :
    launchElf ans p s =
      if ans.elfLoad.1.isErr then
        errCleanup ans.elfLoad.1 (allHeld thrd argvPtr envpPtr kernelStack s) (loading p s)
      else if ans.userStack.1.isErr then
        errCleanup ans.userStack.1 (allHeld thrd argvPtr envpPtr kernelStack s)
          { loading p s with mem := ans.userMemory }
      else startThread ans p thrd kernelStack (allHeld thrd argvPtr envpPtr kernelStack s)
        { loading p s with mem := ans.userMemory } := by
  rw [launchElf, if_neg (isErr_false h.vfsOpen), h.thrd, h.argvPtr, h.envpPtr, h.kernelStack]
  rfl

theorem Answers.Lawful.top (hlawful : ans.Lawful) :
    (ans.userStack.2 + userStackLength) % 2 ^ 64 = ans.userStack.2 + userStackLength ∧
      (ans.userStack.2 + userStackLength) % 16 = 0 := by
  obtain ⟨hpages, hlt⟩ := hlawful
  refine ⟨Nat.mod_eq_of_lt hlt, ?_⟩
  unfold userStackLength
  omega

/-- The user stack of the program. -/
def filled (ans : Answers) (p : Program) : Stack :=
  fillStack ⟨ans.userMemory, ans.userStack.2 + userStackLength⟩ p.argv p.envp
    (setupAuxv ans.elfLoad.2)

theorem startThread_nil (hlawful : ans.Lawful) (hargv : p.argv = []) :
    startThread ans p thrd kernelStack h s = .error .nullDeref := by
  rw [startThread, hlawful.top.1, if_neg (by rw [hlawful.top.2]; exact fun hne => hne rfl), hargv]
  rfl

/-- **A program that is loaded is started.** -/
theorem startThread_launched (thrd argvPtr envpPtr : ℕ) (hlawful : ans.Lawful)
    (hargv : p.argv ≠ []) (hs : s.Ready)
    (hstack : ans.kernelStack = some kernelStack) (hmapped : ans.userStack.1 = .success)
    (mem : ℕ → UInt8) :
    (ans.fpState = none → startThread ans p thrd kernelStack
        (allHeld thrd argvPtr envpPtr kernelStack s) { loading p s with mem := mem } =
      .error .nullDeref) ∧
    (ans.fpState ≠ none → ∃ s', startThread ans p thrd kernelStack
        (allHeld thrd argvPtr envpPtr kernelStack s) { loading p s with mem := mem } =
      .ok (.success, some thrd, s') ∧ Launched ans p thrd (filled ans p).sp s s' ∧
      s'.mem = (filled ans p).mem) := by
  obtain ⟨name, hname⟩ : ∃ name, p.argv.head? = some name := by
    cases hlist : p.argv with
    | nil => exact absurd hlist hargv
    | cons name rest => exact ⟨name, rfl⟩
  obtain ⟨htop, haligned⟩ := hlawful.top
  have hsp : (filled ans p).sp % 16 = 0 := fillStack_aligned hlawful.2 p.argv p.envp _
  have hstart : startThread ans p thrd kernelStack (allHeld thrd argvPtr envpPtr kernelStack s)
        { loading p s with mem := mem } =
      if ans.fpState = none then .error .nullDeref
      else (cleanup (allHeld thrd argvPtr envpPtr kernelStack s) { loading p s with
        kernel := kthreadContextInit
          (((kthreadInit s.kernel thrd name p.priority p.proc true).setThread thrd
            { (kthreadInit s.kernel thrd name p.priority p.proc true).thread thrd with
              kstackTop := some (kernelStack + kstackSize) }))
          thrd (kernelStack + kstackSize) kernelEnterUserspace ans.elfLoad.2.realEntry.toNat
          (filled ans p).sp ans.fpState
        mem := (filled ans p).mem }).map fun s => (ans.userStack.1, some thrd, s) := by
    rw [startThread, htop, if_neg (by rw [haligned]; exact fun hne => hne rfl), hname,
      Option.elim_some]
    exact if_neg (by rw [← filled, hsp]; exact fun hne => hne rfl)
  rw [hstart]
  refine ⟨fun hnone => if_pos hnone, fun hfp => ?_⟩
  obtain ⟨map, hmap⟩ := Option.ne_none_iff_exists'.mp hs.currentMap
  have horig : (allHeld thrd argvPtr envpPtr kernelStack s).origMap = some map := hmap
  rw [if_neg hfp, cleanup_of_some horig (Option.some_ne_none p.map), hmapped]
  refine ⟨_, rfl, ?_, rfl⟩
  constructor
  case thread =>
    refine ⟨kernelStack, name, hstack, hname, hfp, ?_⟩
    simp [kfreeIf, allHeld, Kernel.kfree, kthreadContextInit, Kernel.setThread, kthreadInit]
  case listed =>
    simp [kfreeIf, allHeld, Kernel.kfree, kthreadContextInit, Kernel.setThread, kthreadInit]
  case counted =>
    simp [kfreeIf, allHeld, Kernel.kfree, kthreadContextInit, Kernel.setThread, kthreadInit]

end

/-! ## Every call -/

/-- A call in which all goes well. -/
def goodAnswers : Answers where
  vfsOpen := .success
  thrd := some 1
  argvPtr := some 2
  envpPtr := some 3
  kernelStack := some 4096
  elfLoad := (.success, ⟨0, 0, 0, 0, 0, 0⟩)
  userStack := (.success, 0x7f0000000000)
  fpState := some 5
  userMemory _ := 0

theorem goodAnswers_lawful : goodAnswers.Lawful := by
  constructor
  · rfl
  · norm_num [goodAnswers, userStackLength]

theorem no_strings : ∀ str ∈ ([] : List (List UInt8)), (0 : UInt8) ∉ str :=
  fun _ hstr => absurd hstr List.not_mem_nil

/-- Process 7, the map 8, and the argument `a`. -/
def runA : Program where
  proc := 7
  map := 8
  priority := 0
  argv := [[97]]
  envp := []
  argv_string := by simp
  envp_string := no_strings

/-- A caller in its own map. -/
def caller : State where
  kernel := oneThread
  mem _ := 0
  currentMap := some 9
  vmCtx := none
  refcnt := 0

theorem caller_ready : caller.Ready := ⟨by simp [caller], rfl⟩

end Launch
