/-
# File descriptors

`core/file.c` and the system calls over it: every process has a table of descriptors, the
descriptors of all processes share reference-counted files.

A section under `fd_mutex` is one step.  An access to `proc->fds[i]` outside the table and an
overflowing addition of `int`s end the run; so does a failing assertion or a null pointer.  The
answers of the memory allocator are part of the state; when they are used up it has memory.
What the vnode of a file answers is given.
-/
import YakKernel.ProgramLogic
import YakKernel.Status

namespace FileTable

open Prog

/-! ## Integers -/

/-- `INT_MAX`. -/
@[irreducible] def intMax : ℤ := 2 ^ 31 - 1

/-- The values of an `int`. -/
abbrev CInt := { x : ℤ // -2 ^ 31 ≤ x ∧ x ≤ intMax }

/-- An `unsigned long` passed as an `int`. -/
def CInt.ofLong (n : ℕ) : CInt :=
  ⟨(n : ℤ).bmod (2 ^ 32), by
    have hlo := Int.le_bmod (x := (n : ℤ)) (m := 2 ^ 32) (by decide)
    have hhi := Int.bmod_lt (x := (n : ℤ)) (m := 2 ^ 32) (by decide)
    simp only [intMax]
    omega⟩

/-- `FD_LIMIT`. -/
@[irreducible] def fdLimit : ℕ := 65535

/-- `FD_GROW_BY`. -/
def fdGrowBy : ℤ := 4

/-! ## Processes and files -/

/-- `struct fd`; of its flags only `FD_CLOEXEC` is ever set. -/
structure Fd where
  file : Option ℕ
  cloexec : Bool
  deriving DecidableEq

/-- What a process keeps of its descriptors: `fds`, whose length is `fd_cap`. -/
structure Process where
  fds : Option (List (Option Fd))
  length_le : (fds.getD []).length ≤ fdLimit

/-- `fd_cap`. -/
def Process.fdCap (p : Process) : ℤ := (p.fds.getD []).length

/-- `proc->fds[i]`, for an index in the table. -/
def Process.get (p : Process) (i : ℤ) : Option Fd := ((p.fds.getD [])[i.toNat]?).join

/-- `proc->fds[i] = desc`, for an index in the table. -/
def Process.set (p : Process) (i : ℤ) (desc : Option Fd) : Process where
  fds := p.fds.map (fun t => t.set i.toNat desc)
  length_le := by
    have h := p.length_le
    cases hp : p.fds with
    | none => exact Nat.zero_le _
    | some t =>
      rw [hp] at h
      simpa using h

/-- `uprocess_init`. -/
def Process.init : Process where
  fds := none
  length_le := Nat.zero_le _

/-- `struct file`; `cleanups` counts the calls of `file_cleanup`. -/
structure File where
  refcnt : ℕ
  cleanups : ℕ

/-- The processes, the files and the coming answers of the allocator.  A new file gets the
address `nextFile`. -/
structure Kernel (P : Type) where
  procs : P → Process
  files : ℕ → File
  nextFile : ℕ
  allocs : List Bool

/-- What ends a run. -/
inductive Failure where
  /-- an access to `proc->fds[i]` outside the table -/
  | outOfRange (i : ℤ)
  /-- an addition of two `int`s overflows -/
  | overflow
  /-- a failing assertion, a panic or a null pointer -/
  | crash
  /-- a loop needs more rounds than it was given -/
  | diverges
  deriving DecidableEq

/-- What the operations of a file's vnode answer. -/
abbrev Env := ℕ → Except Status ℤ

abbrev FdM (P : Type) := Prog Env Failure (Kernel P)

variable {P : Type} [DecidableEq P]

/-! ## Accesses -/

@[simps -fullyApplied]
def Kernel.setProc (s : Kernel P) (p : P) (proc : Process) : Kernel P :=
  { s with procs := Function.update s.procs p proc }

@[simps -fullyApplied]
def Kernel.setFile (s : Kernel P) (f : ℕ) (file : File) : Kernel P :=
  { s with files := Function.update s.files f file }

/-- `proc`. -/
def getProc (p : P) : FdM P Process := do
  let s ← getState
  pure (s.procs p)

/-- Read `proc->fds[i]`. -/
def readSlot (p : P) (i : ℤ) : FdM P (Option Fd) := do
  let proc ← getProc p
  check (0 ≤ i ∧ i < proc.fdCap) (.outOfRange i)
  pure (proc.get i)

/-- Write `proc->fds[i]`. -/
def writeSlot (p : P) (i : ℤ) (desc : Option Fd) : FdM P Unit := do
  let proc ← getProc p
  check (0 ≤ i ∧ i < proc.fdCap) (.outOfRange i)
  change (fun s => s.setProc p (proc.set i desc))

/-- Add two `int`s. -/
def addInt (a b : ℤ) : FdM P ℤ := do
  check (a + b ≤ intMax) .overflow
  pure (a + b)

/-- The allocator's next answer. -/
def Kernel.hasMemory (s : Kernel P) : Bool := s.allocs.headD true

@[simps -fullyApplied]
def Kernel.answered (s : Kernel P) : Kernel P := { s with allocs := s.allocs.tail }

/-- `kzalloc`, `kcalloc`: whether there is memory. -/
def kzalloc : FdM P Bool := do
  let s ← getState
  change Kernel.answered
  pure s.hasMemory

/-! ## References -/

/-- One reference more. -/
def Kernel.ref (s : Kernel P) (f : ℕ) : Kernel P :=
  s.setFile f { s.files f with refcnt := (s.files f).refcnt + 1 }

/-- One reference fewer; the last one takes the file with it. -/
def Kernel.deref (s : Kernel P) (f : ℕ) : Kernel P :=
  s.setFile f
    { refcnt := if (s.files f).refcnt = 0 then 2 ^ 64 - 1 else (s.files f).refcnt - 1
      cleanups := (s.files f).cleanups + if (s.files f).refcnt = 1 then 1 else 0 }

/-- A descriptor that may have no file yet is given up. -/
def Kernel.drop (s : Kernel P) : Option ℕ → Kernel P
  | none => s
  | some f => s.deref f

/-- `file_ref`. -/
def fileRef (f : ℕ) : FdM P Unit := change (fun s => s.ref f)

/-- `file_deref`; the last one runs `file_cleanup`. -/
def fileDeref (f : ℕ) : FdM P Unit := change (fun s => s.deref f)

/-! ## The table -/

/-- The table after `fd_grow`. -/
def Process.grow (p : Process) (newCap : ℕ) (h : newCap ≤ fdLimit) : Process where
  fds := some ((p.fds.getD []) ++ List.replicate (newCap - (p.fds.getD []).length) none)
  length_le := by
    have hp := p.length_le
    simp only [Option.getD_some, List.length_append, List.length_replicate]
    omega

/-- `fd_grow`. -/
def fdGrow (p : P) (newCap : ℤ) : FdM P Status := do
  let proc ← getProc p
  if newCap < proc.fdCap then pure .success
  else if h : newCap.toNat ≤ fdLimit then
    if ← kzalloc then
      change (fun s => s.setProc p (proc.grow newCap.toNat h))
      pure .success
    else pure .oom
  else pure .mfile

/-- `fd_safe_get`. -/
def fdSafeGet (p : P) (fd : ℤ) : FdM P (Option Fd) := do
  let proc ← getProc p
  if proc.fds = none ∨ proc.fdCap ≤ fd then pure none
  else readSlot p fd

/-- `fd_close`. -/
def fdClose (p : P) (fd : ℤ) : FdM P Unit := do
  match ← readSlot p fd with
  | none => fail .crash
  | some desc =>
    ifSome desc.file fileDeref
    writeSlot p fd none

/-- The loop `for (int i = start; i < proc->fd_cap; i++)` over the taken slots, for `n` rounds:
the first free slot. -/
def findFree (p : P) : ℕ → ℤ → FdM P (Option ℤ)
  | 0, _ => pure none
  | n + 1, i => do
    match ← readSlot p i with
    | none => pure (some i)
    | some _ => findFree p n (i + 1)

/-- That loop until `fd_cap`. -/
def findFreeFrom (p : P) (start : ℤ) : FdM P (Option ℤ) := do
  let proc ← getProc p
  findFree p (proc.fdCap - start).toNat start

/-- `proc->fds[i] = kzalloc(sizeof(struct fd))`, and whether there was memory. -/
def newSlot (p : P) (i : ℤ) : FdM P Bool := do
  let ok ← kzalloc
  writeSlot p i (if ok then some ⟨none, false⟩ else none)
  pure ok

/-- `fd_grow(proc, proc->fd_cap + FD_GROW_BY)`. -/
def growByFour (p : P) : FdM P Status := do
  let proc ← getProc p
  let newCap ← addInt proc.fdCap fdGrowBy
  fdGrow p newCap

/-- `fd_allocate_next`. -/
def fdAllocateNext (p : P) : FdM P (Except Status ℤ) := do
  match ← findFreeFrom p 0 with
  | some i =>
    if ← newSlot p i then pure (.ok i) else pure (.error .oom)
  | none =>
    let rv ← growByFour p
    if rv.isErr then pure (.error rv)
    else
      let proc ← getProc p
      -- here the descriptor is not tested for NULL
      let _ ← newSlot p (proc.fdCap - fdGrowBy)
      pure (.ok (proc.fdCap - fdGrowBy))

/-- A round of the loop of `fd_allocate_min`. -/
def allocateMinRound (p : P) (start : ℤ) : FdM P (ℤ ⊕ Except Status ℤ) := do
  match ← findFreeFrom p start with
  | some i =>
    let _ ← newSlot p i
    pure (.inr (.ok i))
  | none =>
    let rv ← growByFour p
    if rv.isErr then pure (.inr (.error rv))
    else
      let proc ← getProc p
      pure (.inl (proc.fdCap - fdGrowBy))

/-- `fd_allocate_min`; the second round finds a slot. -/
def fdAllocateMin (p : P) (minFd : ℤ) : FdM P (Except Status ℤ) :=
  loop (allocateMinRound p) .diverges 2 minFd

/-- `if (old) fd_close(proc, fd)`. -/
def closeOld (p : P) (fd : ℤ) : FdM P Unit := do
  match ← readSlot p fd with
  | some _ => fdClose p fd
  | none => pure ()

/-- `fd_allocate_at`, once the table is large enough. -/
def takeSlot (p : P) (fd : ℤ) : FdM P (Except Status ℤ) := do
  closeOld p fd
  let slot ← readSlot p fd
  check (slot = none) .crash
  if ← newSlot p fd then pure (.ok fd) else pure (.error .oom)

/-- `fd_allocate_at`. -/
def fdAllocateAt (p : P) (fd : ℤ) : FdM P (Except Status ℤ) := do
  let proc ← getProc p
  if proc.fdCap ≤ fd then
    let newCap ← addInt fd fdGrowBy
    let rv ← fdGrow p newCap
    if rv.isErr then pure (.error rv) else takeSlot p fd
  else takeSlot p fd

/-- `FD_DUPE_NOCLOEXEC`, `FD_DUPE_CLOEXEC` and `FD_DUPE_MINIMUM`. -/
structure DupeFlags where
  noCloexec : Bool
  cloexec : Bool
  minimum : Bool

/-- The flags of the copy. -/
def DupeFlags.apply (flags : DupeFlags) (cloexec : Bool) : Bool :=
  if flags.noCloexec then false else if flags.cloexec then true else cloexec

/-- `fd_assign`. -/
def fdAssign (p : P) (fd : ℤ) (src : Fd) (flags : DupeFlags) : FdM P Unit := do
  match ← readSlot p fd, src.file with
  | some _, some f =>
    writeSlot p fd (some ⟨some f, flags.apply src.cloexec⟩)
    fileRef f
  | _, _ => fail .crash

/-- The choice of the new descriptor in `fd_duplicate`. -/
def allocateFor (p : P) (newfd : ℤ) (flags : DupeFlags) : FdM P (Except Status ℤ) :=
  if newfd = -1 then fdAllocateNext p
  else if flags.minimum then fdAllocateMin p newfd
  else fdAllocateAt p newfd

/-- `fd_duplicate`; on the early exit `*outfd` is `newfd` already. -/
def fdDuplicate (p : P) (oldfd newfd : ℤ) (flags : DupeFlags) : FdM P (Except Status ℤ) := do
  match ← fdSafeGet p oldfd with
  | none => pure (.error .badf)
  | some src =>
    if flags.minimum = false ∧ oldfd = newfd then pure (.ok newfd)
    else
      match ← allocateFor p newfd flags with
      | .error rv => pure (.error rv)
      | .ok fd =>
        fdAssign p fd src flags
        pure (.ok fd)

/-- `desc->file = kzalloc(sizeof(struct file))` and `file_init`; `none` without memory. -/
def newFile : FdM P (Option ℕ) := do
  if ← kzalloc then
    let s ← getState
    change (fun s => { s.setFile s.nextFile ⟨1, 0⟩ with nextFile := s.nextFile + 1 })
    pure (some s.nextFile)
  else pure none

/-- `fd_alloc_file`. -/
def fdAllocFile (p : P) : FdM P (Except Status ℤ) := do
  match ← fdAllocateNext p with
  | .error rv => pure (.error rv)
  | .ok fd =>
    match ← readSlot p fd with
    | none => fail .crash
    | some desc =>
      match ← newFile with
      | some f =>
        writeSlot p fd (some { desc with file := some f })
        pure (.ok fd)
      | none =>
        fdClose p fd
        pure (.error .oom)

/-! ## Whole tables -/

/-- A round of the loop of `fd_clone`. -/
def cloneSlot (old new : P) (fd : ℤ) : FdM P Unit := do
  match ← readSlot old fd with
  | none => pure ()
  | some oldDesc =>
    let ok ← kzalloc
    check (ok = true) .crash
    match oldDesc.file with
    | none => fail .crash
    | some f =>
      fileRef f
      writeSlot new fd (some oldDesc)

/-- An empty table of the same length. -/
def Process.blank (p : Process) : Process where
  fds := some (List.replicate (p.fds.getD []).length none)
  length_le := by
    have h := p.length_le
    simpa using h

/-- The indices of a table, from the first to the last. -/
def Process.indices (p : Process) : List ℤ :=
  List.map (fun i : ℕ => (i : ℤ)) (List.range (p.fds.getD []).length)

/-- `fd_clone`. -/
def fdClone (old new : P) : FdM P Unit := do
  let proc ← getProc old
  let ok ← kzalloc
  check (ok = true) .crash
  change (fun s => s.setProc new proc.blank)
  forEach (cloneSlot old new) proc.indices

/-- `fd_close`, for the descriptors with a property. -/
def closeIf (p : P) (cond : Fd → Bool) (fd : ℤ) : FdM P Unit := do
  match ← readSlot p fd with
  | none => pure ()
  | some desc => if cond desc then fdClose p fd else pure ()

/-- The loop of `sys_execve` over the descriptors. -/
def closeOnExec (p : P) : FdM P Unit := do
  let proc ← getProc p
  forEach (closeIf p (fun desc => desc.cloexec)) proc.indices

/-- The part of `process_destroy` over the descriptors. -/
def closeAll (p : P) : FdM P Unit := do
  let proc ← getProc p
  forEach (closeIf p (fun _ => true)) proc.indices
  change (fun s => s.setProc p Process.init)

/-! ## System calls -/

/-- `getfile_ref`. -/
def getfileRef (p : P) (fd : ℤ) : FdM P (Option ℕ) := do
  match ← fdSafeGet p fd with
  | none => pure none
  | some desc =>
    match desc.file with
    | none => fail .crash
    | some f =>
      fileRef f
      pure (some f)

/-- A call that works on a file by its vnode, with a reference of its own meanwhile. -/
def withFile (p : P) (fd : ℤ) : FdM P (Except Status ℤ) := do
  match ← getfileRef p fd with
  | none => pure (.error .badf)
  | some f =>
    let env ← getEnv
    fileDeref f
    pure (env f)

/-- A call that works on a descriptor under `fd_mutex`, such as `sys_seek`. -/
def withDesc (p : P) (fd : ℤ) : FdM P (Except Status ℤ) := do
  match ← fdSafeGet p fd with
  | none => pure (.error .badf)
  | some desc =>
    match desc.file with
    | none => fail .crash
    | some f =>
      let env ← getEnv
      pure (env f)

/-- `sys_openat`, when the path is resolved. -/
def sysOpenat (p : P) (cloexec : Bool) : FdM P (Except Status ℤ) := do
  match ← fdAllocFile p with
  | .error rv => pure (.error rv)
  | .ok fd =>
    match ← readSlot p fd with
    | none => fail .crash
    | some desc =>
      writeSlot p fd (some { desc with cloexec := cloexec })
      pure (.ok fd)

/-- `sys_close`. -/
def sysClose (p : P) (fd : ℤ) : FdM P (Except Status ℤ) := do
  match ← fdSafeGet p fd with
  | none => pure (.error .badf)
  | some _ =>
    fdClose p fd
    pure (.ok 0)

/-- `sys_dup`. -/
def sysDup (p : P) (fd : ℤ) : FdM P (Except Status ℤ) :=
  fdDuplicate p fd (-1) ⟨true, false, false⟩

/-- `sys_dup2`. -/
def sysDup2 (p : P) (oldfd newfd : ℤ) : FdM P (Except Status ℤ) :=
  fdDuplicate p oldfd newfd ⟨true, false, false⟩

/-- The operations of `fcntl`. -/
inductive FcntlOp where
  | dupfd
  | dupfdCloexec
  | getfd
  | setfd
  | getfl
  | setfl
  | other
  deriving DecidableEq

/-- `F_SETFD`, with `FD_CLOEXEC` the only flag. -/
def setFd (p : P) (fd : ℤ) (arg : ℕ) : FdM P (Except Status ℤ) := do
  match ← fdSafeGet p fd with
  | none => pure (.error .badf)
  | some desc =>
    if arg ≤ 1 then
      writeSlot p fd (some { desc with cloexec := arg = 1 })
      pure (.ok 0)
    else pure (.error .invalidArgs)

/-- `sys_fcntl`. -/
def sysFcntl (p : P) (fd : ℤ) (op : FcntlOp) (arg : ℕ) : FdM P (Except Status ℤ) :=
  match op with
  | .dupfd => fdDuplicate p fd (CInt.ofLong arg).val ⟨true, false, true⟩
  | .dupfdCloexec => fdDuplicate p fd (CInt.ofLong arg).val ⟨false, true, true⟩
  | .getfd => withDesc p fd
  | .setfd => setFd p fd arg
  | .getfl => withFile p fd
  | .setfl => withFile p fd
  | .other => pure (.error .notSupported)

/-- `sys_mmap`: an anonymous mapping takes no file. -/
def sysMmap (p : P) (anonymous : Bool) (fd : ℕ) : FdM P (Except Status ℤ) :=
  if anonymous then pure (.ok 0) else withFile p (CInt.ofLong fd).val

/-- What `sys_poll` writes into `revents` of an entry: nothing for a negative descriptor,
`POLLNVAL`, or what the vnode answers. -/
inductive Revents where
  | skipped
  | nval
  | answer (r : Except Status ℤ)

/-- A round of the first loop of `sys_poll`; the reference is dropped at the end of the call. -/
def pollEntry (p : P) (fd : ℤ) : FdM P Revents := do
  if fd < 0 then pure .skipped
  else
    match ← getfileRef p fd with
    | none => pure .nval
    | some f =>
      let env ← getEnv
      fileDeref f
      pure (.answer (env f))

/-- `sys_poll`. -/
def sysPoll (p : P) : List ℤ → FdM P (List Revents)
  | [] => pure []
  | fd :: fds => do
    let r ← pollEntry p fd
    let rs ← sysPoll p fds
    pure (r :: rs)

end FileTable
