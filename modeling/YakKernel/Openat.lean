/-
# Opening files

`sys_openat` of `syscall/file.c`, with `dirfd_get`, `vfs_open` and `vfs_create`.  `dirfd_get` hands
out a reference to the directory that a relative path starts from, and the lookup consumes it;
`sys_openat` drops it once more.  A file that is missing is created by a second lookup, which
starts from the process's directory.  What the file systems answer, and the descriptors of the
process, are given.
-/
import YakKernel.VfsLookup

namespace Vfs.Openat

open Prog

variable {V : Type} [DecidableEq V]

/-! ## What is given -/

/-- The vnodes, those of the open files, the answers of `VOP_OPEN` (an error, or the terminal that
`ctty_open` puts in the vnode's place), of `VOP_CREATE`, and of `fd_alloc_file`.  The vnode of an
open file is not one that would be replaced. -/
structure System (V : Type) where
  tree : Tree V
  file : ℕ → Option V
  opened : V → Except Status (Option V)
  create : V → Name → Except Status V
  fdAlloc : Except Status ℕ
  opened_ne_noent : ∀ v, opened v ≠ .error .noent
  opened_ne_self : ∀ v, opened v ≠ .ok (some v)
  opened_file : ∀ fd v t, file fd = some v → opened v ≠ .ok (some t)

/-- What ends a call: a lookup that does not return, or an access outside the descriptors. -/
inductive Crash where
  | lookup (e : Failure)
  | outOfBounds
  deriving DecidableEq

abbrev OpenM (V : Type) := Prog (Tree V) Crash (Refs V)

/-- Run a part of the VFS. -/
def vfs {α : Type} (x : VfsM V α) : OpenM V α := fun tree s => (x tree s).mapError Crash.lookup

/-! ## The flags -/

def atFdcwd : ℤ := -100

def atEmptyPath : ℕ := 0x1000

def oCreat : ℕ := 0o100

def oCloexec : ℕ := 0o2000000

def oDirectory : ℕ := 0o200000

def oNofollow : ℕ := 0o400000

/-- `O_ACCMODE`, that is `03 | O_PATH`. -/
def oAccmode : ℕ := 0o10000003

/-- Some bit of the mask is set. -/
def has (flags mask : ℕ) : Bool := flags &&& mask ≠ 0

/-- `rwmode_to_internal`: `FILE_READ` and `FILE_WRITE`. -/
def rwmodeToInternal (flags : ℕ) : Option (Bool × Bool) :=
  match flags &&& oAccmode with
  | 0 => some (true, false)
  | 1 => some (false, true)
  | 2 => some (true, true)
  | _ => none

/-- The flags of the first lookup. -/
def lookupFlags (flags : ℕ) : Flags where
  parent := false
  nofollow := has flags oNofollow

/-- The flags of the lookup of `vfs_create`. -/
def parentFlags : Flags where
  parent := true
  nofollow := false

/-! ## `dirfd_get` -/

/-- What an error of the call says. -/
inductive Errno where
  | einval
  | enoent
  | ebadf
  | enotdir
  | ofStatus (rv : Status)

/-- `enum dirfd_result_type`. -/
inductive Kind where
  | baseDir
  | root
  | vnode

/-- `struct dirfd_result`. -/
structure DirfdResult (V : Type) where
  vnode : Option V
  kind : Kind

/-- `fd_safe_get`: it does not refuse a negative descriptor. -/
def fdSafeGet (sys : System V) (fd : ℤ) : OpenM V (Option V) :=
  if fd < 0 then fail .outOfBounds else pure (sys.file fd.toNat)

/-- `copy_user_path`; `oom` says that `kmalloc` fails. -/
def copyUserPath (userPath : Option Name) (oom : Bool) : Option Name :=
  match userPath with
  | none | some [] => none
  | some path => if oom then none else some path

/-- `dirfd_get`. -/
def dirfdGet (sys : System V) (dirfd : ℤ) (path : Option Name) (flags : ℕ) :
    OpenM V (Except Errno (DirfdResult V)) := do
  match path with
  | none | some [] =>
    if has flags atEmptyPath = false then pure (.error .enoent)
    else
      match ← fdSafeGet sys dirfd with
      | none => pure (.error .ebadf)
      | some vn => do
        vfs (vnodeRef vn)
        pure (.ok ⟨some vn, .vnode⟩)
  | some (c :: _) =>
    if c = '/' then pure (.ok ⟨none, .root⟩)
    else if dirfd = atFdcwd then do
      vfs (vnodeRef sys.tree.cwd)
      pure (.ok ⟨some sys.tree.cwd, .baseDir⟩)
    else
      match ← fdSafeGet sys dirfd with
      | none => pure (.error .ebadf)
      | some vn =>
        if sys.tree.type vn ≠ .vdir then pure (.error .enotdir)
        else do
          vfs (vnodeRef vn)
          pure (.ok ⟨some vn, .baseDir⟩)

/-! ## `vfs_open` and `vfs_create` -/

/-- `VOP_OPEN`. -/
def vopOpen (sys : System V) (vn : V) : VfsM V (Except Status V) :=
  match sys.opened vn with
  | .error e => pure (.error e)
  | .ok none => pure (.ok vn)
  | .ok (some tty) => do
    vnodeRef tty
    vopLock tty
    vopUnlock vn
    vnodeDeref vn
    pure (.ok tty)

/-- `vfs_open`. -/
def vfsOpen (sys : System V) (n : ℕ) (path : Option Name) (cwd : Option V) (flags : Flags) :
    VfsM V (Except Status V) := do
  match ← vfsLookupPath n path cwd flags false with
  | .error e => pure (.error e)
  | .ok (vn, _) =>
    match ← vopOpen sys vn with
    | .error e => do
      vput vn
      pure (.error e)
    | .ok vn => do
      vopUnlock vn
      pure (.ok vn)

/-- A file that was created: where, its name, and its vnode. -/
structure Created (V : Type) where
  parent : V
  name : Name
  vnode : V

/-- `vfs_create`: the lookup starts from the process's directory.  `vnode_init` gives the new vnode
its first reference. -/
def vfsCreate (sys : System V) (n : ℕ) (path : Option Name) :
    VfsM V (Except Status (Created V)) := do
  match ← vfsLookupPath n path none parentFlags true with
  | .error e => pure (.error e)
  | .ok (parent, lastComp) =>
    match lastComp with
    | none => fail .assertion
    | some name =>
      match sys.create parent name with
      | .error e => do
        vput parent
        pure (.error e)
      | .ok vn => do
        vnodeRef vn
        vput parent
        pure (.ok ⟨parent, name, vn⟩)

/-! ## `sys_openat` -/

/-- A new `struct file` with its descriptor; its `offset` is 0. -/
structure NewFile (V : Type) where
  fd : ℕ
  vnode : V
  mode : Bool × Bool
  cloexec : Bool

/-- What the call returns, and what it has created. -/
structure Outcome (V : Type) where
  answer : Except Errno (NewFile V)
  created : Option (Created V)

/-- The end of `sys_openat`, with the vnode. -/
def install (sys : System V) (flags : ℕ) (mode : Bool × Bool) (vn : V) :
    OpenM V (Except Errno (NewFile V)) :=
  if has flags oDirectory ∧ sys.tree.type vn ≠ .vdir then do
    vfs (vnodeDeref vn)
    pure (.error .enotdir)
  else
    match sys.fdAlloc with
    | .error e => do
      vfs (vnodeDeref vn)
      pure (.error (.ofStatus e))
    | .ok fd => pure (.ok ⟨fd, vn, mode, has flags oCloexec⟩)

/-- Open the file, or create it when it is missing. -/
def openOrCreate (sys : System V) (n : ℕ) (path : Option Name) (cwd : Option V) (flags : ℕ) :
    VfsM V (Except Status V × Option (Created V)) := do
  match ← vfsOpen sys n path cwd (lookupFlags flags) with
  | .ok vn => pure (.ok vn, none)
  | .error e =>
    if e = .noent ∧ has flags oCreat then
      match ← vfsCreate sys n path with
      | .error e => pure (.error e, none)
      | .ok c => pure (.ok c.vnode, some c)
    else pure (.error e, none)

/-- The case `DIRFD_VNODE`. -/
def openVnode (sys : System V) (flags : ℕ) (mode : Bool × Bool) (vn : V) : OpenM V (Outcome V) := do
  match ← vfs (vopOpen sys vn) with
  | .error e => do
    vfs (vnodeDeref vn)
    pure ⟨.error (.ofStatus e), none⟩
  | .ok vn => do
    let answer ← install sys flags mode vn
    pure ⟨answer, none⟩

/-- The cases `DIRFD_ROOT` and `DIRFD_BASE_DIR`. -/
def openPath (sys : System V) (n : ℕ) (path : Option Name) (base : Option V) (flags : ℕ)
    (mode : Bool × Bool) : OpenM V (Outcome V) := do
  match ← vfs (openOrCreate sys n path base flags) with
  | (.error e, created) => pure ⟨.error (.ofStatus e), created⟩
  | (.ok vn, created) => do
    -- the lookup has consumed this reference
    vfs (ifSome base vnodeDeref)
    let answer ← install sys flags mode vn
    pure ⟨answer, created⟩

/-- `sys_openat` with the path in the kernel. -/
def openatPath (sys : System V) (n : ℕ) (dirfd : ℤ) (path : Option Name) (flags : ℕ) :
    OpenM V (Outcome V) := do
  match rwmodeToInternal flags with
  | none => pure ⟨.error .einval, none⟩
  | some mode =>
    match ← dirfdGet sys dirfd path flags with
    | .error e => pure ⟨.error e, none⟩
    | .ok ⟨vn, .root⟩ => openPath sys n path vn flags mode
    | .ok ⟨vn, .baseDir⟩ => openPath sys n path vn flags mode
    | .ok ⟨none, .vnode⟩ => fail (.lookup .assertion)
    | .ok ⟨some vn, .vnode⟩ => openVnode sys flags mode vn

/-- `sys_openat`, for symlinks nested less than `n` deep. -/
def sysOpenat (sys : System V) (n : ℕ) (dirfd : ℤ) (userPath : Option Name) (oom : Bool)
    (flags : ℕ) : OpenM V (Outcome V) :=
  openatPath sys n dirfd (copyUserPath userPath oom) flags

/-! ## The call as a function of the tree -/

/-- The walk of `vfs_open`. -/
def System.walkOpen (sys : System V) (n : ℕ) (path : Option Name) (cwd : Option V)
    (flags : Flags) : Walk V V :=
  match sys.tree.walk n path cwd flags with
  | none => none
  | some (.error e, slips) => some (.error e, slips)
  | some (.ok v, slips) =>
    match sys.opened v with
    | .error e => some (.error e, slips)
    | .ok tty => some (.ok (tty.getD v), slips)

/-- The last component of a path. -/
def lastName (path : Name) : Option Name :=
  if path = ['/'] then some path else (splitPath path).getLast?

/-- What is created for a path that starts from `cwd`. -/
def System.walkCreate (sys : System V) (n : ℕ) (path : Name) (cwd : Option V) :
    Walk V (Created V) :=
  match sys.tree.walk n (some path) cwd parentFlags with
  | none => none
  | some (.error e, slips) => some (.error e, slips)
  | some (.ok parent, slips) =>
    match lastName path with
    | none => none
    | some name =>
      match sys.create parent name with
      | .error e => some (.error e, slips)
      | .ok vn => some (.ok ⟨parent, name, vn⟩, slips)

/-- What `openOrCreate` finds. -/
def System.find (sys : System V) (n : ℕ) (path : Name) (cwd : Option V) (flags : ℕ) :
    Option ((Except Status V × Option (Created V)) × List (Slip V)) :=
  match sys.walkOpen n (some path) cwd (lookupFlags flags) with
  | none => none
  | some (.ok v, slips) => some ((.ok v, none), slips)
  | some (.error e, slips) =>
    if e = .noent ∧ has flags oCreat then
      match sys.walkCreate n path none with
      | none => none
      | some (.error e, slips') => some ((.error e, none), slips ++ slips')
      | some (.ok c, slips') => some ((.ok c.vnode, some c), slips ++ slips')
    else some ((.error e, none), slips)

/-- The directory that a path starts from; none for an absolute one. -/
def System.base (sys : System V) (dirfd : ℤ) (path : Name) : Except Errno (Option V) :=
  if path.head? = some '/' then .ok none
  else if dirfd = atFdcwd then .ok (some sys.tree.cwd)
  else
    match sys.file dirfd.toNat with
    | none => .error .ebadf
    | some v => if sys.tree.type v ≠ .vdir then .error .enotdir else .ok (some v)

/-- The descriptor for a vnode. -/
def System.installed (sys : System V) (flags : ℕ) (mode : Bool × Bool) (v : V) :
    Except Errno (NewFile V) :=
  if has flags oDirectory ∧ sys.tree.type v ≠ .vdir then .error .enotdir
  else
    match sys.fdAlloc with
    | .error e => .error (.ofStatus e)
    | .ok fd => .ok ⟨fd, v, mode, has flags oCloexec⟩

variable {sys : System V} {n : ℕ} {path : Name} {cwd : Option V} {flags : ℕ} {refcnt : V → ℤ}
  {s : Refs V} {v : V}

section Rules

variable {α β : Type} {Q : β → Refs V → Prop} {R : Failure → Prop} {R' : Crash → Prop}

end Rules

/-- The call asks for the file of `dirfd`. -/
def NeedsFile (dirfd : ℤ) (flags : ℕ) : Option Name → Prop
  | none | some [] => has flags atEmptyPath = true
  | some (c :: _) => c ≠ '/' ∧ dirfd ≠ atFdcwd

/-- A descriptor that is looked up is not negative. -/
def InTable (dirfd : ℤ) (path : Option Name) (flags : ℕ) : Prop :=
  rwmodeToInternal flags ≠ none → NeedsFile dirfd flags path → 0 ≤ dirfd

variable {dirfd : ℤ} {p : Name} {base : Option V} {upath : Option Name}

/-- Two directories, and a file to come. -/
inductive Place where
  | root
  | inner
  | made
  deriving DecidableEq

end Vfs.Openat
