/-
# Path lookup

`vfs_lookup_path` (`fs/vfs.c`) walks from vnode to vnode, each of them referenced and locked,
through mounts, `..` and symlinks.  The vnodes and the answers of their operations are fixed
during a lookup; the state is what the calling thread does with the references and the locks.
A reference count that reaches 0 has no effect of its own: every `vn_inactive` returns at once.
-/
import YakKernel.ProgramLogic
import YakKernel.Status

namespace Vfs

open Prog

/-! ## The vnodes -/

/-- A path or one of its components, without the final null character. -/
abbrev Name := List Char

/-- `enum vtype`. -/
inductive VType where
  | vreg
  | vblk
  | vdir
  | vchr
  | vfifo
  | vlnk
  | vsock
  deriving DecidableEq

/-- The vnodes: their types, the answers of `VOP_LOOKUP` and `VOP_READLINK`, what is mounted on
them (`VFS_GETROOT` of `mounted_vfs`) and what they cover.  Lookups succeed in directories only,
the root of a mounted file system is a directory, and mounts are stacked finitely deep. -/
structure Tree (V : Type) where
  rootNode : V
  cwd : V
  type : V → VType
  lookup : V → Name → Except Status V
  readlink : V → Except Status Name
  mountedRoot : V → Option V
  nodeCovered : V → Option V
  height : V → ℕ
  depth : V → ℕ
  type_of_lookup : ∀ v name next, lookup v name = .ok next → type v = .vdir
  type_of_mounted : ∀ v m, mountedRoot v = some m → type m = .vdir
  height_lt : ∀ v m, mountedRoot v = some m → height m < height v
  depth_lt : ∀ v c, nodeCovered v = some c → depth c < depth v

variable {V : Type}

/-- At most `n` rounds of `resolve`. -/
def Tree.resolveIn (tree : Tree V) : ℕ → V → V
  | 0, v => v
  | n + 1, v => match tree.mountedRoot v with
    | some m => tree.resolveIn n m
    | none => v

/-- `resolve`. -/
def Tree.resolve (tree : Tree V) (v : V) : V := tree.resolveIn (tree.height v) v

/-- At most `n` rounds of `resolve_upward`. -/
def Tree.resolveUpwardIn (tree : Tree V) : ℕ → V → V
  | 0, v => v
  | n + 1, v => match tree.nodeCovered v with
    | some c => tree.resolveUpwardIn n c
    | none => v

/-- `resolve_upward`. -/
def Tree.resolveUpward (tree : Tree V) (v : V) : V := tree.resolveUpwardIn (tree.depth v) v

/-- `tmpfs_lookup`. -/
def tmpfsLookup (type : V → VType) (children : V → Name → Option V) (vn : V) (name : Name) :
    Except Status V :=
  if type vn ≠ .vdir then .error .nodir
  else match children vn name with
    | none => .error .noent
    | some entry => .ok entry

/-- `tmpfs_readlink`; `oom` says whether `kmalloc` fails. -/
def tmpfsReadlink (type : V → VType) (linkPath : V → Name) (oom : V → Bool) (vn : V) :
    Except Status Name :=
  if type vn ≠ .vlnk then .error .invalidArgs
  else if oom vn then .error .oom
  else .ok (linkPath vn)

/-! ## References and locks -/

/-- The reference counts, and the vnodes that the calling thread has locked. -/
structure Refs (V : Type) where
  refcnt : V → ℤ
  locked : V → Bool

/-- Why a lookup does not return: the thread locks a vnode twice or unlocks one that it has not
locked, another assertion fails, or the symlinks are nested deeper than the bound. -/
inductive Failure where
  | lockHeld
  | notLocked
  | assertion
  | diverges
  deriving DecidableEq

abbrev VfsM (V : Type) := Prog (Tree V) Failure (Refs V)

variable [DecidableEq V]

/-- `vnode_ref`. -/
def vnodeRef (vn : V) : VfsM V Unit :=
  change (fun s => { s with refcnt := Function.update s.refcnt vn (s.refcnt vn + 1) })

/-- `vnode_deref`. -/
def vnodeDeref (vn : V) : VfsM V Unit :=
  change (fun s => { s with refcnt := Function.update s.refcnt vn (s.refcnt vn - 1) })

/-- `VOP_LOCK`. -/
def vopLock (vn : V) : VfsM V Unit := do
  let s ← getState
  check (s.locked vn = false) .lockHeld
  change (fun s => { s with locked := Function.update s.locked vn true })

/-- `VOP_UNLOCK`. -/
def vopUnlock (vn : V) : VfsM V Unit := do
  let s ← getState
  check (s.locked vn = true) .notLocked
  change (fun s => { s with locked := Function.update s.locked vn false })

/-- Unlock and dereference. -/
def vput (vn : V) : VfsM V Unit := do
  vopUnlock vn
  vnodeDeref vn

/-! ## The lookup -/

/-- `VFS_LOOKUP_PARENT` and `VFS_LOOKUP_NOFOLLOW`. -/
structure Flags where
  parent : Bool
  nofollow : Bool

/-- `split_path`. -/
def splitPath (path : Name) : List Name := (path.splitOn '/').filter (· ≠ [])

/-- The `..` case: from the root of a mounted file system go to the topmost covered vnode. -/
def stepUp (current : V) : VfsM V V := do
  let tree ← getEnv
  match tree.nodeCovered current with
  | none => pure current
  | some _ =>
    let vn := tree.resolveUpward current
    if vn ≠ current then do
      vput current
      vnodeRef vn
      vopLock vn
      pure vn
    else pure current

/-- Lock the child, let go of the parent's lock, and follow mountpoints. -/
def crossMounts (current next : V) : VfsM V V := do
  let tree ← getEnv
  if current ≠ next then do
    vnodeRef next
    vopLock next
    vopUnlock current
  let resolved := tree.resolve next
  if next ≠ resolved then do
    vnodeRef resolved
    vopUnlock next
    vnodeDeref next
    vopLock resolved
    pure resolved
  else pure next

/-- The end of a round: drop the parent. -/
def skipFollow (current next : V) : VfsM V (Except Status V) := do
  if current ≠ next then vnodeDeref current
  pure (.ok next)

/-- Resolve the symlink `next` by a lookup of its own. -/
def followLink (follow : Name → V → VfsM V (Except Status V)) (current next : V) :
    VfsM V (Except Status V) := do
  let tree ← getEnv
  vopUnlock next
  match tree.readlink next with
  | .error e => do
    vnodeDeref next
    pure (.error e)
  | .ok dest => do
    let resolveCwd := if dest.head? = some '/' then tree.resolve tree.rootNode else current
    vnodeRef resolveCwd
    let r ← follow dest resolveCwd
    vnodeDeref next
    match r with
    | .error e => pure (.error e)
    | .ok destvn => skipFollow current destvn

/-- One round of the loop over the components, up to `advance`. -/
def lookupComp (follow : Name → V → VfsM V (Except Status V)) (flags : Flags) (current : V)
    (comp : Name) (isLast : Bool) : VfsM V (Except Status V) := do
  let tree ← getEnv
  -- at the root of the file systems, `..` is skipped
  if comp = ['.', '.'] ∧ tree.resolve tree.rootNode = current then pure (.ok current)
  else do
    let current ← if comp = ['.', '.'] then stepUp current else pure current
    match tree.lookup current comp with
    | .error e => do
      vput current
      pure (.error e)
    | .ok next => do
      let next ← crossMounts current next
      if tree.type next = .vlnk ∧ ¬ (isLast ∧ flags.nofollow) then
        followLink follow current next
      else skipFollow current next

/-- The loop over the components; with `last_comp`, the last one is handed back too. -/
def lookupComps (follow : Name → V → VfsM V (Except Status V)) (flags : Flags)
    (wantDir wantLast : Bool) : List Name → V → VfsM V (Except Status (V × Option Name))
  | [], current => do
    vput current
    pure (.error .noent)
  | comp :: comps, current => do
    let tree ← getEnv
    if tree.type current ≠ .vdir then do
      vput current
      pure (.error .nodir)
    else if comps = [] ∧ flags.parent then
      pure (.ok (current, if wantLast then some comp else none))
    else do
      match ← lookupComp follow flags current comp comps.isEmpty with
      | .error e => pure (.error e)
      | .ok next =>
        if comps = [] then
          if wantDir ∧ tree.type next ≠ .vdir then do
            vput next
            pure (.error .nodir)
          else pure (.ok (next, if wantLast then some comp else none))
        else lookupComps follow flags wantDir wantLast comps next

/-- The vnode to start from, referenced: the root, the given one or that of the process. -/
def startVnode (path : Name) (cwd : Option V) : VfsM V V := do
  let tree ← getEnv
  if path.head? = some '/' then do
    vnodeRef (tree.resolve tree.rootNode)
    ifSome cwd vnodeDeref
    pure (tree.resolve tree.rootNode)
  else
    match cwd with
    | some vn => pure vn
    | none => do
      vnodeRef tree.cwd
      pure tree.cwd

/-- `vfs_lookup_path`, for symlinks nested less than `n` deep; `wantLast` says that `last_comp`
is not null. -/
def vfsLookupPath : ℕ → Option Name → Option V → Flags → Bool →
    VfsM V (Except Status (V × Option Name))
  | 0, _, _, _, _ => fail .diverges
  | n + 1, path, cwd, flags, wantLast =>
    match path with
    | none | some [] => pure (.error .invalidArgs)
    | some (c :: cs) => do
      let tree ← getEnv
      let path := c :: cs
      let wantDir := path.getLast? = some '/'
      let current ← startVnode path cwd
      vopLock current
      if path = ['/'] then do
        check (tree.type current = .vdir) .assertion
        pure (.ok (current, if wantLast then some path else none))
      else if path = ['.'] then
        if tree.type current ≠ .vdir then do
          vput current
          pure (.error .nodir)
        else pure (.ok (current, if wantLast then some path else none))
      else
        lookupComps
          (fun dest resolveCwd => do
            let r ← vfsLookupPath n (some dest) (some resolveCwd) ⟨false, false⟩ false
            pure (r.map Prod.fst))
          flags wantDir wantLast (splitPath path) current

end Vfs
