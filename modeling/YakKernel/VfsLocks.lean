/-
# The locks of a lookup

`vfs_lookup_path` of `fs/vfs.c` again, for what it does to the locks of vnodes: the operations
`VOP_LOCK` and `VOP_UNLOCK` in their order, one step each, so that several lookups can run at once.
The tree is fixed during a lookup, and so are these operations.  The code of `Vfs` locks what is
said here.
-/
import YakKernel.VfsLookup
import YakKernel.LockOrder
import YakKernel.TransitionSystem

namespace Vfs.Locks

/-! ## Traces -/

/-- What a program does to the locks, and what it returns, unless it does not return. -/
def Traced (V α : Type) := List (LockOp V) × Option α

namespace Traced

variable {V α β : Type}

instance : Monad (Traced V) where
  pure a := ([], some a)
  bind x f :=
    match x.2 with
    | none => (x.1, none)
    | some a => (x.1 ++ (f a).1, (f a).2)

theorem bind_of_some {x : Traced V α} {f : α → Traced V β} {a : α} (h : x.2 = some a) :
    (x >>= f) = (x.1 ++ (f a).1, (f a).2) := by
  change (match x.2 with
    | none => (x.1, none)
    | some a => (x.1 ++ (f a).1, (f a).2)) = _
  rw [h]

theorem bind_of_none {x : Traced V α} {f : α → Traced V β} (h : x.2 = none) :
    (x >>= f) = (x.1, none) := by
  change (match x.2 with
    | none => (x.1, none)
    | some a => (x.1 ++ (f a).1, (f a).2)) = _
  rw [h]

theorem bind_pure_right (x : Traced V α) : (x >>= fun a => pure a) = x := by
  cases hx : x.2 with
  | none =>
    rw [bind_of_none hx, ← hx]
    rfl
  | some a =>
    rw [bind_of_some hx]
    change (x.1 ++ [], some a) = x
    rw [List.append_nil, ← hx]
    rfl

/-- `VOP_LOCK` -/
def lock (v : V) : Traced V Unit := ([.lock v], some ())

/-- `VOP_UNLOCK` -/
def unlock (v : V) : Traced V Unit := ([.unlock v], some ())

/-- The directory above is locked next, and the one below is still locked. -/
def leave : Traced V Unit := ([.leave], some ())

/-- The program does not return. -/
def stuck : Traced V α := ([], none)

end Traced

open Traced

variable {V : Type} [DecidableEq V]

/-! ## The lookup -/

/-- The `..` case: from the root of a mounted file system go to the topmost covered vnode. -/
def stepUp (tree : Tree V) (current : V) : Traced V V :=
  match tree.nodeCovered current with
  | none => pure current
  | some _ =>
    let vn := tree.resolveUpward current
    if vn ≠ current then do
      unlock current
      lock vn
      pure vn
    else pure current

/-- Lock the child, let go of the parent's lock, and follow mountpoints. -/
def crossMounts (tree : Tree V) (current next : V) : Traced V V := do
  if current ≠ next then do
    lock next
    unlock current
  let resolved := tree.resolve next
  if next ≠ resolved then do
    unlock next
    lock resolved
    pure resolved
  else pure next

/-- Resolve the symlink `next` by a lookup of its own. -/
def followLink (tree : Tree V) (follow : Name → V → Traced V (Except Status V))
    (current next : V) : Traced V (Except Status V) := do
  unlock next
  match tree.readlink next with
  | .error e => pure (.error e)
  | .ok dest =>
    follow dest (if dest.head? = some '/' then tree.resolve tree.rootNode else current)

/-- One round of the loop over the components, up to `advance`. -/
def lookupComp (tree : Tree V) (follow : Name → V → Traced V (Except Status V)) (flags : Flags)
    (current : V) (comp : Name) (isLast : Bool) : Traced V (Except Status V) :=
  if comp = ['.', '.'] ∧ tree.resolve tree.rootNode = current then pure (.ok current)
  else do
    let current ← if comp = ['.', '.'] then stepUp tree current else pure current
    match tree.lookup current comp with
    | .error e => do
      unlock current
      pure (.error e)
    | .ok next => do
      if comp = ['.', '.'] ∧ current ≠ next then leave
      let next ← crossMounts tree current next
      if tree.type next = .vlnk ∧ ¬ (isLast ∧ flags.nofollow) then
        followLink tree follow current next
      else pure (.ok next)

/-- The loop over the components. -/
def lookupComps (tree : Tree V) (follow : Name → V → Traced V (Except Status V)) (flags : Flags)
    (wantDir wantLast : Bool) : List Name → V → Traced V (Except Status (V × Option Name))
  | [], current => do
    unlock current
    pure (.error .noent)
  | comp :: comps, current =>
    if tree.type current ≠ .vdir then do
      unlock current
      pure (.error .nodir)
    else if comps = [] ∧ flags.parent then
      pure (.ok (current, if wantLast then some comp else none))
    else do
      match ← lookupComp tree follow flags current comp comps.isEmpty with
      | .error e => pure (.error e)
      | .ok next =>
        if comps = [] then
          if wantDir ∧ tree.type next ≠ .vdir then do
            unlock next
            pure (.error .nodir)
          else pure (.ok (next, if wantLast then some comp else none))
        else lookupComps tree follow flags wantDir wantLast comps next

/-- The vnode to start from. -/
def startVnode (tree : Tree V) (path : Name) (cwd : Option V) : V :=
  if path.head? = some '/' then tree.resolve tree.rootNode else cwd.getD tree.cwd

/-- `vfs_lookup_path`, for symlinks nested less than `n` deep. -/
def vfsLookupPath (tree : Tree V) : ℕ → Option Name → Option V → Flags → Bool →
    Traced V (Except Status (V × Option Name))
  | 0, _, _, _, _ => stuck
  | n + 1, path, cwd, flags, wantLast =>
    match path with
    | none | some [] => pure (.error .invalidArgs)
    | some (c :: cs) => do
      let path := c :: cs
      let current := startVnode tree path cwd
      lock current
      if path = ['/'] then
        if tree.type current = .vdir then pure (.ok (current, if wantLast then some path else none))
        else stuck
      else if path = ['.'] then
        if tree.type current ≠ .vdir then do
          unlock current
          pure (.error .nodir)
        else pure (.ok (current, if wantLast then some path else none))
      else
        lookupComps tree
          (fun dest resolveCwd => do
            let r ← vfsLookupPath tree n (some dest) (some resolveCwd) ⟨false, false⟩ false
            pure (r.map Prod.fst))
          flags (decide (path.getLast? = some '/')) wantLast (splitPath path) current

/-! ## Several lookups at once -/

/-- A call, and the `VOP_UNLOCK` of its result. -/
def callOps (tree : Tree V) (n : ℕ) (path : Option Name) (cwd : Option V) (flags : Flags)
    (wantLast : Bool) : List (LockOp V) :=
  let r := vfsLookupPath tree n path cwd flags wantLast
  r.1 ++ match r.2 with
    | some (.ok (out, _)) => [.unlock out]
    | _ => []

/-- What can happen next. -/
inductive Event (V : Type)
  /-- A thread that has given its locks back calls `vfs_lookup_path`. -/
  | call (t : ℕ) (n : ℕ) (path : Option Name) (cwd : Option V) (flags : Flags) (wantLast : Bool)
  /-- A thread locks or unlocks. -/
  | run (t : ℕ)

def step (tree : Tree V) (s : LockOrder.State ℕ V) : Event V → Option (LockOrder.State ℕ V)
  | .call t n path cwd flags wantLast =>
    if s.todo t = [] then
      some { s with
        todo := Function.update s.todo t (callOps tree n path cwd flags wantLast) }
    else none
  | .run t => LockOrder.step s t

/-- The lookups of any number of threads. -/
def system (tree : Tree V) : TransitionSystem (LockOrder.State ℕ V) (Event V) where
  init s := s = { owner := fun _ => none, todo := fun _ => [] }
  step := step tree

end Vfs.Locks
