/-
# The link counts of tmpfs

`fs/tmpfs.c`: nodes with their link counts, and directories, which are tables of names.  A call
fails when an allocation fails; `ht_set` then leaves the table as it was.  A null pointer that is
used ends the run.  Nodes are never freed once they are linked.
-/
import YakKernel.Status
import YakKernel.Tally
import YakKernel.TransitionSystem
import YakKernel.Vfs

namespace Tmpfs

open Vfs

/-! ## The code -/

/-- `struct tmpfs_node`: its file system, type, link count, table of entries (only directories have
one) and the path of a symlink. -/
structure Node where
  vfs : ℕ
  type : VType
  nlinks : ℕ
  children : Name → Option ℕ
  linkPath : Option Name

/-- The nodes by their addresses and the roots of the mounted file systems. -/
structure State where
  nodes : ℕ → Option Node
  root : ℕ → Option ℕ
  nextAddr : ℕ
  nextVfs : ℕ

/-- Which allocations of a call succeed: a file system, a node, the entry `.`, an object, the entry
`..`, the named entry, a copy of a path. -/
structure Allocs where
  fs : Bool
  node : Bool
  dot : Bool
  object : Bool
  dotdot : Bool
  entry : Bool
  path : Bool

def dot : Name := ['.']

def dotdot : Name := ['.', '.']

/-- A change of one node. -/
def State.modify (s : State) (x : ℕ) (f : Node → Node) : State :=
  { s with nodes := Function.update s.nodes x ((s.nodes x).map f) }

/-- `ht_set` of a directory that succeeds. -/
def State.putEntry (s : State) (d : ℕ) (name : Name) (x : ℕ) : State :=
  s.modify d fun node => { node with children := Function.update node.children name (some x) }

def State.setLinks (s : State) (x : ℕ) (k : ℕ) : State :=
  s.modify x fun node => { node with nlinks := k }

/-- `nlinks++`. -/
def State.incLinks (s : State) (x : ℕ) : State :=
  s.modify x fun node => { node with nlinks := node.nlinks + 1 }

/-- `nlinks--` of an unsigned word. -/
def decWord (n : ℕ) : ℕ := if n = 0 then 2 ^ 64 - 1 else n - 1

def State.decLinks (s : State) (x : ℕ) : State :=
  s.modify x fun node => { node with nlinks := decWord node.nlinks }

/-- `free_node`. -/
def State.freeNode (s : State) (x : ℕ) : State :=
  { s with nodes := Function.update s.nodes x none }

/-- The memory with a node that `tmpfs_init_node` has filled in. -/
def State.withNode (s : State) (vfs : ℕ) (type : VType) : State :=
  { s with
    nodes := Function.update s.nodes s.nextAddr (some {
      vfs := vfs
      type := type
      nlinks := 0
      children :=
        if type = .vdir then Function.update (fun _ => none) dot (some s.nextAddr)
        else fun _ => none
      linkPath := none })
    nextAddr := s.nextAddr + 1 }

/-- `alloc_node` with `tmpfs_init_node`.  `vm_aobj_create` does not check its allocation. -/
def allocNode (s : State) (vfs : ℕ) (type : VType) (allocs : Allocs) :
    Option (Except Status (ℕ × State)) :=
  if !allocs.node then some (.error .oom)
  else if type = .vdir ∧ !allocs.dot then some (.error .oom)
  else if type = .vreg ∧ !allocs.object then none
  else some (.ok (s.nextAddr, s.withNode vfs type))

/-- `tmpfs_mount`. -/
def tmpfsMount (s : State) (allocs : Allocs) : Option (Status × State) :=
  if !allocs.fs then none
  else match allocNode s s.nextVfs .vdir allocs with
    | none => none
    | some (.error rv) => some (rv, s)
    | some (.ok (r, s)) => some (.success, { s with
        root := Function.update s.root s.nextVfs (some r)
        nextVfs := s.nextVfs + 1 })

/-- `tmpfs_create` after `alloc_node`. -/
def linkNew (s : State) (parent n : ℕ) (parentType type : VType) (name : Name) (allocs : Allocs) :
    Option (Status × State) :=
  -- All directories have '.' as well
  let s := s.setLinks n (if type = .vdir then 2 else 1)
  if type = .vdir ∧ !allocs.dotdot then some (.oom, s.freeNode n)
  else
    let s := if type = .vdir then (s.putEntry n dotdot parent).incLinks parent else s
    if !allocs.entry then some (.oom, (s.freeNode n).decLinks parent)
    -- a node that is not a directory has no table
    else if parentType ≠ .vdir then none
    else some (.success, s.putEntry parent name n)

/-- `tmpfs_create`. -/
def tmpfsCreate (s : State) (parent : ℕ) (type : VType) (name : Name) (allocs : Allocs) :
    Option (Status × State) :=
  match s.nodes parent with
  | none => none
  | some parentNode =>
    if (parentNode.children name).isSome then some (.exists, s)
    else match allocNode s parentNode.vfs type allocs with
      | none => none
      | some (.error rv) => some (rv, s)
      | some (.ok (n, s)) => linkNew s parent n parentNode.type type name allocs

/-- `tmpfs_symlink`.  The copy of the path is not checked. -/
def tmpfsSymlink (s : State) (parent : ℕ) (name path : Name) (allocs : Allocs) :
    Option (Status × State) :=
  match tmpfsCreate s parent .vlnk name allocs with
  | none => none
  | some (rv, s') =>
    if rv.isErr then some (rv, s')
    else some (.success, s'.modify s.nextAddr fun node =>
      { node with linkPath := if allocs.path then some path else none })

/-- `tmpfs_link`. -/
def tmpfsLink (s : State) (x d : ℕ) (name : Name) (allocs : Allocs) : Option (Status × State) :=
  match s.nodes x, s.nodes d with
  | some node, some dir =>
    if node.vfs ≠ dir.vfs then some (.crossDevice, s)
    else if dir.type ≠ .vdir then some (.nodir, s)
    else if node.type = .vdir then some (.isdir, s)
    else if (dir.children name).isSome then some (.exists, s)
    else if !allocs.entry then some (.oom, s)
    else some (.success, (s.putEntry d name x).incLinks x)
  | _, _ => none

/-! ## Runs -/

/-- The calls. -/
inductive Event where
  | mount (allocs : Allocs)
  | create (parent : ℕ) (type : VType) (name : Name) (allocs : Allocs)
  | symlink (parent : ℕ) (name path : Name) (allocs : Allocs)
  | link (x d : ℕ) (name : Name) (allocs : Allocs)

/-- One call, with its status. -/
def call (s : State) : Event → Option (Status × State)
  | .mount allocs => tmpfsMount s allocs
  | .create parent type name allocs => tmpfsCreate s parent type name allocs
  | .symlink parent name path allocs => tmpfsSymlink s parent name path allocs
  | .link x d name allocs => tmpfsLink s x d name allocs

/-- Runs begin with nothing mounted. -/
def system : TransitionSystem State Event where
  init s := s.nodes = (fun _ => none) ∧ s.root = fun _ => none
  step s e := (call s e).map Prod.snd

/-- The entry of a name in a directory. -/
def State.entry (s : State) (e : ℕ × Name) : Option ℕ := (s.nodes e.1).bind (·.children e.2)

/-- The link count of a node. -/
def State.nlinks (s : State) (x : ℕ) : Option ℕ := (s.nodes x).map Node.nlinks

/-- A call reaches the last insertion of a node that is not a directory, and it fails. -/
def failsLast (s : State) (parent : ℕ) (type : VType) (name : Name) (allocs : Allocs) : Bool :=
  (s.nodes parent).any fun parentNode =>
    (parentNode.children name).isNone && allocs.node && decide (type ≠ .vdir) &&
      (decide (type ≠ .vreg) || allocs.object) && !allocs.entry

/-- No call fails at the last insertion of a node that is not a directory. -/
def Careful (s : State) : Event → Prop
  | .mount _ => True
  | .create parent type name allocs => failsLast s parent type name allocs = false
  | .symlink parent name _ allocs => failsLast s parent .vlnk name allocs = false
  | .link _ _ _ _ => True

instance (s : State) (e : Event) : Decidable (Careful s e) :=
  match e with
  | .mount _ => inferInstanceAs (Decidable True)
  | .create _ _ _ _ => inferInstanceAs (Decidable (_ = _))
  | .symlink _ _ _ _ => inferInstanceAs (Decidable (_ = _))
  | .link _ _ _ _ => inferInstanceAs (Decidable True)

end Tmpfs
