/-
# The pages of a vm object

`vm_lookuppage` (`vm/object.c`) puts the pages that it allocates into the tree `memq` of their
object; when the last reference to an object is dropped, `anon_pager_cleanup` (`vm/aobj.c`)
walks over this tree and drops the object's reference to every page.  The links of the tree lie
in the pages themselves.

One object, the target, is torn down while other processors look up pages of the others.  The
page allocator is a pool that hands out any free page.  A hop along a link and a `page_deref`
are one step each; in `vm_lookuppage` the allocation and the insertion are two steps under the
lock of the object.
-/
import YakKernel.TransitionSystem
import YakKernel.RbTree

namespace VmObject

open RbTree

/-- The fields of `struct page` that objects use, without the links. -/
structure Page (O : Type*) where
  shares : ℕ
  vmobj : Option O
  offset : ℕ

/-- The pages, the links in them and the free pages; the tree of every object and the page that
`vm_lookuppage` has allocated for it and not inserted yet; the references to pages that are not
an object's; where the cleanup of the target is, once its last reference is dropped.  Two
ghosts: the pages that the cleanup has dereferenced, and the number of its steps. -/
structure State (P O : Type*) where
  pages : P → Page O
  links : P → Links P
  isFree : P → Bool
  memq : O → RbTree.Tree P
  pending : O → Option P
  extra : P → ℕ
  cleanup : Option (Walk P)
  derefs : List P
  steps : ℕ

variable {P O : Type*}

/-- `vm_page_tree_cmp` compares offsets. -/
def State.offset (s : State P O) (p : P) : ℕ := (s.pages p).offset

variable [DecidableEq P] [DecidableEq O]

/-- `pmm_alloc_order(0)` returns the page `p`. -/
def pmmAlloc (s : State P O) (p : P) (vmobj : Option O) (offset : ℕ) : State P O :=
  { s with
    pages := Function.update s.pages p ⟨1, vmobj, offset⟩
    isFree := Function.update s.isFree p false }

/-- `page_ref`. -/
def pageRef (s : State P O) (p : P) : State P O :=
  { s with
    pages := Function.update s.pages p { s.pages p with shares := (s.pages p).shares + 1 } }

/-- `page_deref`: the last reference returns the page to the allocator. -/
def pageDeref (s : State P O) (p : P) : State P O :=
  { s with
    pages := Function.update s.pages p { s.pages p with shares := (s.pages p).shares - 1 }
    isFree := if (s.pages p).shares = 1 then Function.update s.isFree p true else s.isFree }

/-- `vm_lookuppage` up to `pgo_get`, which gets the page `p`. -/
def lookupAlloc (s : State P O) (o : O) (offset : ℕ) (p : P) : State P O :=
  let s := pmmAlloc s p (some o) offset
  { s with pending := Function.update s.pending o (some p) }

/-- `RBT_INSERT` into the tree of the object. -/
def lookupInsert (s : State P O) (o : O) (p : P) : State P O :=
  let memq := (s.memq o).insert s.offset p
  { s with
    memq := Function.update s.memq o memq
    links := memq.links none s.links
    pending := Function.update s.pending o none }

/-- The body of the loop of `anon_pager_cleanup`. -/
def cleanupBody (s : State P O) : Walk P → State P O
  | .body p => { pageDeref s p with derefs := s.derefs ++ [p] }
  | _ => s

inductive Event (P O : Type*) where
  | lookupAlloc (o : O) (offset : ℕ) (p : P)
  | lookupInsert (o : O)
  | pageRef (p : P)
  | pageDeref (p : P)
  /-- a page for another purpose than an object -/
  | pmmAlloc (p : P)
  | lastDeref
  | cleanup

/-- One step; nobody looks up pages of the target any more when its last reference is gone. -/
def step (target : O) (s : State P O) : Event P O → Option (State P O)
  | .lookupAlloc o offset p =>
    if (o = target → s.cleanup.isNone) ∧ s.pending o = none ∧
        ((s.memq o).find s.offset offset).isNone ∧ s.isFree p then
      some (lookupAlloc s o offset p)
    else none
  | .lookupInsert o => (s.pending o).map (lookupInsert s o)
  | .pageRef p =>
    if 0 < (s.pages p).shares then
      some { pageRef s p with extra := Function.update s.extra p (s.extra p + 1) }
    else none
  | .pageDeref p =>
    if 0 < s.extra p then
      some { pageDeref s p with extra := Function.update s.extra p (s.extra p - 1) }
    else none
  | .pmmAlloc p =>
    if s.isFree p then
      some { pmmAlloc s p (s.pages p).vmobj (s.pages p).offset with
        extra := Function.update s.extra p 1 }
    else none
  | .lastDeref =>
    if s.cleanup.isNone ∧ s.pending target = none then some { s with cleanup := some .start }
    else none
  | .cleanup =>
    match s.cleanup with
    | none => none
    | some w =>
      (w.step (s.memq target).root s.links).map (fun w' =>
        { cleanupBody s w with cleanup := some w', steps := s.steps + 1 })

omit [DecidableEq P] [DecidableEq O] in
/-- All pages are free, no object has pages. -/
def initial : State P O where
  pages := fun _ => ⟨0, none, 0⟩
  links := fun _ => ⟨none, none, none⟩
  isFree := fun _ => true
  memq := fun _ => .nil
  pending := fun _ => none
  extra := fun _ => 0
  cleanup := none
  derefs := []
  steps := 0

def system (P : Type*) [DecidableEq P] {O : Type*} [DecidableEq O] (target : O) :
    TransitionSystem (State P O) (Event P O) where
  init := fun s => s = initial
  step := step target

/-! ## Who holds a page -/

/-- Page `p` is held by objects through the lists `own`: once by the object on whose list it
stands, besides the other references. -/
structure PageOk (own : O → List P) (s : State P O) (p : P) : Prop where
  held : ∀ o, p ∈ own o → (s.pages p).vmobj = some o ∧ (s.pages p).shares = s.extra p + 1 ∧
    s.isFree p = false
  unheld : (∀ o, p ∉ own o) → (s.pages p).shares = s.extra p ∧ (s.isFree p = true ↔ s.extra p = 0)

/-- An object whose tree is intact. -/
structure ObjectOk (own : O → List P) (s : State P O) (o : O) : Prop where
  perm : (own o).Perm ((s.memq o).inorder ++ (s.pending o).toList)
  stored : Stored s.links none (s.memq o)
  fresh : ∀ p, s.pending o = some p → (s.memq o).find s.offset (s.offset p) = none

/-- The cleanup of the target: the pages on the target's list are those still to be met. -/
structure CleanupOk (target : O) (own : O → List P) (s : State P O) (w : Walk P) : Prop where
  pending : s.pending target = none
  walk : ∃ dead n, At s.links (s.memq target).root w (own target) dead n ∧
    (∀ p ∈ dead, ∀ o, p ∉ own o) ∧
    s.steps + n ≤ 4 * (s.memq target).inorder.length + 1
  derefs : s.derefs ++ own target = (s.memq target).inorder
  nodup : (s.memq target).inorder.Nodup

/-- **The invariant.** -/
structure Ok (target : O) (own : O → List P) (s : State P O) : Prop where
  nodup : ∀ o, (own o).Nodup
  disjoint : ∀ o o' p, p ∈ own o → p ∈ own o' → o = o'
  page : ∀ p, PageOk own s p
  object : ∀ o, (o = target → s.cleanup = none) → ObjectOk own s o
  cleanup : ∀ w, s.cleanup = some w → CleanupOk target own s w
  before : s.cleanup = none → s.derefs = [] ∧ s.steps = 0

variable {target : O} {own : O → List P} {s s' : State P O} {p : P}

omit [DecidableEq P] [DecidableEq O] in
theorem PageOk.notMem (h : PageOk own s p) (hfree : s.isFree p = true) (o : O) : p ∉ own o := by
  intro hp
  rw [(h.held o hp).2.2] at hfree
  cases hfree

end VmObject
