/-
# The vmem resource allocator

`vm/vmem.c`: an arena hands out segments of the spans that it was given with `vmem_add` or that
it imports from its source.  Boundary tags describe the spans and segments; all of them stand in
the queue `all_tags`, each span before its segments, free segments also on the free list of their
size class, allocated ones on the hash list of their start.

Addresses and sizes are words of 64 bits.  The pool of unused tags that all arenas share does not
run out; a failing assertion or a null pointer ends the run.
-/
import YakKernel.TransitionSystem
import YakKernel.SegmentQueue
import Mathlib.Data.Nat.Log
import Mathlib.Tactic

namespace Vmem

open SegmentQueue

/-! ## Words -/

/-- Addition of 64-bit words. -/
def wadd (a b : ℕ) : ℕ := (a + b) % 2 ^ 64

/-- Subtraction of 64-bit words. -/
def wsub (a b : ℕ) : ℕ := (a + 2 ^ 64 - b) % 2 ^ 64

/-- `ALIGN_UP`, for a power of two. -/
def alignUp (size align : ℕ) : ℕ := wadd size (align - 1) / align * align

/-- `murmur64`. -/
def murmur64 (h : ℕ) : ℕ :=
  let h := h ^^^ (h >>> 33)
  let h := (h * 0xff51afd7ed558ccd) % 2 ^ 64
  let h := h ^^^ (h >>> 33)
  let h := (h * 0xc4ceb9fe1a85ec53) % 2 ^ 64
  h ^^^ (h >>> 33)

/-! ## Arenas -/

/-- `vmem_tag_type_t`. -/
inductive TagType where
  | null
  | span
  | spanImported
  | free
  | allocated
  deriving DecidableEq

/-- `struct vmem_tag`, without its links. -/
structure VmemTag where
  type : TagType
  start : ℕ
  size : ℕ
  deriving DecidableEq

/-- `struct vmem`.  The tags from `spare` on are the unused ones of the shared pool.  A write
before the array `freelists` lands on the tail pointer of `all_tags`: `clobbered`.  Ghosts: the
spans that `afunc` has handed out and those given to `ffunc`, and the allocations that have not
been freed. -/
structure Arena where
  tags : ℕ → VmemTag
  spare : ℕ
  freetags : List ℕ
  allTags : List ℕ
  freelists : ℕ → List ℕ
  hashlists : ℕ → List ℕ
  spanlist : List ℕ
  clobbered : Bool
  imports : List (ℕ × ℕ)
  releases : List (ℕ × ℕ)
  live : List (ℕ × ℕ)

/-- `FREELIST_COUNT`. -/
def freelistCount : ℕ := 64

/-- `freelist_idx`; `freelist_list` takes the list before it. -/
def freelistIdx (size : ℕ) : ℕ := Nat.log 2 size

/-- `hash_index`. -/
def hashIndex (ptr : ℕ) : ℕ := murmur64 ptr % 16

/-! ## Tags -/

/-- `tag_refill`: keep more than `BT_MINRESERVED` tags. -/
def tagRefill (s : Arena) : Arena :=
  { s with
    freetags := ((List.range (5 - s.freetags.length)).map (s.spare + ·)).reverse ++ s.freetags
    spare := s.spare + (5 - s.freetags.length) }

/-- `tag_alloc`; `populate` is `VM_POPULATE`. -/
def tagAlloc (s : Arena) (populate : Bool) : Option (ℕ × Arena) :=
  let s := if populate then s else tagRefill s
  match s.freetags with
  | [] => none
  | t :: ts => some (t, { s with freetags := ts })

/-- `tag_free`. -/
def tagFree (s : Arena) (t : ℕ) : Arena := { s with freetags := t :: s.freetags }

/-- Write a tag. -/
def setTag (s : Arena) (t : ℕ) (tag : VmemTag) : Arena :=
  { s with tags := Function.update s.tags t tag }

/-- `LIST_REMOVE` from whichever list the tag is on. -/
def listRemove (s : Arena) (t : ℕ) : Arena :=
  { s with
    freelists := fun i => (s.freelists i).erase t
    hashlists := fun i => (s.hashlists i).erase t
    spanlist := s.spanlist.erase t }

/-- `insert_free`; there is no list before the first one. -/
def insertFree (s : Arena) (t : ℕ) : Arena :=
  match freelistIdx (s.tags t).size with
  | 0 => { s with clobbered := true }
  | i + 1 => { s with freelists := Function.update s.freelists i (t :: s.freelists i) }

/-- `insert_alloc`. -/
def insertAlloc (s : Arena) (t : ℕ) : Arena :=
  let idx := hashIndex (s.tags t).start
  { s with hashlists := Function.update s.hashlists idx (t :: s.hashlists idx) }

/-- `lookup_alloc`, with the assertion that the sizes agree. -/
def lookupAlloc (s : Arena) (addr size : ℕ) : Option ℕ :=
  match (s.hashlists (hashIndex addr)).find? (fun t => (s.tags t).start = addr) with
  | none => none
  | some t => if (s.tags t).size = size then some t else none

/-! ## Spans -/

/-- Put the tag of a span behind that of the span `after`, or first. -/
def insertSpan (s : Arena) (after : Option ℕ) (spanTag : ℕ) : Arena :=
  match after with
  | some after =>
    { s with
      spanlist := insertAfter after spanTag s.spanlist
      allTags := match nextOf after s.spanlist with
        | some next => insertBefore next spanTag s.allTags
        | none => s.allTags ++ [spanTag] }
  | none =>
    { s with
      spanlist := spanTag :: s.spanlist
      allTags := spanTag :: s.allTags }

/-- `vmem_add_locked`: spans that are not imported stay sorted by address. -/
def vmemAddLocked (s : Arena) (addr size : ℕ) (spanType : TagType) (populate : Bool) :
    Option Arena := do
  let (spanTag, s) ← tagAlloc s populate
  let (freeTag, s) ← tagAlloc s populate
  let after := if spanType ≠ .spanImported then
      (s.spanlist.takeWhile (fun t => (s.tags t).start ≤ addr)).getLast?
    else none
  let s := setTag s spanTag ⟨spanType, addr, size⟩
  let s := setTag s freeTag ⟨.free, addr, size⟩
  let s := insertSpan s after spanTag
  let s := { s with allTags := insertAfter spanTag freeTag s.allTags }
  pure (insertFree s freeTag)

/-! ## Allocation -/

/-- The part of the segment before the allocation, as a free segment of its own. -/
def splitLeft (s : Arena) (tag at_ left : ℕ) : Arena :=
  let start := (s.tags tag).start
  if start < at_ then
    let s := setTag s left ⟨.free, start, wsub at_ start⟩
    insertFree { s with allTags := insertBefore tag left s.allTags } left
  else tagFree s left

/-- The part behind it. -/
def splitRight (s : Arena) (tag at_ size right : ℕ) : Arena :=
  let segEnd := wadd (s.tags tag).start (s.tags tag).size
  if wadd at_ size < segEnd then
    let s := setTag s right ⟨.free, wadd at_ size, wsub segEnd (wadd at_ size)⟩
    insertFree { s with allTags := insertAfter tag right s.allTags } right
  else tagFree s right

/-- `split_seg`. -/
def splitSeg (s : Arena) (tag at_ size left right : ℕ) : Option Arena :=
  if (s.tags tag).type ≠ .free then none
  else
    let s := listRemove s tag
    let s := splitLeft s tag at_ left
    let s := splitRight s tag at_ size right
    some (insertAlloc (setTag s tag ⟨.allocated, at_, size⟩) tag)

/-- The flags of an allocation. -/
structure Flags where
  populate : Bool
  instantfit : Bool
  bestfit : Bool

/-- Where the allocation would start in a segment, if it fits between the bounds. -/
def fitStart (size minaddr maxaddr : ℕ) (tag : VmemTag) : Option ℕ :=
  if minaddr ≠ 0 ∧ wadd tag.start tag.size ≤ minaddr then none
  else if maxaddr ≠ 0 ∧ maxaddr ≤ tag.start then none
  else
    let low := minaddr ≠ 0 ∧ tag.start < minaddr
    let curStart := if low then minaddr else tag.start
    let curSize := if low then wsub tag.size (wsub minaddr tag.start) else tag.size
    let curSize := if maxaddr ≠ 0 ∧ maxaddr < wadd curStart curSize then wsub maxaddr curStart
      else curSize
    if curSize < size then none else some curStart

/-- One round of the best fit. -/
def betterFit (s : Arena) (fit : VmemTag → Option ℕ) (best : Option (ℕ × ℕ)) (elm : ℕ) :
    Option (ℕ × ℕ) :=
  match fit (s.tags elm) with
  | none => best
  | some curStart =>
    match best with
    | none => some (elm, curStart)
    | some b => if (s.tags elm).size < (s.tags b.1).size then some (elm, curStart) else some b

/-- The search in one free list. -/
def searchList (s : Arena) (fit : VmemTag → Option ℕ) (instantfit : Bool) (list : List ℕ) :
    Option (ℕ × ℕ) :=
  if instantfit then list.findSome? (fun elm => (fit (s.tags elm)).map (fun at_ => (elm, at_)))
  else list.foldl (betterFit s fit) none

/-- The search from the list of the size's class on: the segment and where the allocation starts
in it.  Without a policy it is the instant fit. -/
def search (s : Arena) (size minaddr maxaddr : ℕ) (flags : Flags) : Option (ℕ × ℕ) :=
  (List.range' (freelistIdx size - 1) (freelistCount - (freelistIdx size - 1))).findSome?
    (fun i => searchList s (fitStart size minaddr maxaddr)
      (flags.instantfit || !flags.bestfit) (s.freelists i))

/-- The end of `vmem_xalloc`: the segment was found. -/
def takeSeg (s : Arena) (size minaddr maxaddr left right : ℕ) (best at_ : ℕ) :
    Option (Option ℕ × Arena) :=
  if size ≤ (s.tags best).size ∧ (minaddr = 0 ∨ minaddr ≤ at_) ∧
      (maxaddr = 0 ∨ wadd at_ size ≤ maxaddr) then
    (splitSeg (listRemove s best) best at_ size left right).map (fun s => (some at_, s))
  else none

/-- `vmem_xalloc` in an arena whose source, if any, has quantum `2 ^ source`; `rv` is what
`afunc` returns. -/
def vmemXalloc (source : Option ℕ) (s : Arena) (size minaddr maxaddr : ℕ) (flags : Flags)
    (rv : ℕ) : Option (Option ℕ × Arena) := do
  if size = 0 then none
  let (left, s) ← tagAlloc s flags.populate
  let (right, s) ← tagAlloc s flags.populate
  match search s size minaddr maxaddr flags with
  | some (best, at_) => takeSeg s size minaddr maxaddr left right best at_
  | none =>
    match source with
    | none => pure (none, s)
    | some k =>
      if minaddr ≠ 0 ∨ maxaddr ≠ 0 then none
      else if rv = 0 then pure (none, s)
      else do
        let s := { s with imports := (rv, alignUp size (2 ^ k)) :: s.imports }
        let s ← vmemAddLocked s rv (alignUp size (2 ^ k)) .spanImported flags.populate
        match search s size minaddr maxaddr flags with
        | some (best, at_) => takeSeg s size minaddr maxaddr left right best at_
        | none => pure (none, s)

/-! ## Freeing -/

/-- Merge the freed segment with the free one before it: the tag that stays. -/
def mergeLeft (s : Arena) (tag left : ℕ) : ℕ × Arena :=
  if (s.tags left).type = .free then
    let size := (s.tags tag).size
    let s := { s with allTags := s.allTags.erase tag }
    let s := listRemove s left
    let s := setTag s left { s.tags left with size := wadd (s.tags left).size size }
    (left, tagFree s tag)
  else (tag, s)

/-- Merge it with the free one after it. -/
def mergeRight (s : Arena) (tag : ℕ) (right : Option ℕ) : ℕ × Arena :=
  match right with
  | none => (tag, s)
  | some right =>
    if (s.tags right).type = .free then
      let t := s.tags tag
      let s := { s with allTags := s.allTags.erase tag }
      let s := listRemove s right
      let s := setTag s right ⟨.free, t.start, wadd (s.tags right).size t.size⟩
      (right, tagFree s tag)
    else (tag, s)

/-- Give an imported span back to the source. -/
def releaseSpan (s : Arena) (tag span : ℕ) : Arena :=
  let s := { s with releases := ((s.tags span).start, (s.tags span).size) :: s.releases }
  let s := tagFree { s with allTags := s.allTags.erase tag } tag
  let s := listRemove s span
  tagFree { s with allTags := s.allTags.erase span } span

/-- The end of `vmem_xfree`: give the span back, or put the segment on its free list. -/
def finishFree (s : Arena) (tag left : ℕ) : Option Arena :=
  if (s.tags left).type = .spanImported ∧ (s.tags tag).size = (s.tags left).size then
    match nextOf tag s.allTags with
    | none => some (releaseSpan s tag left)
    | some right =>
      if (s.tags right).type = .spanImported ∨ (s.tags right).type = .span then
        some (releaseSpan s tag left)
      else none
  else some (insertFree s tag)

/-- `vmem_xfree`. -/
def vmemXfree (s : Arena) (addr size : ℕ) : Option Arena := do
  if addr = 0 ∨ size = 0 then none
  let tag ← lookupAlloc s addr size
  let s := listRemove s tag
  let s := setTag s tag { s.tags tag with type := .free }
  let left ← prevOf tag s.allTags
  let (tag, s) := mergeLeft s tag left
  let left ← prevOf tag s.allTags
  let (tag, s) := mergeRight s tag (nextOf tag s.allTags)
  finishFree s tag left

/-! ## The system -/

inductive Event where
  | add (addr size : ℕ) (populate : Bool)
  | xalloc (size minaddr maxaddr : ℕ) (flags : Flags) (rv : ℕ)
  | xfree (addr size : ℕ)

theorem pair_lawful : LawfulBEq (ℕ × ℕ) := inferInstance

attribute [local instance] pair_lawful

/-- One call.  Sizes are multiples of 8, and what is freed is a live allocation with its own
size; nothing is known of the arena once a tag was put on the list before the first one. -/
def step (source : Option ℕ) (s : Arena) : Event → Option Arena
  | .add addr size populate =>
    if s.clobbered = false ∧ size % 8 = 0 ∧ addr < 2 ^ 64 ∧ size < 2 ^ 64 then
      vmemAddLocked s addr size .span populate
    else none
  | .xalloc size minaddr maxaddr flags rv =>
    if s.clobbered = false ∧ size % 8 = 0 ∧ size < 2 ^ 64 ∧ minaddr < 2 ^ 64 ∧
        maxaddr < 2 ^ 64 ∧ rv < 2 ^ 64 then
      (vmemXalloc source s size minaddr maxaddr flags rv).map (fun r =>
        match r.1 with
        | none => r.2
        | some addr => { r.2 with live := (addr, size) :: s.live })
    else none
  | .xfree addr size =>
    if s.clobbered = false ∧ (addr, size) ∈ s.live then
      (vmemXfree s addr size).map (fun s' => { s' with live := s.live.erase (addr, size) })
    else none

/-- An arena without a span. -/
def initial : Arena where
  tags := fun _ => ⟨.null, 0, 0⟩
  spare := 0
  freetags := []
  allTags := []
  freelists := fun _ => []
  hashlists := fun _ => []
  spanlist := []
  clobbered := false
  imports := []
  releases := []
  live := []

/-- The runs of an arena. -/
def system (source : Option ℕ) : TransitionSystem Arena Event where
  init := fun s => s = initial
  step := step source

end Vmem
