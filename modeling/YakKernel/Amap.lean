/-
# Anonymous maps

`vm/amap.c`: the anons of a mapping by the offset in the object, in three levels of tables like
those of a page table.  `kmalloc` returns a new address, and every allocation is zeroed; a pointer
is an address or `0` for `NULL`.  Locks and the reference counts of the amap and its object are
left out.
-/
import YakKernel.RadixTree
import YakKernel.TransitionSystem

namespace Amap

/-! ## Memory -/

/-- Entry `i` of the table at an address; of an amap, whose only pointer is `l3`, entry `0`.  Then
the reference counts of the anons, and the next address that `kmalloc` returns. -/
structure Heap where
  mem : ℕ → ℕ → ℕ
  refs : ℕ → ℕ
  next : ℕ

/-- `kzalloc`, whose result is the old `next`. -/
@[simps -fullyApplied]
def Heap.alloc (h : Heap) : Heap :=
  { h with mem := Function.update h.mem h.next (fun _ => 0), next := h.next + 1 }

@[simps -fullyApplied]
def Heap.store (h : Heap) (table i pointer : ℕ) : Heap :=
  { h with mem := Function.update h.mem table (Function.update (h.mem table) i pointer) }

/-- `vm_anon_ref`. -/
@[simps -fullyApplied]
def Heap.anonRef (h : Heap) (anon : ℕ) : Heap :=
  { h with refs := Function.update h.refs anon (h.refs anon + 1) }

/-! ## `locked_amap_lookup` -/

/-- `elementsof(entries)`. -/
def entries : ℕ := 512

/-- `l3i`, `l2i` and `l1i` of an offset. -/
def l3i (offset : ℕ) : ℕ := offset / 2 ^ 12 / 2 ^ 18 % 512

def l2i (offset : ℕ) : ℕ := offset / 2 ^ 12 / 2 ^ 9 % 512

def l1i (offset : ℕ) : ℕ := offset / 2 ^ 12 % 512

/-- A new table at an entry. -/
def Heap.addTable (h : Heap) (table i : ℕ) : Heap := h.alloc.store table i h.next

/-- The table behind entry `i`; with `create` there always is one. -/
def nextTable (create : Bool) (table i : ℕ) (h : Heap) : Option (ℕ × Heap) :=
  if h.mem table i ≠ 0 then some (h.mem table i, h)
  else if create then some (h.next, h.addTable table i)
  else none

/-- The tables behind some entries, one after the other. -/
def descend (create : Bool) : List ℕ → ℕ → Heap → Option (ℕ × Heap)
  | [], table, h => some (table, h)
  | i :: path, table, h => (nextTable create table i h).bind (fun r => descend create path r.1 r.2)

/-- A `struct vm_anon **`. -/
structure Slot where
  table : ℕ
  index : ℕ
  deriving DecidableEq

/-- The indices that lead from the amap to the table of the slot. -/
def pathOf (offset : ℕ) : List ℕ := [0, l3i offset, l2i offset]

/-- `vm_amap_lookup`. -/
def vmAmapLookup (amap offset : ℕ) (create : Bool) (h : Heap) : Option (Slot × Heap) :=
  (descend create (pathOf offset) amap h).map (fun r => (⟨r.1, l1i offset⟩, r.2))

/-- `*slot`. -/
def Heap.read (h : Heap) (slot : Slot) : ℕ := h.mem slot.table slot.index

/-- `*slot = anon`. -/
def Heap.write (h : Heap) (slot : Slot) (anon : ℕ) : Heap := h.store slot.table slot.index anon

/-! ## `vm_amap_copy` -/

/-- The loops over the entries of a table at a level; on the lowest one the anons are shared. -/
def copyTable : ℕ → ℕ → ℕ → Heap → Heap
  | 0, table, copy, h => (List.range entries).foldl (fun h i =>
      if h.mem table i = 0 then h
      else (h.anonRef (h.mem table i)).store copy i (h.mem table i)) h
  | lvl + 1, table, copy, h => (List.range entries).foldl (fun h i =>
      if h.mem table i = 0 then h
      else copyTable lvl (h.mem table i) h.next (h.addTable copy i)) h

/-- `vm_amap_copy`, to the amap at the old `next`. -/
def vmAmapCopy (amap : ℕ) (h : Heap) : Heap :=
  if h.alloc.mem amap 0 = 0 then h.alloc
  else copyTable 2 (h.alloc.mem amap 0) h.alloc.next (h.alloc.addTable h.next 0)

/-! ## Runs -/

/-- The heap and the amaps. -/
structure State where
  heap : Heap
  amaps : List ℕ

/-- The calls: `vm_amap_create`, a slot that is looked up and filled or cleared, and
`vm_amap_copy`. -/
inductive Event where
  | create
  | fill (amap offset anon : ℕ)
  | copy (amap : ℕ)

/-- A slot is looked up with `VM_AMAP_CREATE` and set. -/
def fillSlot (amap offset anon : ℕ) (h : Heap) : Option Heap :=
  (vmAmapLookup amap offset true h).map (fun r => r.2.write r.1 anon)

/-- The step of a call. -/
def step (s : State) : Event → Option State
  | .create => some ⟨s.heap.alloc, s.heap.next :: s.amaps⟩
  | .fill amap offset anon =>
    if amap ∈ s.amaps then (fillSlot amap offset anon s.heap).map (fun h => ⟨h, s.amaps⟩) else none
  | .copy amap =>
    if amap ∈ s.amaps then some ⟨vmAmapCopy amap s.heap, s.heap.next :: s.amaps⟩ else none

/-- Amaps, from none on. -/
def system : TransitionSystem State Event where
  init := fun s => s.amaps = [] ∧ 0 < s.heap.next
  step := step

/-! ## What is to hold -/

/-- The anon of an offset, as a lookup finds it. -/
def anonAt (h : Heap) (amap offset : ℕ) : ℕ :=
  (vmAmapLookup amap offset false h).elim 0 (fun r => r.2.read r.1)

/-- What an amap is for, at two offsets: their slots are different, what is written to the first
is read there and leaves the second alone, and a copy has what the amap has. -/
structure Faithful (s : State) (amap o₁ o₂ : ℕ) : Prop where
  slots : ∃ slot₁ h₁ slot₂ h₂, vmAmapLookup amap o₁ true s.heap = some (slot₁, h₁) ∧
    vmAmapLookup amap o₂ true h₁ = some (slot₂, h₂) ∧ slot₁ ≠ slot₂
  fill : ∀ anon, ∃ h, fillSlot amap o₁ anon s.heap = some h ∧ anonAt h amap o₁ = anon ∧
    anonAt h amap o₂ = anonAt s.heap amap o₂
  copy : ∀ offset, anonAt (vmAmapCopy amap s.heap) s.heap.next offset = anonAt s.heap amap offset

end Amap
