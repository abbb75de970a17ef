/-
# The virtual memory layer: data, locks, pages, objects and amaps

The data of `vm/map.h`, `vm/amap.h`, `vm/anon.h`, `vm/object.h` and `vm/page.h`, and the
functions of `vm/amap.c`, `vm/anon.c`, `vm/object.c`, `vm/aobj.c`, `vm/page.c` and the part of
`vm/generic_pmap.c` that the maps use, as programs run by one thread.

A structure on the heap is known by its address, which is never given out twice; a page by its
page frame number.  What the thread does not decide is read from `Env`: the outcome of an
allocation, whether the map lock has another reader, and what the other threads have done to
the state by the time a lock is granted.
-/
import Mathlib.Data.List.AList
import YakKernel.KeyedTree
import YakKernel.ProgramLogic
import YakKernel.Status

namespace Vm

/-! ## Words and pages -/

/-- `PAGE_SHIFT`. -/
def pageShift : ℕ := 12

/-- `PAGE_SIZE`. -/
def pageSize : ℕ := 4096

/-- Addition of 64-bit words. -/
def wadd (a b : ℕ) : ℕ := (a + b) % 2 ^ 64

/-- Subtraction of 64-bit words. -/
def wsub (a b : ℕ) : ℕ := (a + 2 ^ 64 - b) % 2 ^ 64

/-- `ALIGN_DOWN(addr, PAGE_SIZE)`. -/
def alignDown (addr : ℕ) : ℕ := addr / pageSize * pageSize

/-- `ALIGN_UP(addr, PAGE_SIZE)`. -/
def alignUp (addr : ℕ) : ℕ := wadd addr (pageSize - 1) / pageSize * pageSize

/-- `IS_ALIGNED_POW2(addr, PAGE_SIZE)`. -/
def IsAligned (addr : ℕ) : Prop := addr % pageSize = 0

instance (addr : ℕ) : Decidable (IsAligned addr) :=
  inferInstanceAs (Decidable (addr % pageSize = 0))

/-! ## Flags -/

/-- The bits of `vm_prot_t` that a mapping carries. -/
structure Prot where
  read : Bool
  write : Bool
  execute : Bool
  user : Bool
  global : Bool
  deriving DecidableEq, Repr

/-- `prot & ~VM_WRITE`. -/
def Prot.noWrite (prot : Prot) : Prot := { prot with write := false }

/-- `vm_inheritance_t`. -/
inductive Inheritance : Type where
  | none
  | shared
  | copy
  deriving DecidableEq, Repr

/-- The mapping types of a map entry. -/
inductive EntryType : Type where
  | mmio
  | obj
  | reserved
  deriving DecidableEq, Repr

/-- The `VM_FAULT_` flags. -/
structure FaultFlags where
  user : Bool := false
  read : Bool := false
  write : Bool := false
  prefill : Bool := false
  deriving DecidableEq, Repr

/-- The `VM_MAP_` flags. -/
structure MapFlags where
  fixed : Bool := false
  overwrite : Bool := false
  prefill : Bool := false
  lockHeld : Bool := false
  setMaxProt : Bool := false
  deriving DecidableEq, Repr

/-- The `VM_AMAP_` flags. -/
structure AmapFlags where
  create : Bool := false
  locked : Bool := false
  dontLockAnon : Bool := false
  deriving DecidableEq, Repr

/-! ## The data -/

/-- `struct vm_map_entry`, with its address `ptr`; the members of its union are apart. -/
structure MapEntry where
  ptr : ℕ
  base : ℕ
  endAddr : ℕ
  type : EntryType
  mmioAddr : ℕ
  object : Option ℕ
  offset : ℕ
  isCow : Bool
  amap : Option ℕ
  protection : Prot
  maxProtection : Prot
  inheritance : Inheritance
  cache : ℕ
  deriving DecidableEq, Repr

/-- A page table entry that is not zero. -/
structure Pte where
  pa : ℕ
  prot : Prot
  cache : ℕ
  deriving DecidableEq, Repr

/-- `ptePresent`, as `pte_make` sets it. -/
def Pte.present (pte : Pte) : Bool := pte.prot.read || pte.prot.write

/-- `pteWrite`, as `pte_make` sets it. -/
def Pte.writable (pte : Pte) : Bool := pte.prot.write

/-- `struct vm_map` without its lock: the entries in key order, and the leaf entries of the
page tables by virtual page number. -/
structure VmMap where
  mapTree : List MapEntry
  pmap : ℕ → Option Pte

/-- The three indices `l3i`, `l2i` and `l1i` of a slot. -/
abbrev AmapIndex := ℕ × ℕ × ℕ

/-- `struct vm_amap` without its lock; `slots` are the entries of its tables that are not
`NULL`. -/
structure VmAmap where
  refcnt : ℕ
  obj : ℕ
  slots : AList (fun _ : AmapIndex => ℕ)

/-- `struct vm_anon` without its lock. -/
structure VmAnon where
  page : Option ℕ
  offset : ℕ
  refcnt : ℕ
  deriving DecidableEq, Repr

/-- `struct vm_object` without its lock; `memq` gives the page at an offset. -/
structure VmObject where
  memq : AList (fun _ : ℕ => ℕ)
  refcnt : ℕ

/-- `struct page`: its references and its place in an object. -/
structure Page where
  shares : ℕ
  vmobj : Option ℕ
  offset : ℕ
  deriving DecidableEq, Repr

/-- The locks of the layer. -/
inductive Lock : Type where
  | map (m : ℕ)
  | object (o : ℕ)
  | amap (a : ℕ)
  | anon (n : ℕ)
  deriving DecidableEq, Repr

/-- How a thread holds a lock; a mutex is held exclusively. -/
inductive LockMode : Type where
  | shared
  | exclusive
  deriving DecidableEq, Repr

/-- The ways in which a call does not return. -/
inductive Failure : Type where
  | assertion
  | panic
  | nullDeref
  /-- The thread asks for a lock it holds itself; a second shared lock counts as well, since it
  waits as soon as another thread asks for an exclusive one. -/
  | waitsForOwn (l : Lock)
  /-- The thread releases a lock it does not hold. -/
  | notOwner (l : Lock)
  | diverges
  /-- The page allocator has handed out a page in use: not an answer it gives. -/
  | pageInUse
  deriving DecidableEq, Repr

end Vm

/-- The state of the virtual memory layer, with the locks that the running thread holds, the
next heap address, and a clock that counts the questions put to the environment. -/
structure Vm where
  maps : ℕ → Vm.VmMap
  objects : ℕ → Vm.VmObject
  amaps : ℕ → Vm.VmAmap
  anons : ℕ → Vm.VmAnon
  pages : ℕ → Vm.Page
  data : ℕ → ℕ → ℕ
  held : Vm.Lock → Option Vm.LockMode
  heapNext : ℕ
  clock : ℕ

namespace Vm

/-- What the running thread does not decide; the number is the time of the question. -/
structure Env where
  /-- What the other threads have done to the state when a lock is granted. -/
  interfere : ℕ → Vm → Vm
  /-- Whether the caller is the only reader of the map lock it upgrades. -/
  soleReader : ℕ → Bool
  /-- Whether an allocation from the heap succeeds. -/
  kmalloc : ℕ → Bool
  /-- The page that the page allocator hands out. -/
  pmmAlloc : ℕ → Option ℕ
  /-- What the memory of a freed map entry holds. -/
  freed : ℕ → ℕ → MapEntry

/-- Programs of the layer. -/
abbrev VmM := Prog Env Failure Vm

open Prog

/-! ## Changes of the state -/

/-- Change the entries of a map. -/
@[simps -fullyApplied] def setTree (s : Vm) (m : ℕ) (tree : List MapEntry) : Vm :=
  { s with maps := Function.update s.maps m { s.maps m with mapTree := tree } }

/-- Change the page tables of a map. -/
@[simps -fullyApplied] def setPmap (s : Vm) (m : ℕ) (pmap : ℕ → Option Pte) : Vm :=
  { s with maps := Function.update s.maps m { s.maps m with pmap := pmap } }

@[simps -fullyApplied] def setObject (s : Vm) (o : ℕ) (object : VmObject) : Vm :=
  { s with objects := Function.update s.objects o object }

@[simps -fullyApplied] def setAmap (s : Vm) (a : ℕ) (amap : VmAmap) : Vm :=
  { s with amaps := Function.update s.amaps a amap }

@[simps -fullyApplied] def setAnon (s : Vm) (n : ℕ) (anon : VmAnon) : Vm :=
  { s with anons := Function.update s.anons n anon }

@[simps -fullyApplied] def setPage (s : Vm) (pg : ℕ) (page : Page) : Vm :=
  { s with pages := Function.update s.pages pg page }

/-- Change the bytes of a page. -/
@[simps -fullyApplied] def setData (s : Vm) (pg : ℕ) (bytes : ℕ → ℕ) : Vm :=
  { s with data := Function.update s.data pg bytes }

@[simps -fullyApplied] def setHeld (s : Vm) (l : Lock) (mode : Option LockMode) : Vm :=
  { s with held := Function.update s.held l mode }

/-- A question has been put to the environment. -/
@[simps -fullyApplied] def tick (s : Vm) : Vm := { s with clock := s.clock + 1 }

/-- The entries of a map. -/
def tree (s : Vm) (m : ℕ) : List MapEntry := (s.maps m).mapTree

/-- The leaf entry for a virtual page. -/
def pte (s : Vm) (m vpn : ℕ) : Option Pte := (s.maps m).pmap vpn

@[simp] theorem tree_setTree (s : Vm) (m : ℕ) (t : List MapEntry) : (s.setTree m t).tree m = t := by
  simp [tree]

@[simp] theorem tree_setPmap (s : Vm) (m m' : ℕ) (pmap : ℕ → Option Pte) :
    (s.setPmap m pmap).tree m' = s.tree m' := by
  by_cases h : m' = m
  · subst h
    simp [tree]
  · simp [tree, h]

/-! ## Locks -/

/-- The thread holds no mutex. -/
def NoMutex (held : Lock → Option LockMode) : Prop := ∀ l, (∀ m, l ≠ .map m) → held l = none

/-- The state in which a lock is granted: the others may have changed everything but what
the thread holds. -/
@[simps -fullyApplied] def granted (env : Env) (s : Vm) : Vm :=
  { env.interfere s.clock s with held := s.held, clock := s.clock + 1 }

/-- Take a lock: `kmutex_acquire`, `rwlock_acquire_shared` and `rwlock_acquire_exclusive`
without a timeout. -/
def acquire (l : Lock) (mode : LockMode) : VmM Unit := do
  let env ← getEnv
  let s ← getState
  check (s.held l = none) (.waitsForOwn l)
  change (fun s => (granted env s).setHeld l (some mode))

/-- Give a lock back: `kmutex_release`, `rwlock_release_shared` and
`rwlock_release_exclusive`. -/
def release (l : Lock) (mode : LockMode) : VmM Unit := do
  let s ← getState
  check (s.held l = some mode) (.notOwner l)
  change (fun s => s.setHeld l none)

/-- `rwlock_upgrade_to_exclusive`. -/
def rwlockUpgradeToExclusive (m : ℕ) : VmM Unit := do
  let env ← getEnv
  let s ← getState
  change tick
  if env.soleReader s.clock then
    -- `state == 1` and the exchange succeeds
    check (s.held (.map m) = some .shared) (.notOwner (.map m))
    change (fun s => s.setHeld (.map m) (some .exclusive))
  else
    release (.map m) .shared
    acquire (.map m) .exclusive

/-- `guard(mutex)` over the rest of a block. -/
def guardMutex {α : Type} (l : Lock) (body : VmM α) : VmM α := do
  acquire l .exclusive
  let r ← body
  release l .exclusive
  pure r

/-- `guard(rwlock)` over the rest of a function; `none` is `RWLOCK_GUARD_SKIP`. -/
def guardRwlock {α : Type} (m : ℕ) (type : Option LockMode) (body : VmM α) : VmM α :=
  match type with
  | none => body
  | some mode => do
    acquire (.map m) mode
    let r ← body
    release (.map m) mode
    pure r

section Locks

variable {α : Type} {env : Env} {s : Vm} {l : Lock} {m : ℕ} {mode : LockMode} {R : Failure → Prop}

theorem ends_acquire {Q : Unit → Vm → Prop} (h : s.held l = none) :
    (acquire l mode).Ends env s Q R ↔ Q () ((granted env s).setHeld l (some mode)) := by
  simp [acquire, h]

theorem ends_release {Q : Unit → Vm → Prop} (h : s.held l = some mode) :
    (release l mode).Ends env s Q R ↔ Q () (s.setHeld l none) := by
  simp [release, h]

theorem ends_guardRwlock {body : VmM α} {Q : α → Vm → Prop} (h : s.held (.map m) = none)
    (hbody : body.Ends env ((granted env s).setHeld (.map m) (some mode))
      (fun a s' => s'.held (.map m) = some mode ∧ Q a (s'.setHeld (.map m) none)) R) :
    (guardRwlock m (some mode) body).Ends env s Q R := by
  simp only [guardRwlock, ends_bind, ends_acquire h]
  refine hbody.imp ?_
  rintro a s' ⟨hl, hQ⟩
  rw [ends_release hl]
  exact hQ

end Locks

/-! ## The heap -/

/-- `kmalloc` and `kzalloc`: the address of a new structure, or `NULL`. -/
def kmalloc : VmM (Option ℕ) := do
  let env ← getEnv
  let s ← getState
  change tick
  if env.kmalloc s.clock then
    change (fun s => { s with heapNext := s.heapNext + 1 })
    pure (some s.heapNext)
  else
    pure none

/-- `kfree` of a structure with a mutex in it: the mutex is gone with it. -/
def kfreeLock (l : Lock) : VmM Unit := change (fun s => s.setHeld l none)

/-! ## Pages -/

/-- `vm_pagealloc`. -/
def vmPagealloc (vmobj : Option ℕ) (offset : ℕ) : VmM (Option ℕ) := do
  let env ← getEnv
  let s ← getState
  change tick
  match env.pmmAlloc s.clock with
  | none => pure none
  | some pg => do
    check ((s.pages pg).shares = 0) .pageInUse
    change (fun s => s.setPage pg ⟨1, vmobj, offset⟩)
    pure (some pg)

/-- `page_deref`; a page without references belongs to the page allocator. -/
def pageDeref (pg : ℕ) : VmM Unit :=
  change (fun s => s.setPage pg { s.pages pg with shares := (s.pages pg).shares - 1 })

/-- `page_zero`. -/
def pageZero (pg : ℕ) : VmM Unit := change (fun s => s.setData pg (fun _ => 0))

/-- `memcpy` of a whole page. -/
def memcpyPage (dst src : ℕ) : VmM Unit := change (fun s => s.setData dst (s.data src))

/-- `page_to_addr`. -/
def pageToAddr (pg : ℕ) : ℕ := pg * pageSize

/-! ## Page tables -/

/-- `pmap_map` at level 0. -/
def pmapMap (m va pa : ℕ) (prot : Prot) (cache : ℕ) : VmM Unit := do
  check (prot.read = true) .assertion
  change (fun s => s.setPmap m
    (Function.update (s.maps m).pmap (va / pageSize) (some ⟨pa, prot, cache⟩)))

/-- The pages visited by `for (i = 0; i < length; i += PAGE_SIZE)` over `va + i`. -/
def InPages (va length vpn : ℕ) : Prop :=
  va / pageSize ≤ vpn ∧ vpn < va / pageSize + (length + pageSize - 1) / pageSize

instance (va length vpn : ℕ) : Decidable (InPages va length vpn) :=
  inferInstanceAs (Decidable (_ ∧ _))

/-- `pmap_unmap_range` at level 0. -/
def pmapUnmapRange (m va length : ℕ) : VmM Unit :=
  change (fun s => s.setPmap m
    (fun vpn => if InPages va length vpn then none else (s.maps m).pmap vpn))

/-- `pmap_protect_range` at level 0: entries that are zero stay zero. -/
def pmapProtectRange (m va length : ℕ) (prot : Prot) (cache : ℕ) : VmM Unit :=
  change (fun s => s.setPmap m
    (fun vpn => if InPages va length vpn then
      ((s.maps m).pmap vpn).map (fun pte => ⟨pte.pa, prot, cache⟩)
    else (s.maps m).pmap vpn))

/-! ## Objects -/

/-- `vm_aobj_create`. -/
def vmAobjCreate : VmM ℕ := do
  match ← kmalloc with
  | none => fail .nullDeref
  | some o => do
    change (fun s => s.setObject o ⟨∅, 1⟩)
    pure o

/-- `anon_pager_get`, the only pager. -/
def anonPagerGet (obj offset : ℕ) : VmM ℕ := do
  check (IsAligned offset) .assertion
  match ← vmPagealloc (some obj) offset with
  | none => fail .nullDeref
  | some pg => do
    pageZero pg
    pure pg

/-- `anon_pager_cleanup`. -/
def anonPagerCleanup (obj : ℕ) : VmM Unit := do
  let s ← getState
  forEach (fun elm : Sigma (fun _ : ℕ => ℕ) => pageDeref elm.2) (s.objects obj).memq.entries
  kfreeLock (.object obj)

/-- `vm_object_ref`. -/
def vmObjectRef (o : ℕ) : VmM Unit :=
  change (fun s => s.setObject o { s.objects o with refcnt := (s.objects o).refcnt + 1 })

/-- `vm_object_deref`. -/
def vmObjectDeref (o : ℕ) : VmM Unit := do
  let s ← getState
  change (fun s => s.setObject o { s.objects o with refcnt := (s.objects o).refcnt - 1 })
  if (s.objects o).refcnt = 1 then anonPagerCleanup o

/-- `vm_lookuppage` without `LOOKUP_ONLY`. -/
def vmLookuppage (obj offset : ℕ) : VmM ℕ :=
  guardMutex (.object obj) do
    let s ← getState
    match (s.objects obj).memq.lookup offset with
    | some pg => pure pg
    | none => do
      let pg ← anonPagerGet obj offset
      change (fun s => s.setObject obj
        { s.objects obj with memq := (s.objects obj).memq.insert offset pg })
      pure pg

/-! ## Anons -/

/-- `vm_anon_create`. -/
def vmAnonCreate (page offset : ℕ) : VmM ℕ := do
  match ← kmalloc with
  | none => fail .nullDeref
  | some n => do
    change (fun s => s.setAnon n ⟨some page, offset, 1⟩)
    pure n

/-- `vm_anon_free`. -/
def vmAnonFree (n : ℕ) : VmM Unit := do
  let s ← getState
  ifSome (s.anons n).page (fun pg => do
    pageDeref pg
    change (fun s => s.setAnon n { s.anons n with page := none }))
  kfreeLock (.anon n)

/-- `vm_anon_ref`. -/
def vmAnonRef (n : ℕ) : VmM Unit :=
  change (fun s => s.setAnon n { s.anons n with refcnt := (s.anons n).refcnt + 1 })

/-- `vm_anon_deref`. -/
def vmAnonDeref (n : ℕ) : VmM Unit := do
  let s ← getState
  change (fun s => s.setAnon n { s.anons n with refcnt := (s.anons n).refcnt - 1 })
  if (s.anons n).refcnt = 1 then vmAnonFree n

/-- `vm_anon_copy`. -/
def vmAnonCopy (n : ℕ) : VmM ℕ := do
  let s ← getState
  match (s.anons n).page with
  | none => fail .nullDeref
  | some src => do
    match ← vmPagealloc (s.pages src).vmobj (s.pages src).offset with
    | none => fail .nullDeref
    | some dst => do
      memcpyPage dst src
      vmAnonCreate dst (s.anons n).offset

/-! ## Amaps -/

/-- The table indices of an offset. -/
def amapIndex (offset : ℕ) : AmapIndex :=
  let pg := offset >>> 12
  ((pg >>> 18) &&& 511, (pg >>> 9) &&& 511, pg &&& 511)

/-- What a slot points to. -/
def slot (s : Vm) (a : ℕ) (i : AmapIndex) : Option ℕ := (s.amaps a).slots.lookup i

/-- Store an anon in a slot. -/
def setSlot (s : Vm) (a : ℕ) (i : AmapIndex) (n : ℕ) : Vm :=
  s.setAmap a { s.amaps a with slots := (s.amaps a).slots.insert i n }

/-- Store `NULL` in a slot. -/
def clearSlot (s : Vm) (a : ℕ) (i : AmapIndex) : Vm :=
  s.setAmap a { s.amaps a with slots := (s.amaps a).slots.erase i }

/-- `vm_amap_create`. -/
def vmAmapCreate (obj : ℕ) : VmM ℕ := do
  match ← kmalloc with
  | none => fail .assertion
  | some a => do
    change (fun s => s.setAmap a ⟨1, obj, ∅⟩)
    vmObjectRef obj
    pure a

/-- `amap_free_all`. -/
def amapFreeAll (a : ℕ) : VmM Unit := do
  let s ← getState
  forEach (fun ent : Sigma (fun _ : AmapIndex => ℕ) => do
    vmAnonDeref ent.2
    change (fun s => s.clearSlot a ent.1)) (s.amaps a).slots.entries

/-- `amap_cleanup`. -/
def amapCleanup (a : ℕ) : VmM Unit := do
  acquire (.amap a) .exclusive
  amapFreeAll a
  let s ← getState
  vmObjectDeref (s.amaps a).obj
  kfreeLock (.amap a)

/-- `vm_amap_ref`. -/
def vmAmapRef (a : ℕ) : VmM Unit :=
  change (fun s => s.setAmap a { s.amaps a with refcnt := (s.amaps a).refcnt + 1 })

/-- `vm_amap_deref`. -/
def vmAmapDeref (a : ℕ) : VmM Unit := do
  let s ← getState
  change (fun s => s.setAmap a { s.amaps a with refcnt := (s.amaps a).refcnt - 1 })
  if (s.amaps a).refcnt = 1 then amapCleanup a

/-- `locked_amap_lookup`: the slot, or `NULL`; a table that is missing and a slot that is
empty are the same to every caller. -/
def lockedAmapLookup (a offset : ℕ) (flags : AmapFlags) : VmM (Option AmapIndex) := do
  let s ← getState
  match s.slot a (amapIndex offset) with
  | none => pure (if flags.create then some (amapIndex offset) else none)
  | some n => do
    if flags.dontLockAnon then pure () else acquire (.anon n) .exclusive
    pure (some (amapIndex offset))

/-- `vm_amap_lookup`. -/
def vmAmapLookup (a offset : ℕ) (flags : AmapFlags) : VmM (Option AmapIndex) :=
  if flags.locked then lockedAmapLookup a offset flags
  else guardMutex (.amap a) (lockedAmapLookup a offset flags)

/-- `vm_amap_copy`. -/
def vmAmapCopy (a : ℕ) : VmM ℕ :=
  guardMutex (.amap a) do
    let s ← getState
    let newAmap ← vmAmapCreate (s.amaps a).obj
    let s ← getState
    forEach (fun ent : Sigma (fun _ : AmapIndex => ℕ) => do
      vmAnonRef ent.2
      change (fun s => s.setSlot newAmap ent.1 ent.2)) (s.amaps a).slots.entries
    pure newAmap

/-- `vm_amap_fill_locked`. -/
def vmAmapFillLocked (a offset backingPage : ℕ) : VmM ℕ := do
  match ← vmAmapLookup a offset { create := true, locked := true } with
  | none => fail .nullDeref
  | some i => do
    let s ← getState
    check (s.slot a i = none) .assertion
    match ← vmPagealloc none 0 with
    | none => fail .nullDeref
    | some dst => do
      memcpyPage dst backingPage
      let n ← vmAnonCreate dst 0
      change (fun s => s.setSlot a i n)
      pure n

/-! ## A machine at rest -/

/-- No map has entries, every page is free, and no lock is held. -/
def empty : Vm where
  maps := fun _ => ⟨[], fun _ => none⟩
  objects := fun _ => ⟨∅, 0⟩
  amaps := fun _ => ⟨0, 0, ∅⟩
  anons := fun _ => ⟨none, 0, 0⟩
  pages := fun _ => ⟨0, none, 0⟩
  data := fun _ _ => 0
  held := fun _ => none
  heapNext := 1
  clock := 0

/-- An environment in which nobody else runs and allocations succeed, with the pages that the
page allocator hands out. -/
def Env.alone (pmmAlloc : ℕ → Option ℕ) : Env where
  interfere := fun _ s => s
  soleReader := fun _ => true
  kmalloc := fun _ => true
  pmmAlloc := pmmAlloc
  freed := fun _ ptr => ⟨ptr, 0, 0, .reserved, 0, none, 0, false, none,
    ⟨false, false, false, false, false⟩, ⟨false, false, false, false, false⟩, .none, 0⟩

end Vm
