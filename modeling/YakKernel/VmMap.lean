/-
# Address spaces

The functions of `vm/map.c` that edit the entries of a map, and `vm_handle_fault` of
`vm/fault.c`, under the names of the source.  The tree of a map is the list of its entries in
key order; an entry is changed in place by its address.
-/
import YakKernel.Vm

namespace Vm

open Prog

/-! ## The tree of entries -/

/-- The key of `vm_map_entry_cmp`. -/
abbrev key : MapEntry → ℕ := MapEntry.base

/-- `RBT_INSERT`. -/
def rbtInsert (tree : List MapEntry) (entry : MapEntry) : List MapEntry :=
  KeyedTree.insert key entry tree

/-- `RBT_REMOVE`. -/
def rbtRemove (tree : List MapEntry) (entry : MapEntry) : List MapEntry :=
  tree.filter (fun e => e.ptr ≠ entry.ptr)

/-- `RBT_NEXT`. -/
def rbtNext (tree : List MapEntry) (entry : MapEntry) : Option MapEntry :=
  KeyedTree.next key tree entry

/-- `RBT_PREV`. -/
def rbtPrev (tree : List MapEntry) (entry : MapEntry) : Option MapEntry :=
  KeyedTree.prev key tree entry

/-- `map_lower_bound`: the lowest entry with `base >= addr`. -/
def mapLowerBound (tree : List MapEntry) (addr : ℕ) : Option MapEntry :=
  KeyedTree.lowerBound key tree addr

/-- A change of the entry at `entry.ptr`, seen by the tree when the entry is in it. -/
def storeEntry (tree : List MapEntry) (entry : MapEntry) : List MapEntry :=
  tree.map (fun e => if e.ptr = entry.ptr then entry else e)

/-- The addresses of an entry. -/
def MapEntry.Covers (entry : MapEntry) (address : ℕ) : Prop :=
  entry.base ≤ address ∧ address < entry.endAddr

instance (entry : MapEntry) (address : ℕ) : Decidable (entry.Covers address) :=
  inferInstanceAs (Decidable (_ ∧ _))

/-- `vm_map_lookup_entry_locked`. -/
def vmMapLookupEntryLocked (tree : List MapEntry) (address : ℕ) : Option MapEntry :=
  tree.find? (fun entry => entry.Covers address)

/-! ## Entries -/

/-- `init_map_entry` on zeroed memory at `ptr`. -/
def initMapEntry (ptr offset base endAddr : ℕ) (prot : Prot) (inheritance : Inheritance)
    (cache : ℕ) (type : EntryType) : MapEntry where
  ptr := ptr
  base := base
  endAddr := endAddr
  type := type
  mmioAddr := 0
  object := none
  offset := offset
  isCow := inheritance = .copy
  amap := none
  protection := prot
  maxProtection := prot
  inheritance := inheritance
  cache := cache

/-- A new piece of `entry` with the range and offset given, as `carve_entry` makes it. -/
def carvePiece (entry : MapEntry) (ptr offset base endAddr : ℕ) : MapEntry :=
  let piece := { initMapEntry ptr offset base endAddr entry.protection entry.inheritance
    entry.cache entry.type with maxProtection := entry.maxProtection }
  if entry.type = .obj then { piece with object := entry.object, amap := entry.amap } else piece

/-- The references that a new piece of `entry` takes. -/
def refPiece (entry : MapEntry) : VmM Unit := do
  if entry.type = .obj then
    ifSome entry.object vmObjectRef
    ifSome entry.amap vmAmapRef

/-- The part of `carve_entry` under `need_left`: the entry as it is left, or `none` when the
allocation fails. -/
def carveLeft (m : ℕ) (entry : MapEntry) (splitBase : ℕ) : VmM (Option MapEntry) := do
  if entry.base < splitBase then
    match ← kmalloc with
    | none => return none
    | some ptr => do
      refPiece entry
      let left := carvePiece entry ptr entry.offset entry.base splitBase
      change (fun s => s.setTree m (rbtInsert (s.tree m) left))
      return some { entry with
        base := splitBase
        offset := wadd entry.offset (wsub splitBase entry.base) }
  else
    return some entry

/-- The part of `carve_entry` under `need_right`, and its `else` branch. -/
def carveRight (m : ℕ) (entry : MapEntry) (splitBase splitEnd : ℕ) :
    VmM (Option MapEntry) := do
  if splitEnd < entry.endAddr then
    match ← kmalloc with
    | none => return none
    | some ptr => do
      refPiece entry
      let right := carvePiece entry ptr (wadd entry.offset (wsub splitEnd splitBase))
        splitEnd entry.endAddr
      change (fun s => s.setTree m (rbtInsert (s.tree m) right))
      return some { entry with endAddr := splitEnd }
  else
    check (entry.endAddr = splitEnd) .assertion
    return some entry

/-- `carve_entry`; also returns the entry as it is left. -/
def carveEntry (m : ℕ) (entry : MapEntry) (splitBase splitEnd : ℕ) :
    VmM (Status × MapEntry) := do
  check (entry.base ≤ splitBase ∧ splitBase < entry.endAddr) .assertion
  check (entry.base ≤ splitEnd ∧ splitEnd < entry.endAddr) .assertion
  check (entry.base < splitBase ∨ splitEnd < entry.endAddr) .assertion
  change (fun s => s.setTree m (rbtRemove (s.tree m) entry))
  match ← carveLeft m entry splitBase with
  | none => return (.oom, entry)
  | some entry =>
    match ← carveRight m entry splitBase splitEnd with
    | none => return (.oom, entry)
    | some entry => do
      change (fun s => s.setTree m (rbtInsert (s.tree m) entry))
      return (.success, entry)

/-- The call of `carve_entry` in `vm_protect`: only when the entry sticks out of the range. -/
def carveToRange (m : ℕ) (entry : MapEntry) (splitBase splitEnd : ℕ) :
    VmM (Status × MapEntry) :=
  if entry.base ≠ splitBase ∨ entry.endAddr ≠ splitEnd then
    carveEntry m entry splitBase splitEnd
  else pure (.success, entry)

/-! ## Protection -/

/-- `vm_check_prot`: write, then execute, then read. -/
def vmCheckProt (maxProt newProt : Prot) : Bool :=
  if newProt.write && !maxProt.write then false
  else if newProt.execute && !(maxProt.execute || maxProt.write) then false
  else if newProt.read && !(maxProt.read || maxProt.execute || maxProt.write) then false
  else true

/-- Where the loops of `vm_protect` and `vm_unmap` start: the first entry that may overlap
the addresses from `start` on, in a tree that is not empty. -/
def firstOverlap (tree : List MapEntry) (start : ℕ) : Option MapEntry :=
  match (mapLowerBound tree start).or tree.getLast? with
  | none => none
  | some current =>
    match rbtPrev tree current with
    | none => some current
    | some prev => if start < prev.endAddr then some prev else some current

/-- One round of the loop of `vm_protect`. -/
def protectRound (m searchBase searchEnd : ℕ) (prot : Prot) (flags : MapFlags)
    (current : Option MapEntry) : VmM (Option MapEntry ⊕ Status) := do
  match current with
  | none => return .inr .success
  | some current =>
    if searchEnd ≤ current.base then
      return .inr .success
    let s ← getState
    let next := rbtNext (s.tree m) current
    if current.endAddr ≤ searchBase ∨ searchEnd ≤ current.base then
      return .inl next
    let splitBase := max current.base searchBase
    let splitEnd := min current.endAddr searchEnd
    let (rv, current) ← carveToRange m current splitBase splitEnd
    if rv.isErr then
      return .inr rv
    if !flags.setMaxProt && !vmCheckProt current.maxProtection prot then
      return .inr .permDenied
    let current := { current with
      maxProtection := if flags.setMaxProt then prot else current.maxProtection
      protection := prot }
    change (fun s => s.setTree m (storeEntry (s.tree m) current))
    pmapProtectRange m current.base (current.endAddr - current.base) prot current.cache
    return .inl next

/-- `vm_protect`. -/
def vmProtect (m va length : ℕ) (prot : Prot) (flags : MapFlags) : VmM Status := do
  if ¬ IsAligned va ∨ ¬ IsAligned length then
    return .invalidArgs
  guardRwlock m (if flags.lockHeld then none else some .exclusive) do
    let s ← getState
    if s.tree m = [] then
      return .success
    loop (protectRound m va (wadd va length) prot flags) .diverges
      ((s.tree m).length + 1) (firstOverlap (s.tree m) va)

/-! ## Unmapping -/

/-- Drop what an object entry refers to, as `vm_unmap` does. -/
def derefEntry (entry : MapEntry) : VmM Unit := do
  if entry.type = .obj then
    match entry.object with
    | none => fail .assertion
    | some o => do
      ifSome entry.amap vmAmapDeref
      vmObjectDeref o

/-- The call of `carve_entry` in `vm_unmap`, and the search for the piece to remove. -/
def carveAndFind (m : ℕ) (entry : MapEntry) (splitBase splitEnd : ℕ) :
    VmM (Status × Option MapEntry) := do
  if entry.base ≠ splitBase ∨ entry.endAddr ≠ splitEnd then
    let (rv, _) ← carveEntry m entry splitBase splitEnd
    let s ← getState
    return (rv, mapLowerBound (s.tree m) splitBase)
  else
    return (.success, some entry)

/-- One round of the loop of `vm_unmap`. -/
def unmapRound (m start endAddr : ℕ) (current : Option MapEntry) :
    VmM (Option MapEntry ⊕ Status) := do
  match current with
  | none => return .inr .success
  | some current =>
    if endAddr ≤ current.base then
      return .inr .success
    let s ← getState
    let next := rbtNext (s.tree m) current
    if current.endAddr ≤ start ∨ endAddr ≤ current.base then
      return .inl next
    let splitBase := max current.base start
    let splitEnd := min current.endAddr endAddr
    let (rv, current) ← carveAndFind m current splitBase splitEnd
    if rv.isErr then
      return .inr rv
    match current with
    | none => fail .nullDeref
    | some current => do
      pmapUnmapRange m current.base (current.endAddr - current.base)
      derefEntry current
      change (fun s => s.setTree m (rbtRemove (s.tree m) current))
      return .inl next

/-- `vm_unmap`. -/
def vmUnmap (m va length : ℕ) (flags : MapFlags) : VmM Status := do
  let start := alignDown va
  let length := alignUp length
  guardRwlock m (if flags.lockHeld then none else some .exclusive) do
    let s ← getState
    if s.tree m = [] then
      return .success
    loop (unmapRound m start (wadd start length)) .diverges
      ((s.tree m).length + 1) (firstOverlap (s.tree m) start)

/-! ## Placing a new entry -/

/-- `kmap()`. -/
def kmap : ℕ := 0

/-- The bounds of the addresses of a map: `KERNEL_VA_BASE` and `KERNEL_VA_END`, or
`USER_VA_BASE` and `USER_VA_END`. -/
def vaBounds (m : ℕ) : ℕ × ℕ :=
  if m = kmap then (0xFFFFFFe000000000 + 2 ^ 35, 0xFFFFFFe000000000 + 2 ^ 36)
  else (0x1000, 2 ^ 47)

/-- The search of `alloc_map_range_locked` for a gap between `prev` and `next`: `none` is
`YAK_NOSPACE`. -/
def findGap (tree : List MapEntry) (minAddr maxAddr hint length : ℕ) :
    ℕ → Option MapEntry → Option MapEntry → ℕ → Bool → Except Failure (Option ℕ)
  | 0, _, _, _, _ => .error .diverges
  | fuel + 1, prev, next, base, wrapped =>
    let gapStart := max ((prev.map MapEntry.endAddr).getD minAddr) base
    let gapEnd := (next.map MapEntry.base).getD maxAddr
    if length ≤ wsub gapEnd gapStart then .ok (some gapStart)
    else
      match next with
      | none => .error .nullDeref
      | some prev =>
        match rbtNext tree prev with
        | some next => findGap tree minAddr maxAddr hint length fuel (some prev) (some next)
            base wrapped
        | none =>
          if prev.endAddr + length ≤ maxAddr then .ok (some prev.endAddr)
          else if hint = 0 ∨ wrapped then .ok none
          -- once around: start again from the bottom
          else findGap tree minAddr maxAddr hint length fuel none tree.head? minAddr true

/-- The search without `VM_MAP_FIXED`, from the hint clamped into the bounds. -/
def searchRange (tree : List MapEntry) (minAddr maxAddr hint length : ℕ) :
    Except Failure (Option ℕ) :=
  let base := if hint < minAddr then minAddr else hint
  let base := if maxAddr < base then maxAddr else base
  let fuel := 2 * tree.length + 2
  if tree = [] then
    if base + length ≤ maxAddr then .ok (some base)
    else if minAddr + length ≤ maxAddr then .ok (some minAddr)
    else .ok none
  else
    match mapLowerBound tree base with
    | none => .error .assertion
    | some next =>
      match rbtPrev tree next with
      | some prev => findGap tree minAddr maxAddr hint length fuel (some prev) (some next)
          base false
      | none =>
        if minAddr + length ≤ next.base then .ok (some minAddr)
        else findGap tree minAddr maxAddr hint length fuel (some next) (rbtNext tree next)
          base false

/-- The checks of `alloc_map_range_locked` with `VM_MAP_FIXED`. -/
def fixedRange (m base length : ℕ) (flags : MapFlags) : VmM (Except Status ℕ) := do
  let (minAddr, maxAddr) := vaBounds m
  if base < minAddr then
    return .error .invalidArgs
  if wadd base length < base then
    return .error .invalidArgs
  if maxAddr < wadd base length then
    return .error .invalidArgs
  let s ← getState
  let next := mapLowerBound (s.tree m) base
  let prev := match next with
    | some next => rbtPrev (s.tree m) next
    | none => (s.tree m).getLast?
  if prev.any (fun prev => base < prev.endAddr) ||
      next.any (fun next => next.base < wadd base length) then
    if !flags.overwrite then
      return .error .exists
    let _ ← vmUnmap m base length { lockHeld := true }
  return .ok base

/-- The base that `alloc_map_range_locked` chooses. -/
def chooseBase (m hint length : ℕ) (flags : MapFlags) : VmM (Except Status ℕ) := do
  let (minAddr, maxAddr) := vaBounds m
  if length = 0 then
    return .error .invalidArgs
  if maxAddr - minAddr < length then
    return .error .nospace
  if flags.fixed then
    fixedRange m hint length flags
  else
    let s ← getState
    match searchRange (s.tree m) minAddr maxAddr hint length with
    | .error e => fail e
    | .ok none => return .error .nospace
    | .ok (some base) => return .ok base

/-- `alloc_map_range_locked`; the new entry is also returned. -/
def allocMapRangeLocked (m hint length : ℕ) (prot : Prot) (inheritance : Inheritance)
    (cache offset : ℕ) (type : EntryType) (flags : MapFlags) :
    VmM (Except Status MapEntry) := do
  let (minAddr, maxAddr) := vaBounds m
  match ← chooseBase m hint length flags with
  | .error rv => return .error rv
  | .ok base => do
    check (minAddr ≤ base ∨ wadd base length < maxAddr) .assertion
    match ← kmalloc with
    | none => fail .nullDeref
    | some ptr => do
      let entry := initMapEntry ptr offset base (wadd base length) prot inheritance cache type
      change (fun s => s.setTree m (rbtInsert (s.tree m) entry))
      return .ok entry

/-- No access: what `vm_map_reserve` passes for `prot`. -/
def Prot.zero : Prot := ⟨false, false, false, false, false⟩

/-- `vm_map_reserve`, with the address it stores in `*out`. -/
def vmMapReserve (m hint length : ℕ) (flags : MapFlags) : VmM (Status × ℕ) :=
  guardRwlock m (some .exclusive) do
    match ← allocMapRangeLocked m hint length .zero .none 0 0 .reserved flags with
    | .error rv => return (rv, 0)
    | .ok entry => return (.success, entry.base)

/-- `vm_map_mmio`, with the address it stores in `*out`. -/
def vmMapMmio (m deviceAddr length : ℕ) (prot : Prot) (cache : ℕ) :
    VmM (Status × Option ℕ) :=
  guardRwlock m (some .exclusive) do
    let roundedAddr := alignDown deviceAddr
    let offset := deviceAddr - roundedAddr
    match ← allocMapRangeLocked m 0 (alignUp (wadd offset length)) prot .none cache offset
        .mmio {} with
    | .error rv => return (rv, none)
    | .ok entry => do
      change (fun s => s.setTree m
        (storeEntry (s.tree m) { entry with mmioAddr := roundedAddr }))
      return (.success, some (entry.base + offset))

/-! ## Page faults -/

/-- What the memory at `ptr` holds: the entry, while it is in the tree. -/
def entryAt (m ptr : ℕ) : VmM MapEntry := do
  let env ← getEnv
  let s ← getState
  match (s.tree m).find? (fun e => e.ptr = ptr) with
  | some entry => pure entry
  | none => pure (env.freed s.clock ptr)

/-- "Handle Copy on Write" in `vm_handle_fault`, with `anon` locked: the anon, its page and
the protection to map it with. -/
def breakCow (a : ℕ) (panon : Option AmapIndex) (n page : ℕ) (prot : Prot)
    (flags : FaultFlags) : VmM (ℕ × ℕ × Prot) := do
  let s ← getState
  if 1 < (s.anons n).refcnt then
    if flags.read then
      return (n, page, prot.noWrite)
    else if flags.write then
      let copied ← vmAnonCopy n
      match panon with
      | none => fail .nullDeref
      | some i => do
        change (fun s => s.setSlot a i copied)
        vmAnonDeref n
        release (.anon n) .exclusive
        acquire (.anon copied) .exclusive
        let s ← getState
        match (s.anons copied).page with
        | none => fail .nullDeref
        | some page => return (copied, page, prot)
    else
      return (n, page, prot)
  else
    return (n, page, prot)

/-- The end of the copy-on-write path of `vm_handle_fault`, with `anon` locked. -/
def faultAnon (m a : ℕ) (panon : Option AmapIndex) (n address : ℕ) (entry : MapEntry)
    (flags : FaultFlags) : VmM Unit := do
  let s ← getState
  match (s.anons n).page with
  | none => fail .assertion
  | some page => do
    let (n, page, prot) ← breakCow a panon n page entry.protection flags
    pmapMap m address (pageToAddr page) prot entry.cache
    release (.anon n) .exclusive

/-- The copy-on-write path of `vm_handle_fault`, with the amap locked. -/
def faultCow (m a object backingOffset address : ℕ) (entry : MapEntry) (flags : FaultFlags) :
    VmM Unit := do
  let panon ← vmAmapLookup a backingOffset { locked := true }
  let s ← getState
  match panon.bind (s.slot a) with
  | some n => faultAnon m a panon n address entry flags
  | none => do
    let backingPage ← vmLookuppage object backingOffset
    if flags.write then
      let n ← vmAmapFillLocked a backingOffset backingPage
      acquire (.anon n) .exclusive
      faultAnon m a panon n address entry flags
    else
      pmapMap m address (pageToAddr backingPage) entry.protection.noWrite entry.cache

/-- What `vm_handle_fault` does for an object entry under the exclusive lock. -/
def faultObject (m : ℕ) (entry : MapEntry) (address backingOffset : ℕ) (flags : FaultFlags) :
    VmM Unit := do
  match entry.object with
  | none => fail .assertion
  | some object =>
    if entry.isCow then
      match entry.amap with
      | none => fail .assertion
      | some a =>
        guardMutex (.amap a) (faultCow m a object backingOffset address entry flags)
    else
      let page ← vmLookuppage object backingOffset
      pmapMap m address (pageToAddr page) entry.protection entry.cache

/-- `vm_handle_fault`. -/
def vmHandleFault (m address : ℕ) (flags : FaultFlags) : VmM Status := do
  let address := alignDown address
  acquire (.map m) .shared
  let s ← getState
  match vmMapLookupEntryLocked (s.tree m) address with
  | none => do
    release (.map m) .shared
    return if address < pageSize then .nullDeref else .noent
  | some entry =>
    let backingOffset := wadd (wsub address entry.base) entry.offset
    match entry.type with
    | .reserved => do
      release (.map m) .shared
      return if address < pageSize then .nullDeref else .noent
    | .mmio => do
      if !entry.protection.write && flags.write then
        return .permDenied
      pmapMap m address (wadd entry.mmioAddr backingOffset) entry.protection entry.cache
      release (.map m) .shared
      return .success
    | .obj => do
      if !entry.protection.write && flags.write then
        return .permDenied
      rwlockUpgradeToExclusive m
      let entry ← entryAt m entry.ptr
      faultObject m entry address backingOffset flags
      release (.map m) .exclusive
      return .success

/-! ## Mapping objects -/

/-- The object of a new mapping: `obj`, or a fresh one when it is `NULL`. -/
def mapObject (obj : Option ℕ) : VmM ℕ :=
  match obj with
  | none => vmAobjCreate
  | some o => do
    vmObjectRef o
    pure o

/-- The amap of a new mapping. -/
def mapAmap (inheritance : Inheritance) (o : ℕ) : VmM (Option ℕ) :=
  if inheritance = .copy then some <$> vmAmapCreate o else pure none

/-- The loop of `vm_map` under `VM_MAP_PREFILL`. -/
def prefillRange (m addr length : ℕ) : VmM Unit :=
  forEach (fun k => do
    let rv ← vmHandleFault m (wadd addr (k * pageSize)) { prefill := true }
    check (rv.isErr = false) .panic) (List.range ((length + pageSize - 1) / pageSize))

/-- The new entry of `vm_map`, with its object and its amap. -/
def mapNewEntry (m : ℕ) (obj : Option ℕ) (length offset : ℕ) (prot : Prot)
    (inheritance : Inheritance) (cache hint : ℕ) (flags : MapFlags) :
    VmM (Except Status MapEntry) := do
  match ← allocMapRangeLocked m hint length prot inheritance cache offset .obj flags with
  | .error rv => return .error rv
  | .ok entry => do
    let o ← mapObject obj
    let amap ← mapAmap inheritance o
    let entry := { entry with object := some o, isCow := inheritance = .copy, amap := amap }
    change (fun s => s.setTree m (storeEntry (s.tree m) entry))
    return .ok entry

/-- `vm_map`, with the address it stores in `*out`. -/
def vmMap (m : ℕ) (obj : Option ℕ) (length offset : ℕ) (prot : Prot)
    (inheritance : Inheritance) (cache hint : ℕ) (flags : MapFlags) :
    VmM (Status × Option ℕ) :=
  guardRwlock m (some .exclusive) do
    match ← mapNewEntry m obj length offset prot inheritance cache hint flags with
    | .error rv => return (rv, none)
    | .ok entry => do
      if flags.prefill then
        prefillRange m entry.base length
      return (.success, some entry.base)

/-- The backing of the copy `new` of `elm` in `vm_map_fork`. -/
def forkBacking (src : ℕ) (elm new : MapEntry) : VmM MapEntry :=
  match elm.type with
  | .mmio => pure { new with mmioAddr := elm.mmioAddr }
  | .reserved => pure new
  | .obj =>
    match elm.object with
    | none => fail .assertion
    | some o => do
      vmObjectRef o
      if elm.inheritance = .copy then
        match elm.amap with
        | none => fail .assertion
        | some a => do
          let copied ← vmAmapCopy a
          if elm.protection.write then
            pmapProtectRange src elm.base (elm.endAddr - elm.base)
              elm.protection.noWrite elm.cache
          return { new with object := some o, amap := some copied }
      else
        check (elm.isCow = false) .assertion
        return { new with object := some o }

/-- The copy of one entry in `vm_map_fork`. -/
def forkEntry (src dst : ℕ) (elm : MapEntry) : VmM Unit := do
  if elm.inheritance = .none then
    return ()
  match ← kmalloc with
  | none => fail .nullDeref
  | some ptr => do
    let new := { initMapEntry ptr elm.offset elm.base elm.endAddr elm.protection
      elm.inheritance elm.cache elm.type with maxProtection := elm.maxProtection }
    let new ← forkBacking src elm new
    change (fun s => s.setTree dst (rbtInsert (s.tree dst) new))

/-- `vm_map_fork` from the map `src` to the map `dst`. -/
def vmMapFork (src dst : ℕ) : VmM Status :=
  guardRwlock src (some .shared) do
    guardRwlock dst (some .exclusive) do
      let s ← getState
      forEach (forkEntry src dst) (s.tree src)
      return .success

end Vm
