/-
# Page tables

`vm/generic_pmap.c` with the entries of `x86_64`, for four levels.  A call is one step; the pages
that `pmm_alloc_zeroed` returns in it come with the call.  The end of a run, by a failed assertion,
a panic or an access outside an array, is `none`; so is a loop that does not end.  The
invalidations and shootdowns of a call do not touch the tables and are left out.
-/
import YakKernel.RadixTree
import YakKernel.TransitionSystem

namespace Pmap

/-! ## Entries -/

abbrev Pte := BitVec 64
abbrev Paddr := BitVec 64
abbrev Vaddr := BitVec 64
abbrev VmProt := BitVec 32
abbrev VmCache := BitVec 32

def ptePresent : Pte := 0x1
def pteWrite : Pte := 0x2
def pteUser : Pte := 0x4
def ptePwt : Pte := 0x8
def ptePcd : Pte := 0x10
def ptePat : Pte := 0x80
def ptePagesize : Pte := 0x80
def pteGlobal : Pte := 0x100
def ptePatLarge : Pte := 0x1000
def pteAddress : Pte := 0x000FFFFFFFFFF000
def pteNoExecute : Pte := 0x8000000000000000

def vmRead : VmProt := 0x1
def vmWrite : VmProt := 0x2
def vmExecute : VmProt := 0x4
def vmUser : VmProt := 0x8
def vmGlobal : VmProt := 0x10

def vmUc : VmCache := 0
def vmWc : VmCache := 1
def vmWt : VmCache := 2
def vmWb : VmCache := 3

/-- `pte_is_zero`. -/
def pteIsZero (pte : Pte) : Bool := pte = 0

/-- `pte_is_large`. -/
def pteIsLarge (pte : Pte) (lvl : ℕ) : Bool := 0 < lvl ∧ pte &&& ptePagesize ≠ 0

/-- `pte_paddr`. -/
def ptePaddr (pte : Pte) : Paddr := pte &&& pteAddress

/-- `pte_make_dir`. -/
def pteMakeDir (pa : Paddr) : Pte := ptePresent ||| pteWrite ||| pteUser ||| pa

/-- `pte_pat_bits`. -/
def ptePatBits (level : ℕ) (cache : VmCache) : Pte :=
  if cache = vmWc then (if 0 < level then ptePatLarge else ptePat) ||| ptePwt
  else if cache = vmWt then ptePwt
  else if cache = vmWb then 0
  -- the source sets `ptePwt | ptePwt`
  else if cache = vmUc then ptePwt ||| ptePwt
  else ptePcd ||| ptePwt

/-- `pte_make`. -/
def pteMake (level : ℕ) (pa : Paddr) (prot : VmProt) (cache : VmCache) : Pte :=
  (if prot &&& vmRead ≠ 0 then ptePresent else 0) |||
  (if prot &&& vmWrite ≠ 0 then ptePresent ||| pteWrite else 0) |||
  (if prot &&& vmExecute ≠ 0 then 0 else pteNoExecute) |||
  (if prot &&& vmUser ≠ 0 then pteUser else 0) |||
  (if prot &&& vmGlobal ≠ 0 then pteGlobal else 0) |||
  (if 0 < level then ptePagesize else 0) |||
  ptePatBits level cache ||| pa

/-- `(va >> PMAP_LEVEL_SHIFTS[lvl]) & ((1ULL << PMAP_LEVEL_BITS[lvl]) - 1)`. -/
def levelIndex (va : Vaddr) (lvl : ℕ) : ℕ := ((va >>> (12 + 9 * lvl)) &&& 511).toNat

/-- The indices from the root on, as many as `depth`. -/
def pathTo (va : Vaddr) : ℕ → List ℕ
  | 0 => []
  | depth + 1 => pathTo va depth ++ [levelIndex va (3 - depth)]

/-! ## The state -/

/-- What a page was allocated for: the table of `owner` at the end of `path`. -/
structure Table (P : Type) where
  owner : P
  path : List ℕ
  deriving DecidableEq

/-- The physical memory, page by page; of the initialised pmaps the root and whether a bit of
`mapped_on` is set; and the pages that the call will get.  What each page table in use was
allocated for, and the pages that a call has freed, are recorded. -/
structure State (P : Type) where
  mem : Paddr → ℕ → Pte
  topLevel : P → Paddr
  live : P → Bool
  mappedOn : P → Bool
  pool : List Paddr
  tables : Paddr → Option (Table P)
  freed : List Paddr

/-- The calls.  `mark` is what `vm_map_activate` does to `mapped_on`. -/
inductive Event (P : Type) where
  | init (p : P) (pages : List Paddr)
  | map (p : P) (va pa : Vaddr) (level : ℕ) (prot : VmProt) (cache : VmCache)
      (pages : List Paddr)
  | unmap (p : P) (va : Vaddr) (level : ℕ)
  | unmapRange (p : P) (va : Vaddr) (length : BitVec 64) (level : ℕ)
  | protectRange (p : P) (va : Vaddr) (length : BitVec 64) (prot : VmProt) (cache : VmCache)
      (level : ℕ)
  | destroy (p : P)
  | mark (p : P) (mapped : Bool)

/-- Tables of the upper half belong to the kernel. -/
def ownerOf {P : Type} (kernel p : P) : List ℕ → P
  | [] => p
  | i :: _ => if i < 256 then p else kernel

variable {P : Type} [DecidableEq P]

/-- `PTE_STORE(&table[i], pte)`. -/
@[simps -fullyApplied]
def State.pteStore (s : State P) (table : Paddr) (i : ℕ) (pte : Pte) : State P :=
  { s with mem := Function.update s.mem table (Function.update (s.mem table) i pte) }

/-- What `pmm_alloc_zeroed` promises of a page: it is none of the tables in use, not page 0, and
its address fits into an entry. -/
def State.Fresh (s : State P) (pa : Paddr) : Prop :=
  s.tables pa = none ∧ pa ≠ 0 ∧ ptePaddr pa = pa

instance (s : State P) (pa : Paddr) : Decidable (s.Fresh pa) :=
  inferInstanceAs (Decidable (_ ∧ _))

/-- The page is zeroed, and no longer available. -/
@[simps -fullyApplied]
def State.takePage (s : State P) (pa : Paddr) (rest : List Paddr) : State P :=
  { s with mem := Function.update s.mem pa (fun _ => 0), pool := rest }

/-- `pmm_alloc_zeroed`. -/
def State.pmmAllocZeroed (s : State P) : Option (Paddr × State P) :=
  match s.pool with
  | [] => some (0, s)
  | pa :: rest => if s.Fresh pa then some (pa, s.takePage pa rest) else none

@[simps -fullyApplied]
def State.record (s : State P) (pa : Paddr) (table : Option (Table P)) : State P :=
  { s with tables := Function.update s.tables pa table }

/-- `pmm_free`. -/
@[simps -fullyApplied]
def State.pmmFree (s : State P) (pa : Paddr) : State P :=
  { s with tables := Function.update s.tables pa none, freed := s.freed ++ [pa] }

/-! ## The calls -/

section

variable (kernel : P)

/-- A table of `p` is added at the entry for `va`, which is at level `lvl`. -/
def State.addTable (s : State P) (p : P) (va : Vaddr) (lvl : ℕ) (table pa : Paddr) : State P :=
  (s.pteStore table (levelIndex va lvl) (pteMakeDir pa)).record pa
    (some ⟨ownerOf kernel p (pathTo va (4 - lvl)), pathTo va (4 - lvl)⟩)

/-- The loop of `pte_fetch`, from level `lvl` on. -/
def fetchFrom (p : P) (va : Vaddr) (atLevel : ℕ) (alloc : Bool) :
    ℕ → Paddr → State P → Option (State P × Option (Paddr × ℕ))
  | 0, table, s =>
    if atLevel = 0 then some (s, some (table, levelIndex va 0))
    else if pteIsZero (s.mem table (levelIndex va 0)) ∧ ¬ alloc then some (s, none)
    -- `lvl--` wraps around, and the next access to `indexes` is outside the array
    else none
  | lvl + 1, table, s =>
    if atLevel = lvl + 1 then some (s, some (table, levelIndex va (lvl + 1)))
    else if pteIsZero (s.mem table (levelIndex va (lvl + 1))) then
      if alloc then
        (s.pmmAllocZeroed).bind (fun r =>
          -- `assert(pa != 0)`
          if r.1 = 0 then none
          else fetchFrom p va atLevel alloc lvl (ptePaddr (pteMakeDir r.1))
            (r.2.addTable kernel p va (lvl + 1) table r.1))
      else some (s, none)
    -- `assert(!pte_is_large(pte, lvl))`
    else if pteIsLarge (s.mem table (levelIndex va (lvl + 1))) (lvl + 1) then none
    else fetchFrom p va atLevel alloc lvl (ptePaddr (s.mem table (levelIndex va (lvl + 1)))) s

/-- `pte_fetch`. -/
def pteFetch (p : P) (va : Vaddr) (atLevel : ℕ) (alloc : Bool) (s : State P) :
    Option (State P × Option (Paddr × ℕ)) :=
  fetchFrom kernel p va atLevel alloc 3 (s.topLevel p) s

/-- `pmap_map`. -/
def pmapMap (p : P) (va pa : Vaddr) (level : ℕ) (prot : VmProt) (cache : VmCache) (s : State P) :
    Option (State P) :=
  -- `assert(prot & VM_READ)`
  if prot &&& vmRead = 0 then none
  else (pteFetch kernel p va level true s).bind (fun r =>
    -- `assert(ppte)`
    r.2.map (fun ppte => r.1.pteStore ppte.1 ppte.2 (pteMake level pa prot cache)))

/-- `do_unmap`; nothing there is `UINTPTR_MAX`. -/
def doUnmap (p : P) (va : Vaddr) (level : ℕ) (s : State P) : Option (State P × Paddr) :=
  (pteFetch kernel p va level false s).map (fun r =>
    r.2.elim (r.1, BitVec.allOnes 64)
      (fun ppte => (r.1.pteStore ppte.1 ppte.2 0, ptePaddr (r.1.mem ppte.1 ppte.2))))

/-- `pmap_unmap`. -/
def pmapUnmap (p : P) (va : Vaddr) (level : ℕ) (s : State P) : Option (State P × Paddr) :=
  doUnmap kernel p va level s

/-- `PMAP_LARGE_PAGE_SIZES`. -/
def pmapLargePageSizes : List ℕ := [2097152, 1073741824]

/-- `level == 0 ? PAGE_SIZE : PMAP_LARGE_PAGE_SIZES[level - 1]`. -/
def pgsz (level : ℕ) : Option ℕ := if level = 0 then some 4096 else pmapLargePageSizes[level - 1]?

/-- The values of `i` in `for (i = 0; i < length; i += pgsz)`; the loop does not end if `i` wraps
around. -/
def offsets (length : BitVec 64) (level : ℕ) : Option (List ℕ) :=
  (pgsz level).bind (fun pgsz =>
    if (length.toNat + pgsz - 1) / pgsz * pgsz < 2 ^ 64 then
      some ((List.range ((length.toNat + pgsz - 1) / pgsz)).map (fun k => k * pgsz))
    else none)

/-- `pmap_unmap_range`. -/
def pmapUnmapRange (p : P) (va : Vaddr) (length : BitVec 64) (level : ℕ) (s : State P) :
    Option (State P) :=
  (offsets length level).bind (fun offs => offs.foldlM (fun s i =>
    (doUnmap kernel p (va + BitVec.ofNat 64 i) level s).map Prod.fst) s)

/-- The body of the loop of `pmap_protect_range`. -/
def protectPage (p : P) (va : Vaddr) (prot : VmProt) (cache : VmCache) (level : ℕ) (s : State P) :
    Option (State P) :=
  (pteFetch kernel p va level false s).map (fun r =>
    r.2.elim r.1 (fun ppte =>
      if pteIsZero (r.1.mem ppte.1 ppte.2) then r.1
      else r.1.pteStore ppte.1 ppte.2
        (pteMake level (ptePaddr (r.1.mem ppte.1 ppte.2)) prot cache)))

/-- `pmap_protect_range`. -/
def pmapProtectRange (p : P) (va : Vaddr) (length : BitVec 64) (prot : VmProt) (cache : VmCache)
    (level : ℕ) (s : State P) : Option (State P) :=
  (offsets length level).bind (fun offs => offs.foldlM (fun s i =>
    protectPage kernel p (va + BitVec.ofNat 64 i) prot cache level s) s)

/-- `PMAP_LEVEL_ENTRIES[lvl]`, halved at the top: "Dont free kernel page tables!". -/
def limit (lvl : ℕ) : ℕ := if lvl = 3 then 512 / 2 else 512

/-- `pmap_free_table_level`. -/
def freeTableLevel : ℕ → Paddr → State P → State P
  | 0, table, s => (List.range (limit 0)).foldl (fun s i =>
      if pteIsZero (s.mem table i) then s else s.pteStore table i 0) s
  | lvl + 1, table, s => (List.range (limit (lvl + 1))).foldl (fun s i =>
      if pteIsZero (s.mem table i) then s
      else if pteIsLarge (s.mem table i) (lvl + 1) then s.pteStore table i 0
      else (freeTableLevel lvl (ptePaddr (s.mem table i)) s).pmmFree (ptePaddr (s.mem table i))) s

/-- `pmap_destroy`. -/
def pmapDestroy (p : P) (s : State P) : Option (State P) :=
  -- `assert(pmap->top_level != 0)`, `assert(pmap != &kmap()->pmap)`, "still mapped"
  if s.topLevel p = 0 ∨ p = kernel ∨ s.mappedOn p then none
  else
    let s' := (freeTableLevel 3 (s.topLevel p) { s with freed := [] }).pmmFree (s.topLevel p)
    some { s' with
      topLevel := Function.update s'.topLevel p 0
      live := Function.update s'.live p false }

/-- The root of `p` is set. -/
@[simps -fullyApplied]
def State.setRoot (s : State P) (p : P) (root : Paddr) : State P :=
  { s with
    topLevel := Function.update s.topLevel p root
    live := Function.update s.live p true
    tables := Function.update s.tables root (some ⟨p, []⟩) }

/-- An entry of the upper half is copied from the kernel's root. -/
def copyEntry (root : Paddr) (s : State P) (k : ℕ) : Option (State P) :=
  -- `assert(top_dir[i] != 0)`
  if s.mem (s.topLevel kernel) (256 + k) = 0 then none
  else some (s.pteStore root (256 + k) (s.mem (s.topLevel kernel) (256 + k)))

/-- `pmap_init`. -/
def pmapInit (p : P) (s : State P) : Option (State P) :=
  (s.pmmAllocZeroed).bind (fun r =>
    (List.range 256).foldlM (copyEntry kernel r.1) (r.2.setRoot p r.1))

/-- A table of the upper half is allocated. -/
def shareEntry (root : Paddr) (s : State P) (k : ℕ) : Option (State P) :=
  if pteIsZero (s.mem root (256 + k)) then
    (s.pmmAllocZeroed).map (fun r =>
      (r.2.pteStore root (256 + k) (pteMakeDir r.1)).record r.1 (some ⟨kernel, [256 + k]⟩))
  else some s

/-- `pmap_kernel_bootstrap`. -/
def pmapKernelBootstrap (s : State P) : Option (State P) :=
  (s.pmmAllocZeroed).bind (fun r =>
    (List.range 256).foldlM (shareEntry kernel r.1) (r.2.setRoot kernel r.1))

/-! ## Runs -/

/-- The step of a call. -/
def step (s : State P) (e : Event P) : Option (State P) :=
  match e with
  | .init p pages =>
    if s.live p ∨ p = kernel then none else pmapInit kernel p { s with pool := pages }
  | .map p va pa level prot cache pages =>
    if s.live p then pmapMap kernel p va pa level prot cache { s with pool := pages } else none
  | .unmap p va level =>
    if s.live p then (pmapUnmap kernel p va level s).map Prod.fst else none
  | .unmapRange p va length level =>
    if s.live p then pmapUnmapRange kernel p va length level s else none
  | .protectRange p va length prot cache level =>
    if s.live p then pmapProtectRange kernel p va length prot cache level s else none
  | .destroy p => if s.live p then pmapDestroy kernel p s else none
  | .mark p mapped =>
    if s.live p then some { s with mappedOn := Function.update s.mappedOn p mapped } else none

/-- Before the start: no pmap is initialised, and there are the pages that
`pmap_kernel_bootstrap` needs. -/
structure State.Blank (s : State P) : Prop where
  topLevel : ∀ p, s.topLevel p = 0
  live : ∀ p, s.live p = false
  tables : ∀ pa, s.tables pa = none
  pool : 257 ≤ s.pool.length

/-- Page tables, from the kernel's on. -/
def system : TransitionSystem (State P) (Event P) where
  init := fun s => ∃ s₀ : State P, s₀.Blank ∧ pmapKernelBootstrap kernel s₀ = some s
  step := step kernel

/-! ## What is to hold -/

omit [DecidableEq P]

/-- The table that an entry at a level points to. -/
def pteChild (lvl : ℕ) (pte : Pte) : Option Paddr :=
  if lvl ≠ 0 ∧ pteIsZero pte = false ∧ pteIsLarge pte lvl = false then some (ptePaddr pte)
  else none

/-- The table that entry `i` of a table points to. -/
def child (mem : Paddr → ℕ → Pte) (lvl : ℕ) (table : Paddr) (i : ℕ) : Option Paddr :=
  if i < 512 then pteChild lvl (mem table i) else none

/-- What the processor finds for `va`: the entry and its level. -/
def translate (mem : Paddr → ℕ → Pte) (va : Vaddr) : ℕ → Paddr → Option (Pte × ℕ)
  | 0, table =>
    if pteIsZero (mem table (levelIndex va 0)) then none
    else some (mem table (levelIndex va 0), 0)
  | lvl + 1, table =>
    if pteIsZero (mem table (levelIndex va (lvl + 1))) then none
    else if pteIsLarge (mem table (levelIndex va (lvl + 1))) (lvl + 1) then
      some (mem table (levelIndex va (lvl + 1)), lvl + 1)
    else translate mem va lvl (ptePaddr (mem table (levelIndex va (lvl + 1))))

/-- The translation of `va` by pmap `p`. -/
def State.translation (s : State P) (p : P) (va : Vaddr) : Option (Pte × ℕ) :=
  translate s.mem va 3 (s.topLevel p)

/-- The translations of the kernel's half are those of the kernel. -/
def State.SharesKernelHalf (s : State P) : Prop :=
  ∀ p, s.live p → ∀ va, 256 ≤ levelIndex va 3 → s.translation p va = s.translation kernel va

/-- The pages that `pmap_destroy` frees are the tables of `p`'s user half and its root, each once;
no table of the kernel's half and no mapped frame that is no table of `p`. -/
structure State.DestroysExactly (s : State P) (p : P) (freed : List Paddr) : Prop where
  table : ∀ pg path, path ≠ [] → s.tables pg = some ⟨p, path⟩ → freed.count pg = 1
  root : freed.count (s.topLevel p) = 1
  nothingElse : ∀ pg ∈ freed, pg = s.topLevel p ∨
    ∃ i path, i < 256 ∧ s.tables pg = some ⟨p, i :: path⟩
  kernelHalf : ∀ pg path, s.tables pg = some ⟨kernel, path⟩ → pg ∉ freed
  frame : ∀ q va pte lvl, s.live q → s.translation q va = some (pte, lvl) →
    (∀ path, s.tables (ptePaddr pte) ≠ some ⟨p, path⟩) → ptePaddr pte ∉ freed

/-- The entry for `va` at a level points to a table. -/
def State.PointsToTable (s : State P) (p : P) (va : Vaddr) (level : ℕ) : Prop :=
  level ≤ 3 ∧
    (RadixTree.walk (child s.mem) 3 (s.topLevel p) (pathTo va (4 - level))).isSome = true

/-- **The condition on a call.**  `pmap_init` gets its page, and no entry that points to a table is
mapped, unmapped or protected. -/
def Careful (s : State P) : Event P → Prop
  | .init _ pages => pages ≠ []
  | .map p va _ level _ _ _ => ¬ s.PointsToTable p va level
  | .unmap p va level => ¬ s.PointsToTable p va level
  | .unmapRange p va length level => ∀ offs ∈ offsets length level, ∀ i ∈ offs,
      ¬ s.PointsToTable p (va + BitVec.ofNat 64 i) level
  | .protectRange p va length _ _ level => ∀ offs ∈ offsets length level, ∀ i ∈ offs,
      ¬ s.PointsToTable p (va + BitVec.ofNat 64 i) level
  | .destroy _ => True
  | .mark .. => True

instance (s : State P) (p : P) (va : Vaddr) (level : ℕ) : Decidable (s.PointsToTable p va level) :=
  inferInstanceAs (Decidable (_ ∧ _))

instance (s : State P) (e : Event P) : Decidable (Careful s e) :=
  match e with
  | .init _ pages => inferInstanceAs (Decidable (pages ≠ []))
  | .map p va _ level _ _ _ => inferInstanceAs (Decidable (¬ s.PointsToTable p va level))
  | .unmap p va level => inferInstanceAs (Decidable (¬ s.PointsToTable p va level))
  | .unmapRange p va length level => inferInstanceAs (Decidable (∀ offs ∈ offsets length level,
      ∀ i ∈ offs, ¬ s.PointsToTable p (va + BitVec.ofNat 64 i) level))
  | .protectRange p va length _ _ level => inferInstanceAs (Decidable
      (∀ offs ∈ offsets length level, ∀ i ∈ offs,
        ¬ s.PointsToTable p (va + BitVec.ofNat 64 i) level))
  | .destroy _ => inferInstanceAs (Decidable True)
  | .mark .. => inferInstanceAs (Decidable True)

end

end Pmap
