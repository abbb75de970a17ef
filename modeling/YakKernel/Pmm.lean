/-
# The physical page allocator

`vm/pmm.c` with its assertions and `zone_validate`: zones, regions, and the buddy
lists of each zone.  A `struct page` is known by its page frame number, a zone by its
place in `static_zones`, and a section under `zone_lock` is one function.

Physical addresses have at most 52 bits (`physEnd`), so only the sum in the loop over
`max_order` and the page counts of a new region are written with their wrap-around.
-/
import YakKernel.Buddy

namespace Pmm

open Buddy

/-! ## Constants -/

/-- `PAGE_SHIFT`. -/
def pageShift : ℕ := 12

/-- `PAGE_SIZE`. -/
def pageSize : ℕ := 2 ^ pageShift

/-- `BUDDY_ORDERS`. -/
def buddyOrders : ℕ := 7

/-- `MAX_ZONES`. -/
def maxZones : ℕ := 8

/-- `UINT32_MAX`; also the value of `-1` in an `unsigned int`. -/
def uint32Max : ℕ := 2 ^ 32 - 1

/-- `sizeof(struct region)` without its pages. -/
def sizeofRegion : ℕ := 24

/-- `sizeof(struct page)`. -/
def sizeofPage : ℕ := 96

/-- The end of the physical address space. -/
def physEnd : ℕ := 2 ^ 52

/-- `BLOCK_SIZE`. -/
def blockSize (order : ℕ) : ℕ := 2 ^ (pageShift + order)

/-- `ALIGN_UP`. -/
def alignUp (addr align : ℕ) : ℕ := (addr + align - 1) / align * align

/-- The difference of two `size_t`. -/
def subSize (a b : ℕ) : ℕ := (a + 2 ^ 64 - b) % 2 ^ 64

/-! ## The data -/

/-- What the allocator keeps in a `struct page`. -/
structure Page where
  shares : ℕ
  order : ℕ
  maxOrder : ℕ
  deriving DecidableEq, Repr

/-- `struct region`; its pages are in `Pmm.pages`. -/
structure Region where
  base : ℕ
  endAddr : ℕ
  deriving DecidableEq, Repr

/-- `struct zone`. -/
structure Zone where
  maxZoneOrder : ℕ
  base : ℕ
  endAddr : ℕ
  mayAlloc : Bool
  orders : ℕ → List ℕ
  npages : ℕ → ℕ

/-- The panics and failed assertions of `pmm.c`, and accesses beyond its arrays. -/
inductive Error : Type where
  | tooManyZones
  | unaligned
  | crosses4G
  | noZone
  | zoneValidate
  | badOrder
  | emptyList
  | pageInUse
  | noBuddy
  | maxOrderCorrupt
  | buddyNotOnList
  | outOfBounds
  | orderMismatch
  deriving DecidableEq, Repr

end Pmm

/-- The static variables of `pmm.c`, and every `struct page` by its `pfn`. -/
structure Pmm where
  regionList : List Pmm.Region
  zoneList : List ℕ
  totalPagecnt : ℕ
  usablePagecnt : ℕ
  freePagecnt : ℕ
  staticZones : ℕ → Pmm.Zone
  staticZonesPos : ℕ
  pages : ℕ → Pmm.Page

namespace Pmm

open Buddy

/-! ## Lookups and lists -/

/-- `SLIST_FOREACH` up to the first entry with a larger base, and insertion before it:
the loop that keeps `zone_list` and `region_list` sorted. -/
def insertSorted {α : Type*} (base : α → ℕ) (x : α) (l : List α) : List α :=
  l.takeWhile (fun ent => base ent ≤ base x) ++ x :: l.dropWhile (fun ent => base ent ≤ base x)

/-- `lookup_region`; the end of a region counts as inside. -/
def lookupRegion (p : Pmm) (addr : ℕ) : Option Region :=
  p.regionList.find? (fun region => region.base ≤ addr ∧ addr ≤ region.endAddr)

/-- `pmm_lookup_page`; `none` stands for `NULL` and for a pointer past the region's
pages. -/
def pmmLookupPage (p : Pmm) (addr : ℕ) : Option ℕ :=
  match p.lookupRegion addr with
  | none => none
  | some region =>
    if addr / pageSize < region.endAddr / pageSize then some (addr / pageSize) else none

/-- `lookup_zone`. -/
def lookupZone (p : Pmm) (addr : ℕ) : Option ℕ :=
  p.zoneList.find? (fun z => (p.staticZones z).base ≤ addr ∧ addr < (p.staticZones z).endAddr)

/-- `zone_validate`. -/
def zoneValidate (zone : Zone) : Bool :=
  (List.range buddyOrders).all (fun order => 0 < zone.npages order ↔ zone.orders order ≠ [])

/-- Change the list and the count of one order of a zone. -/
def setOrder (p : Pmm) (z order : ℕ) (list : List ℕ) (npages : ℕ) : Pmm :=
  { p with
    staticZones := Function.update p.staticZones z
      { p.staticZones z with
        orders := Function.update (p.staticZones z).orders order list
        npages := Function.update (p.staticZones z).npages order npages } }

/-- `TAILQ_INSERT_TAIL` and `npages[order] += 1`. -/
def insertTail (p : Pmm) (z order page : ℕ) : Pmm :=
  p.setOrder z order ((p.staticZones z).orders order ++ [page])
    ((p.staticZones z).npages order + 1)

/-- `TAILQ_INSERT_HEAD` and `npages[order] += 1`. -/
def insertHead (p : Pmm) (z order page : ℕ) : Pmm :=
  p.setOrder z order (page :: (p.staticZones z).orders order)
    ((p.staticZones z).npages order + 1)

/-- `TAILQ_REMOVE` and `npages[order] -= 1`. -/
def remove (p : Pmm) (z order page : ℕ) : Pmm :=
  p.setOrder z order (((p.staticZones z).orders order).erase page)
    ((p.staticZones z).npages order - 1)

/-- Write to a `struct page`. -/
def setPage (p : Pmm) (page : ℕ) (f : Page → Page) : Pmm :=
  { p with pages := Function.update p.pages page (f (p.pages page)) }

/-! ## Zones and regions -/

/-- No zones and no memory. -/
def empty : Pmm where
  regionList := []
  zoneList := []
  totalPagecnt := 0
  usablePagecnt := 0
  freePagecnt := 0
  staticZones := fun _ => ⟨0, 0, 0, false, fun _ => [], fun _ => 0⟩
  staticZonesPos := 0
  pages := fun _ => ⟨0, 0, 0⟩

/-- `pmm_zone_init`, without the zone's name and number. -/
def pmmZoneInit (p : Pmm) (mayAlloc : Bool) (base endAddr : ℕ) : Except Error Pmm :=
  let pos := p.staticZonesPos
  if maxZones ≤ pos then .error .tooManyZones
  else
    let staticZones := Function.update p.staticZones pos
      ⟨0, base, endAddr, mayAlloc, fun _ => [], fun _ => 0⟩
    .ok { p with
      staticZonesPos := pos + 1
      staticZones := staticZones
      zoneList := insertSorted (fun z => (staticZones z).base) pos p.zoneList }

/-- `pagecnt_used`: the pages at the start of a region that hold its descriptor. -/
def pagecntUsed (pagecntTotal : ℕ) : ℕ :=
  alignUp (sizeofRegion + sizeofPage * pagecntTotal) pageSize / pageSize

/-- The `while` loop over `max_order` at address `i`, with `n` more orders to try. -/
def maxOrderLoop (endAddr i : ℕ) : ℕ → ℕ → ℕ
  | 0, maxOrder => maxOrder
  | n + 1, maxOrder =>
    if (i + blockSize (maxOrder + 1)) % 2 ^ 64 < endAddr ∧ i % blockSize (maxOrder + 1) = 0 then
      maxOrderLoop endAddr i n (maxOrder + 1)
    else maxOrder

/-- The blocks that the `for` loop over `i` cuts a region into. -/
def regionBlocks (endAddr : ℕ) : ℕ → ℕ → List Block
  | 0, _ => []
  | n + 1, i =>
    if i < endAddr then
      let maxOrder := maxOrderLoop endAddr i (buddyOrders - 1) 0
      ⟨i / pageSize, maxOrder⟩ :: regionBlocks endAddr n (i + blockSize maxOrder)
    else []

/-- The body of the `for` loop: set the pages of a block up and queue it. -/
def addBlock (z : ℕ) (p : Pmm) (b : Block) : Pmm :=
  let p := { p with
    staticZones := Function.update p.staticZones z
      { p.staticZones z with maxZoneOrder := max (p.staticZones z).maxZoneOrder b.order }
    pages := fun x => if b.Covers x then ⟨0, b.order, b.order⟩ else p.pages x }
  p.insertTail z b.order b.page

/-- The first free address of a region. -/
def usableStart (base endAddr : ℕ) : ℕ :=
  base + pagecntUsed ((endAddr - base) / pageSize) * pageSize

/-- The blocks queued by `pmm_add_region`. -/
def newBlocks (base endAddr : ℕ) : List Block :=
  regionBlocks endAddr (endAddr / pageSize) (usableStart base endAddr)

/-- The first part of `pmm_add_region`: link the region, count its pages, and set up the
pages of the descriptor. -/
def initRegion (p : Pmm) (base endAddr : ℕ) : Pmm :=
  let pagecntTotal := (endAddr - base) / pageSize
  let pagecntUsed := pagecntUsed pagecntTotal
  let basePfn := base / pageSize
  { p with
    regionList := insertSorted Region.base ⟨base, endAddr⟩ p.regionList
    totalPagecnt := (p.totalPagecnt + pagecntTotal) % 2 ^ 64
    usablePagecnt := (p.usablePagecnt + subSize pagecntTotal pagecntUsed) % 2 ^ 64
    freePagecnt := (p.freePagecnt + subSize pagecntTotal pagecntUsed) % 2 ^ 64
    pages := fun x =>
      if basePfn ≤ x ∧ x < basePfn + pagecntUsed then ⟨1, uint32Max, uint32Max⟩
      else if basePfn ≤ x ∧ x < basePfn + pagecntTotal then ⟨0, 0, 0⟩
      else p.pages x }

/-- `pmm_add_region`. -/
def pmmAddRegion (p : Pmm) (base endAddr : ℕ) : Except Error Pmm :=
  if base % pageSize ≠ 0 ∨ endAddr % pageSize ≠ 0 then .error .unaligned
  else if ¬ ((uint32Max < base ∧ uint32Max < endAddr) ∨
      (base < uint32Max ∧ endAddr < uint32Max)) then .error .crosses4G
  else match p.lookupZone base with
  | none => .error .noZone
  | some z =>
    if zoneValidate (p.staticZones z) = false then .error .zoneValidate
    else
      let p := p.initRegion base endAddr
      if subSize ((endAddr - base) / pageSize) (pagecntUsed ((endAddr - base) / pageSize)) = 0 then
        .ok p
      else
        let p := (newBlocks base endAddr).foldl (addBlock z) p
        if zoneValidate (p.staticZones z) = false then .error .zoneValidate
        else .ok p

/-! ## Allocation -/

/-- The splitting loop of `zone_alloc`, from `desired_order + n` down: it queues the
upper halves of the block at `page`. -/
def splitLoop (z page desiredOrder : ℕ) : ℕ → Pmm → Pmm
  | 0, p => p
  | n + 1, p =>
    let order := desiredOrder + n
    let buddy := page + 2 ^ order
    splitLoop z page desiredOrder n
      ((p.insertTail z order buddy).setPage buddy (fun pg => { pg with order := order }))

/-- The end of `zone_alloc`: the page gets its first reference. -/
def handOut (p : Pmm) (z page desiredOrder : ℕ) : Except Error (Pmm × Option ℕ) :=
  if (p.pages page).shares ≠ 0 then .error .pageInUse
  else
    let p := p.setPage page (fun pg => { pg with shares := 1 })
    if zoneValidate (p.staticZones z) = false then .error .zoneValidate
    else .ok ({ p with freePagecnt := p.freePagecnt - 2 ^ desiredOrder }, some page)

/-- `zone_alloc`. -/
def zoneAlloc (p : Pmm) (z desiredOrder : ℕ) : Except Error (Pmm × Option ℕ) :=
  let zone := p.staticZones z
  if buddyOrders ≤ desiredOrder then .error .badOrder
  else if zone.maxZoneOrder < desiredOrder then .ok (p, none)
  else if zoneValidate zone = false then .error .zoneValidate
  else if 0 < zone.npages desiredOrder then
    match zone.orders desiredOrder with
    | [] => .error .emptyList
    | page :: _ => (p.remove z desiredOrder page).handOut z page desiredOrder
  else
    -- while (++order < BUDDY_ORDERS && TAILQ_EMPTY(&zone->orders[order]))
    match (List.range' (desiredOrder + 1) (buddyOrders - (desiredOrder + 1))).find?
        (fun order => zone.orders order ≠ []) with
    | none => .ok (p, none)
    | some order =>
      match zone.orders order with
      | [] => .error .emptyList
      | page :: _ =>
        let p := splitLoop z page desiredOrder (order - desiredOrder) (p.remove z order page)
        (p.setPage page (fun pg => { pg with order := desiredOrder })).handOut z page desiredOrder

/-- The loop of `pmm_alloc_order` over the zones. -/
def allocFrom (order : ℕ) : List ℕ → Pmm → Except Error (Pmm × Option ℕ)
  | [], p => .ok (p, none)
  | z :: zs, p =>
    if (p.staticZones z).mayAlloc = false then allocFrom order zs p
    else match p.zoneAlloc z order with
    | .error e => .error e
    | .ok (p, some page) => .ok (p, some page)
    | .ok (p, none) => allocFrom order zs p

/-- `pmm_alloc_order`. -/
def pmmAllocOrder (p : Pmm) (order : ℕ) : Except Error (Pmm × Option ℕ) :=
  allocFrom order p.zoneList p

/-! ## Freeing -/

/-- The end of the loop body of `zone_free`: now both buddy and we are free, off-list,
and of the next order. -/
def mergeBuddy (p : Pmm) (z order page buddyPage : ℕ) : Pmm :=
  let p := p.remove z order buddyPage
  let p := p.setPage buddyPage (fun pg => { pg with order := pg.order + 1 })
  p.setPage page (fun pg => { pg with order := pg.order + 1 })

/-- The merging loop of `zone_free`: the allocator, the page and the order at its
end.  The arrays of the zone hold `n` more orders from `order` on. -/
def mergeLoop (z : ℕ) : ℕ → Pmm → ℕ → ℕ → Except Error (Pmm × ℕ × ℕ)
  | 0, _, _, _ => .error .outOfBounds
  | n + 1, p, page, order =>
    if (p.pages page).maxOrder ≤ order then .ok (p, page, order)
    else
      let pageAddr := page * pageSize
      let buddyAddr := pageAddr ^^^ blockSize order
      match p.pmmLookupPage buddyAddr with
      | none => .error .noBuddy
      | some buddyPage =>
        if (p.pages buddyPage).maxOrder ≠ (p.pages page).maxOrder then .error .maxOrderCorrupt
        else if 0 < (p.pages buddyPage).shares ∨
            (p.pages buddyPage).order ≠ (p.pages page).order then .ok (p, page, order)
        else if (p.staticZones z).npages order = 0 then .error .emptyList
        else if (p.staticZones z).orders order = [] then .error .emptyList
        -- buddy page has to be on list
        else if buddyPage ∉ (p.staticZones z).orders order then .error .buddyNotOnList
        else
          let p := p.mergeBuddy z order page buddyPage
          match p.pmmLookupPage (if buddyAddr < pageAddr then buddyAddr else pageAddr) with
          | none => .error .noBuddy
          | some page => mergeLoop z n p page (order + 1)

/-- `zone_free`. -/
def zoneFree (p : Pmm) (z page order : ℕ) : Except Error Pmm :=
  if buddyOrders ≤ order then .error .badOrder
  else if zoneValidate (p.staticZones z) = false then .error .zoneValidate
  else if (p.pages page).shares ≠ 0 then .error .pageInUse
  else match mergeLoop z (buddyOrders - order) p page order with
  | .error e => .error e
  | .ok (p, page, last) =>
    let p := p.insertHead z last page
    if (p.pages page).order ≠ last then .error .orderMismatch
    else if zoneValidate (p.staticZones z) = false then .error .zoneValidate
    else .ok { p with freePagecnt := p.freePagecnt + 2 ^ order }

/-- `pmm_free_pages_order`. -/
def pmmFreePagesOrder (p : Pmm) (page order : ℕ) : Except Error Pmm :=
  match p.lookupZone (page * pageSize) with
  | none => .error .noZone
  | some z => p.zoneFree z page order

end Pmm
