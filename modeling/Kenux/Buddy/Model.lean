import Kenux.Lib.DList
import Kenux.Lib.Run
import Mathlib.Data.UInt

/-!
# The buddy allocator (`arch/x86_64/buddy.c`)

A `page_t` is named by its page frame number: `pfn` never changes after `buddy_init`, and the page
arrays of different zones describe different frames. Frame numbers stay below `2 ^ 53` and are
natural numbers; the counters that the code decrements are 64-bit words. Locks are held by one
caller at a time; `slab_cache` is not used here.
-/

namespace Buddy

open DList

/-- `BUDDY_MAX_ORDER` -/
def maxOrder : ℕ := 11

def pageFlagUsed : UInt32 := 0x01
def pageFlagReserved : UInt32 := 0x02

/-- `sizeof(page_t)` -/
def sizeofPage : ℕ := 48

/-- `page_t` -/
structure Page where
  next : Option ℕ
  prev : Option ℕ
  order : ℕ
  flags : UInt32
  refcount : UInt32
  zoneIdx : ℤ
  deriving DecidableEq

abbrev Heap := ℕ → Page

/-- `buddy_zone_t` -/
structure Zone where
  freeList : ℕ → Option ℕ
  freeCount : ℕ → UInt64
  pageArray : UInt64
  totalPages : ℕ
  usedPages : UInt64
  reservedPages : ℕ
  freePages : UInt64
  managedPages : UInt64
  basePfn : ℕ
  endPfn : ℕ
  zoneType : ℤ

/-- A zone with the pages it points to. -/
structure State where
  heap : Heap
  zone : Zone

/-- `1ULL << order` -/
def pageCount (order : ℕ) : UInt64 := UInt64.ofNat (2 ^ order)

def Page.used (p : Page) : Bool := p.flags &&& pageFlagUsed ≠ 0
def Page.reserved (p : Page) : Bool := p.flags &&& pageFlagReserved ≠ 0

/-- Writes to the fields of one page. -/
def State.modify (s : State) (p : ℕ) (f : Page → Page) : State :=
  { s with heap := Function.update s.heap p (f (s.heap p)) }

def State.next (s : State) (p : ℕ) : Option ℕ := (s.heap p).next
def State.prev (s : State) (p : ℕ) : Option ℕ := (s.heap p).prev

/-- `if (q) q->next = v` -/
def State.setNext (s : State) : Option ℕ → Option ℕ → State
  | none, _ => s
  | some q, v => s.modify q ({ · with next := v })

/-- `if (q) q->prev = v` -/
def State.setPrev (s : State) : Option ℕ → Option ℕ → State
  | none, _ => s
  | some q, v => s.modify q ({ · with prev := v })

/-- Writes to `free_list[order]` and `free_count[order]`. -/
def State.setList (s : State) (order : ℕ) (head : Option ℕ) (count : UInt64) : State :=
  { s with
    zone := { s.zone with
      freeList := Function.update s.zone.freeList order head
      freeCount := Function.update s.zone.freeCount order count } }

/-! ## Lists -/

/-- `__list_del`: the head of a list is not looked at. -/
def listDel (s : State) (page : ℕ) : State :=
  let s := s.setNext (s.prev page) (s.next page)
  let s := s.setPrev (s.next page) (s.prev page)
  s.modify page ({ · with next := none, prev := none })

/-- `__list_add` -/
def listAdd (s : State) (order page : ℕ) : State :=
  let s := s.modify page ({ · with next := s.zone.freeList order, prev := none })
  let s := s.setPrev (s.zone.freeList order) (some page)
  s.setList order (some page) (s.zone.freeCount order + 1)

/-- `__list_pop` -/
def listPop (s : State) (order : ℕ) : Option ℕ × State :=
  match s.zone.freeList order with
  | none => (none, s)
  | some page =>
    let next := s.next page
    let s := s.setPrev next none
    let s := s.modify page ({ · with next := none, prev := none })
    (some page, s.setList order next (s.zone.freeCount order - 1))

/-- `__buddy_pfn` -/
def buddyPfn (pfn order : ℕ) : ℕ := pfn ^^^ 2 ^ order

/-- `pfn_to_page`. The first page of an array at address 0 is `NULL`. -/
def pfnToPage (zone : Zone) (pfn : ℕ) : Option ℕ :=
  if pfn < zone.basePfn ∨ pfn ≥ zone.endPfn then none
  else if zone.pageArray = 0 ∧ pfn = zone.basePfn then none
  else some pfn

/-- The pages of a zone; a free list without a cycle is not longer. -/
def Zone.span (zone : Zone) : ℕ := zone.endPfn - zone.basePfn

/-- `__in_freelist` -/
def inFreelist (s : State) (order page : ℕ) : Bool :=
  find s.next page (s.zone.span + 1) (s.zone.freeList order)

/-! ## `buddy_init` -/

/-- The order of the next block that is cut off: at most the largest that fits into `free` pages. -/
def fitOrder (free : ℕ) : ℕ → ℕ
  | 0 => 0
  | order + 1 => if 2 ^ (order + 1) > free then fitOrder free order else order + 1

/-- The loop that cuts the pages after the page array into blocks; every round takes at least one of
the `free` pages. -/
def carve : ℕ → ℕ → ℕ → State → State
  | 0, _, _, s => s
  | fuel + 1, start, free, s =>
    if free > 0 then
      let order := fitOrder free maxOrder
      let s := listAdd (s.modify start ({ · with order := order })) order start
      carve fuel (start + 2 ^ order) (free - 2 ^ order) s
    else s

/-- The pages that the page array of `total` pages takes. -/
def arrayPages (total : ℕ) : ℕ := (total * sizeofPage + 4095) / 4096

/-- `buddy_init`: -1 if there is no page. `zone_type` is cleared before it is copied to the pages. -/
def buddyInit (heap : Heap) (baseAddr sizeBytes : UInt64) : ℤ × State :=
  let base := baseAddr.toNat / 4096
  let total := sizeBytes.toNat / 4096
  let zone : Zone :=
    { freeList := fun _ => none, freeCount := fun _ => 0, pageArray := baseAddr,
      totalPages := total, usedPages := 0, reservedPages := 0, freePages := 0, managedPages := 0,
      basePfn := base, endPfn := base + total, zoneType := 0 }
  if total = 0 then (-1, ⟨heap, zone⟩)
  else
    let heap : Heap := fun p =>
      if base ≤ p ∧ p < base + total then
        { next := none, prev := none, order := 0, refcount := 0, zoneIdx := zone.zoneType,
          flags := if p < base + arrayPages total then pageFlagReserved else 0 }
      else heap p
    let s := carve total (base + arrayPages total) (total - arrayPages total)
      ⟨heap, { zone with reservedPages := arrayPages total }⟩
    let free := ((List.range (maxOrder + 1)).map fun i => s.zone.freeCount i * pageCount i).sum
    (0, { s with zone := { s.zone with freePages := free, managedPages := free } })

/-! ## `buddy_alloc_pages` -/

/-- Pops until a page is found that is not reserved. -/
def popUsable : ℕ → State → ℕ → Option ℕ × State
  | 0, s, _ => (none, s)
  | fuel + 1, s, order =>
    match listPop s order with
    | (none, s) => (none, s)
    | (some page, s) =>
      if (s.heap page).reserved then popUsable fuel s order else (some page, s)

/-- The page that the split of `page` down to `order` hands to the free list. -/
def splitBuddy (s : State) (page order : ℕ) : Option ℕ := pfnToPage s.zone (buddyPfn page order)

/-- One round of the split loop. -/
def splitOnce (s : State) (page order : ℕ) : State :=
  match splitBuddy s page order with
  | some buddy =>
    listAdd (s.modify buddy ({ · with order := order, flags := 0, refcount := 0 })) order buddy
  | none => s

/-- The split loop, from `current` down to `order`. -/
def splitLoop (page order : ℕ) : ℕ → State → State
  | 0, s => s
  | current + 1, s =>
    if current + 1 > order then splitLoop page order current (splitOnce s page current) else s

/-- The first order from `order` on whose list is not empty. -/
def findOrder (s : State) (order : ℕ) : Option ℕ :=
  (List.range' order (maxOrder + 1 - order)).find? fun k => (s.zone.freeList k).isSome

/-- The page keeps its order, and the counters say that it is used. -/
def takePage (s : State) (page order : ℕ) : State :=
  let s := s.modify page ({ · with order := order })
  { s with
    zone := { s.zone with
      usedPages := s.zone.usedPages + pageCount order
      freePages := s.zone.freePages - pageCount order } }

/-- `buddy_alloc_pages` -/
def buddyAllocPages (s : State) (order : ℕ) : Option ℕ × State :=
  if order > maxOrder then (none, s)
  else
    match findOrder s order with
    | none => (none, s)
    | some current =>
      match popUsable (s.zone.span + 1) s current with
      | (none, s) => (none, s)
      | (some page, s) =>
        let s := s.modify page fun p => { p with flags := p.flags ||| pageFlagUsed, refcount := 1 }
        let s := splitLoop page order current s
        (some page, takePage s page order)

/-! ## `buddy_free_pages` and `buddy_defragment` -/

/-- The buddy of a free block of this order if it can be merged. The range check on its `pfn` that
`buddy_free_pages` adds is that of `pfn_to_page`. -/
def mergeableBuddy (s : State) (page order : ℕ) : Option ℕ :=
  (pfnToPage s.zone (buddyPfn page order)).filter fun buddy =>
    !(s.heap buddy).used && (s.heap buddy).order = order && inFreelist s order buddy

/-- `zone->free_count[order] -= n` -/
def State.dropCount (s : State) (order : ℕ) (n : UInt64) : State :=
  s.setList order (s.zone.freeList order) (s.zone.freeCount order - n)

/-- The loop of `buddy_free_pages`; the first argument is `BUDDY_MAX_ORDER - order`. -/
def mergeLoop : ℕ → ℕ → ℕ → State → State
  | 0, page, order, s => listAdd (s.modify page ({ · with order := order })) order page
  | fuel + 1, page, order, s =>
    match mergeableBuddy s page order with
    | none => listAdd (s.modify page ({ · with order := order })) order page
    | some buddy =>
      mergeLoop fuel (if buddy < page then buddy else page) (order + 1)
        ((listDel s buddy).dropCount order 1)

/-- The page is no longer used, and the counters say so. -/
def releasePage (s : State) (page : ℕ) : State :=
  let order := (s.heap page).order
  let s := s.modify page fun p => { p with flags := p.flags &&& ~~~pageFlagUsed, refcount := 0 }
  { s with
    zone := { s.zone with
      usedPages := s.zone.usedPages - pageCount order
      freePages := s.zone.freePages + pageCount order } }

/-- `buddy_free_pages` -/
def buddyFreePages (s : State) (page : ℕ) : State :=
  if (s.heap page).used then
    let order := (s.heap page).order
    mergeLoop (maxOrder - order) page order (releasePage s page)
  else s

/-- The list operations when `buddy_defragment` merges `p` with its buddy. -/
def defragMerge (s : State) (order p buddy : ℕ) : State :=
  let s := (listDel (listDel s p) buddy).dropCount order 2
  let merged := if p < buddy then p else buddy
  listAdd (s.modify merged ({ · with order := order + 1 })) (order + 1) merged

/-- The loop of `buddy_defragment` over one list; the next page is read before the merge. -/
def defragList (order : ℕ) : ℕ → Option ℕ → ℤ × State → ℤ × State
  | 0, _, x => x
  | _ + 1, none, x => x
  | fuel + 1, some p, (merged, s) =>
    match mergeableBuddy s p order with
    | none => defragList order fuel (s.next p) (merged, s)
    | some buddy => defragList order fuel (s.next p) (merged + 1, defragMerge s order p buddy)

/-- `buddy_defragment` for the orders below `n`. -/
def defragOrders (rounds : ℕ) (s : State) (n : ℕ) : ℤ × State :=
  (List.range n).foldl
    (fun x order => defragList order rounds (x.2.zone.freeList order) x) (0, s)

/-- `buddy_defragment`. The code does not bound the rounds over a list: it returns what this returns
for every bound that is large enough. -/
def buddyDefragment (rounds : ℕ) (s : State) : ℤ × State := defragOrders rounds s maxOrder

end Buddy
