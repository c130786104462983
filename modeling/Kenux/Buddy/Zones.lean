import Kenux.Buddy.Model
import Kenux.Lib.Blocks

/-!
# The zones of the system (`arch/x86_64/buddy.c`)

`buddy_global_init` cuts the memory into at most three zones. An allocation tries one zone after the
other; a page that is freed goes to the zone its `zone_idx` names. `buddy_init` clears `zone_type`
before it copies it to the pages, so every page names zone 0. The zones share one heap of pages.
-/

/-!
## What a zone should guarantee

A run takes a zone with the list of its live allocations, each given by its first page and order.
Two things go wrong in the code. Splitting finds the other half of a block by flipping a bit of its
first page, which is the upper half only if the bit is clear, and blocks are not aligned to their
size. And `__list_del` does not move the head of the list on when it unlinks the first page.
-/

namespace Buddy

open DList Blocks

inductive BuddyOp where
  | alloc (order : ℕ)
  | free (b : Block)
  | defragment (rounds : ℕ)

def buddyStep (x : State × List Block) : BuddyOp → Option (State × List Block)
  | .alloc order =>
    match buddyAllocPages x.1 order with
    | (some page, s) => some (s, (page, order) :: x.2)
    | (none, s) => some (s, x.2)
  | .free b => if b ∈ x.2 then some (buddyFreePages x.1 b.1, x.2.erase b) else none
  | .defragment rounds => some ((buddyDefragment rounds x.1).2, x.2)

/-! ## Properties of a state -/

def OnList (s : State) (k p : ℕ) : Prop := k ≤ maxOrder ∧ Reaches s.next (s.zone.freeList k) p

/-- The live blocks and those on the free lists are pairwise disjoint and lie in `[lo, hi)`. -/
structure BlocksDisjoint (x : State × List Block) (lo hi : ℕ) : Prop where
  live : x.2.Pairwise Disj
  free : ∀ k p j q, OnList x.1 k p → OnList x.1 j q → (p, k) ≠ (q, j) → Disj (p, k) (q, j)
  cross : ∀ b ∈ x.2, ∀ k p, OnList x.1 k p → Disj b (p, k)
  inside : ∀ b : Block, b ∈ x.2 ∨ OnList x.1 b.2 b.1 → lo ≤ b.1 ∧ b.1 + size b ≤ hi

/-- The free lists are well formed and as long as `free_count` says, no page is on two of them, and
their pages and the used ones make up the managed pages. -/
structure ListsOk (s : State) : Prop where
  lists : ∀ k ≤ maxOrder, ∃ l, IsDList s.next s.prev (s.zone.freeList k) l ∧
    (s.zone.freeCount k).toNat = l.length
  once : ∀ k j p, OnList s k p → OnList s j p → k = j
  conserved : s.zone.usedPages.toNat +
    ((List.range (maxOrder + 1)).map fun k => (s.zone.freeCount k).toNat * 2 ^ k).sum =
      s.zone.managedPages.toNat

/-! ## Conditions on the calls -/

/-- The other half that a split of `page` to `order` finds is the upper one, or is not in the zone
and gets lost. -/
def SplitOk (zone : Zone) (page order : ℕ) : Prop :=
  buddyPfn page order = page + 2 ^ order ∨ pfnToPage zone (buddyPfn page order) = none

/-- A condition on the orders below `current` to which an allocation splits the block it takes. -/
def AllocSplits (s : State) (order : ℕ) (ok : ℕ → ℕ → Prop) : Prop :=
  ∀ current page, findOrder s order = some current → s.zone.freeList current = some page →
    ∀ k, order ≤ k → k < current → ok page k

/-- None of the buddies with which a free page merges, one order after the other, is first on its
list. -/
def MergeOk (s : State) : ℕ → ℕ → ℕ → Prop
  | 0, _, _ => True
  | fuel + 1, page, order =>
    ∀ buddy, mergeableBuddy s page order = some buddy →
      s.zone.freeList order ≠ some buddy ∧
        MergeOk s fuel (if buddy < page then buddy else page) (order + 1)

def FreeOk (s : State) (page : ℕ) : Prop :=
  MergeOk s (maxOrder - (s.heap page).order) page (s.heap page).order

/-- The loop of `buddy_defragment` over one list merges no pair of which one page is first on the
list, and no page that it has followed to another list. -/
def DefragListOk (order : ℕ) : ℕ → Option ℕ → ℤ × State → Prop
  | 0, _, _ => True
  | _ + 1, none, _ => True
  | fuel + 1, some p, (merged, s) =>
    match mergeableBuddy s p order with
    | none => DefragListOk order fuel (s.next p) (merged, s)
    | some buddy =>
      s.zone.freeList order ≠ some p ∧ s.zone.freeList order ≠ some buddy ∧
        inFreelist s order p = true ∧
        DefragListOk order fuel (s.next p) (merged + 1, defragMerge s order p buddy)

def DefragOk (rounds : ℕ) (s : State) : Prop :=
  ∀ order < maxOrder, DefragListOk order rounds
    ((defragOrders rounds s order).2.zone.freeList order) (defragOrders rounds s order)

/-- The condition under which blocks stay disjoint. -/
def BuddyOk (x : State × List Block) : BuddyOp → Prop
  | .alloc order => AllocSplits x.1 order (SplitOk x.1.zone)
  | .free b => FreeOk x.1 b.1
  | .defragment rounds => DefragOk rounds x.1

/-- The condition under which no page gets lost either: every split takes the upper half. -/
def BuddyLosesNone (x : State × List Block) : BuddyOp → Prop
  | .alloc order => AllocSplits x.1 order fun page k => buddyPfn page k = page + 2 ^ k
  | .free b => FreeOk x.1 b.1
  | .defragment rounds => DefragOk rounds x.1

open Run

/-- `ZONE_DMA`, `ZONE_DMA32` and `ZONE_NORMAL` -/
abbrev ZoneIdx := Fin 3

def zoneDma : ZoneIdx := 0
def zoneDma32 : ZoneIdx := 1
def zoneNormal : ZoneIdx := 2

def zoneDmaEnd : UInt64 := 0x1000000
def zoneDma32End : UInt64 := 0x100000000

/-- `buddy_system.zones` with the pages they point to, and `buddy_initialized`. -/
structure System where
  heap : Heap
  zones : ZoneIdx → Option Zone
  initialized : Bool

/-- What an operation on zone `i` leaves. -/
def System.put (sys : System) (i : ZoneIdx) (s : State) : System :=
  { sys with heap := s.heap, zones := Function.update sys.zones i (some s.zone) }

/-- A test `0 <= zone_idx && zone_idx < ZONE_MAX`. -/
def zoneIndex (i : ℤ) : Option ZoneIdx :=
  if h : 0 ≤ i ∧ i < 3 then some ⟨i.toNat, by omega⟩ else none

/-! ## `buddy_global_init` -/

/-- A zone is set up if it has a page. -/
def initZone (sys : System) (i : ZoneIdx) (start size : UInt64) : System :=
  if size > 0 ∧ size ≥ 4096 then sys.put i (buddyInit sys.heap start size).2 else sys

/-- `buddy_global_init` -/
def buddyGlobalInit (sys : System) (baseAddr totalSize : UInt64) : System :=
  if sys.initialized then sys
  else
    let dmaEnd := if zoneDmaEnd > totalSize then totalSize else zoneDmaEnd
    let dmaSize := dmaEnd - (if baseAddr < dmaEnd then baseAddr else dmaEnd)
    let dma32End := if zoneDma32End > totalSize then totalSize else zoneDma32End
    let sys := { sys with zones := fun _ => none }
    let sys := initZone sys zoneDma baseAddr dmaSize
    let sys := initZone sys zoneDma32 dmaEnd (dma32End - dmaEnd)
    let sys := initZone sys zoneNormal dma32End (totalSize - dma32End)
    if (sys.zones zoneDma).isNone ∧ (sys.zones zoneDma32).isNone ∧ (sys.zones zoneNormal).isNone then
      { sys.put zoneNormal (buddyInit sys.heap baseAddr totalSize).2 with initialized := true }
    else { sys with initialized := true }

/-! ## Allocating -/

/-- The zones in the order in which `alloc_pages_zone` tries them. -/
def tryOrder (zoneHint : ℤ) : List ZoneIdx :=
  (zoneIndex zoneHint).toList ++ [zoneNormal, zoneDma32, zoneDma].filter fun z => (z.val : ℤ) ≠ zoneHint

/-- The page of the first zone that has one, with that zone. -/
def tryZones (order : ℕ) : List ZoneIdx → System → Option (ZoneIdx × ℕ) × System
  | [], sys => (none, sys)
  | i :: is, sys =>
    match sys.zones i with
    | none => tryZones order is sys
    | some zone =>
      match buddyAllocPages ⟨sys.heap, zone⟩ order with
      | (some page, s) => (some (i, page), sys.put i s)
      | (none, s) => tryZones order is (sys.put i s)

/-- `alloc_pages_zone`; the code returns the page only, not the zone it is from. -/
def allocPagesZone (sys : System) (order : ℕ) (zoneHint : ℤ) : Option (ZoneIdx × ℕ) × System :=
  if sys.initialized then tryZones order (tryOrder zoneHint) sys else (none, sys)

/-- `alloc_pages` -/
def allocPages (sys : System) (order : ℕ) : Option (ZoneIdx × ℕ) × System :=
  if sys.initialized then allocPagesZone sys order 2 else (none, sys)

/-- `alloc_pages_dma` -/
def allocPagesDma (sys : System) (order : ℕ) : Option (ZoneIdx × ℕ) × System :=
  allocPagesZone sys order 0

/-! ## Freeing -/

def Zone.contains (zone : Zone) (pfn : ℕ) : Bool := pfn ≥ zone.basePfn && pfn < zone.endPfn

/-- The zone whose page numbers include `pfn`. -/
def zoneOfPfn (sys : System) (pfn : ℕ) : Option (ZoneIdx × Zone) :=
  [zoneDma, zoneDma32, zoneNormal].findSome? fun i =>
    ((sys.zones i).filter (·.contains pfn)).map (i, ·)

/-- The zone that a page names. -/
def zoneOfIdx (sys : System) (page : ℕ) : Option (ZoneIdx × Zone) :=
  (zoneIndex (sys.heap page).zoneIdx).bind fun i => (sys.zones i).map (i, ·)

/-- `free_pages` -/
def freePages (sys : System) (page : ℕ) : System :=
  if sys.initialized then
    match (zoneOfIdx sys page).or (zoneOfPfn sys page) with
    | some (i, zone) => sys.put i (buddyFreePages ⟨sys.heap, zone⟩ page)
    | none => sys
  else sys

/-- `page_to_virt` -/
def pageToVirt (page : ℕ) : UInt64 := UInt64.ofNat page * 4096

/-- `virt_to_page` -/
def virtToPage (zone : Zone) (virt : UInt64) : Option ℕ := pfnToPage zone (virt.toNat / 4096)

/-- `free_pages_virt` -/
def freePagesVirt (sys : System) (virt : UInt64) : System :=
  if virt = 0 ∨ sys.initialized = false then sys
  else
    match zoneOfPfn sys (virt.toNat / 4096) with
    | some (_, zone) =>
      match virtToPage zone virt with
      | some page => freePages sys page
      | none => sys
    | none => sys

/-! ## Runs -/

/-- The system with the live allocations and all pages returned so far, each with its zone. -/
structure Usage where
  sys : System
  live : List (ZoneIdx × Block)
  returned : List (ZoneIdx × ℕ)

inductive ZonesOp where
  | allocPagesZone (order : ℕ) (zoneHint : ℤ)
  | allocPages (order : ℕ)
  | allocPagesDma (order : ℕ)
  | freePages (a : ZoneIdx × Block)
  | freePagesVirt (a : ZoneIdx × Block)

def Usage.allocated (x : Usage) (order : ℕ) : Option (ZoneIdx × ℕ) × System → Usage
  | (some (i, page), sys) => ⟨sys, (i, page, order) :: x.live, (i, page) :: x.returned⟩
  | (none, sys) => { x with sys := sys }

def Usage.freed (x : Usage) (a : ZoneIdx × Block) (sys : System) : Option Usage :=
  if a ∈ x.live then some { x with sys := sys, live := x.live.erase a } else none

def zonesStep (x : Usage) : ZonesOp → Option Usage
  | .allocPagesZone order zoneHint => some (x.allocated order (allocPagesZone x.sys order zoneHint))
  | .allocPages order => some (x.allocated order (allocPages x.sys order))
  | .allocPagesDma order => some (x.allocated order (allocPagesDma x.sys order))
  | .freePages a => x.freed a (freePages x.sys a.2.1)
  | .freePagesVirt a => x.freed a (freePagesVirt x.sys (pageToVirt a.2.1))

/-- The blocks that are live in a zone. -/
def liveIn (live : List (ZoneIdx × Block)) (i : ZoneIdx) : List Block :=
  live.filterMap fun a => if a.1 = i then some a.2 else none

/-- The pages on the free lists of a zone, and those it returned, are its own. -/
structure PagesInZones (x : Usage) : Prop where
  onList : ∀ i zone, x.sys.zones i = some zone → ∀ k p, OnList ⟨x.sys.heap, zone⟩ k p →
    zone.basePfn ≤ p ∧ p < zone.endPfn
  returned : ∀ a ∈ x.returned, ∃ zone, x.sys.zones a.1 = some zone ∧
    zone.basePfn ≤ a.2 ∧ a.2 < zone.endPfn

/-- `used_pages` of each zone is the number of pages allocated from it. -/
def UsedPagesOk (x : Usage) : Prop :=
  ∀ i zone, x.sys.zones i = some zone → zone.usedPages.toNat = total (liveIn x.live i)

/-! ## Conditions on the calls -/

/-- A page of zone 0 names its zone, and without a zone 0 the zone is found by the page number. -/
def FreedInZone (x : Usage) (a : ZoneIdx × Block) : Prop :=
  a.1 = zoneDma ∨ x.sys.zones zoneDma = none

/-- The address of the page fits into 64 bits. -/
def HasAddress (a : ZoneIdx × Block) : Prop := a.2.1 < 2 ^ 52

def Routed (x : Usage) : ZonesOp → Prop
  | .freePages a => FreedInZone x a
  | .freePagesVirt a => HasAddress a ∧ FreedInZone x a
  | _ => True

/-- The first of the zones that has a block for the order splits it well. -/
def TryOk (sys : System) (order : ℕ) : List ZoneIdx → Prop
  | [] => True
  | i :: is =>
    match sys.zones i with
    | none => TryOk sys order is
    | some zone =>
      (findOrder ⟨sys.heap, zone⟩ order = none ∧ TryOk sys order is) ∨
        (findOrder ⟨sys.heap, zone⟩ order ≠ none ∧
          AllocSplits ⟨sys.heap, zone⟩ order (SplitOk zone))

/-- The page goes back to its zone, and merges there without unlinking the first page of a list. -/
def FreedWell (x : Usage) (a : ZoneIdx × Block) : Prop :=
  FreedInZone x a ∧ ∀ zone, x.sys.zones a.1 = some zone → FreeOk ⟨x.sys.heap, zone⟩ a.2.1

def ZonesOpOk (x : Usage) : ZonesOp → Prop
  | .allocPagesZone order zoneHint => TryOk x.sys order (tryOrder zoneHint)
  | .allocPages order => TryOk x.sys order (tryOrder 2)
  | .allocPagesDma order => TryOk x.sys order (tryOrder 0)
  | .freePages a => FreedWell x a
  | .freePagesVirt a => HasAddress a ∧ FreedWell x a

end Buddy
