import Kenux.Buddy.Zones
import Kenux.Slab.Model

/-!
# `kmalloc` and `kfree` (`arch/x86_64/slab.c`)

Small sizes come from a cache for the next power of two, the others from the page allocator. The page of a
pointer, looked up in one zone, tells which: `__slab_create` marks the pages of a slab with a flag and with
the cache. A cache is named by its place in `cache_table`; the page allocator works on frame numbers, so
the memory of the slabs is apart from the page arrays.
-/

namespace Kmalloc

open Buddy

/-- `PAGE_FLAG_SLAB` -/
def pageFlagSlab : UInt32 := 0x04

def kmallocShiftHigh : ℕ := 11

structure Kernel where
  sys : System
  slabCache : ℕ → Option ℕ
  mem : Memory.Mem
  cacheTable : ℕ → Slab.Cache
  cacheCount : ℕ
  kmallocCaches : ℕ → Option ℕ

/-- A cache after `memset`. -/
def zeroCache : Slab.Cache := ⟨0, 0, 0, 0, fun _ => 0, 0, 0⟩

/-! ## Pages -/

/-- `buddy_get_main_zone`; when there is no zone it gives one without a page. -/
def buddyGetMainZone (sys : System) : Option Zone :=
  (sys.zones zoneNormal).or ((sys.zones zoneDma32).or (sys.zones zoneDma))

/-- `virt_to_page(buddy_get_main_zone(), virt)` -/
def Kernel.page (k : Kernel) (virt : UInt64) : Option ℕ :=
  (buddyGetMainZone k.sys).bind fun zone => virtToPage zone virt

def Kernel.isSlab (k : Kernel) (page : ℕ) : Bool := (k.sys.heap page).flags &&& pageFlagSlab ≠ 0

/-- `alloc_pages_virt` -/
def allocPagesVirt (k : Kernel) (order : ℕ) : UInt64 × Kernel :=
  match allocPages k.sys order with
  | (some (_, page), sys) => (pageToVirt page, { k with sys := sys })
  | (none, sys) => (0, { k with sys := sys })

/-! ## Slabs -/

/-- One round of the loop that marks the pages of a slab. -/
def markPage (cache : ℕ) (slab : UInt64) (k : Kernel) (i : ℕ) : Kernel :=
  match k.page (slab + UInt64.ofNat i * 4096) with
  | none => k
  | some p =>
    let page := { k.sys.heap p with flags := (k.sys.heap p).flags ||| pageFlagSlab }
    { k with
      sys := { k.sys with heap := Function.update k.sys.heap p page }
      slabCache := Function.update k.slabCache p (some cache) }

/-- The pages of a new slab of the cache, marked; 0 if there are none. -/
def newPages (k : Kernel) (cache : ℕ) : UInt64 × Kernel :=
  let order := (k.cacheTable cache).slabOrder
  let (slab, k) := allocPagesVirt k order
  if slab = 0 then (0, k) else (slab, (List.range (2 ^ order)).foldl (markPage cache slab) k)

/-- The cache with the memory. -/
def Kernel.slabs (k : Kernel) (cache : ℕ) : Slab.State := ⟨k.mem, k.cacheTable cache⟩

def Kernel.setSlabs (k : Kernel) (cache : ℕ) (s : Slab.State) : Kernel :=
  { k with mem := s.mem, cacheTable := Function.update k.cacheTable cache s.cache }

/-- The cache has no slab to take an object from. -/
def Kernel.lacksSlab (k : Kernel) (cache : ℕ) : Bool :=
  (k.cacheTable cache).head .part = 0 && (k.cacheTable cache).head .empty = 0

/-- `kmem_cache_alloc` -/
def kmemCacheAlloc (k : Kernel) (cache : ℕ) : UInt64 × Kernel :=
  let (pages, k) := if k.lacksSlab cache then newPages k cache else (0, k)
  let (obj, s) := Slab.kmemCacheAlloc (k.slabs cache) pages.toNat
  (UInt64.ofNat obj, k.setSlabs cache s)

/-- `kmem_cache_free`, with at most `fuel` slabs of a list looked at. -/
def kmemCacheFree (fuel : ℕ) (k : Kernel) (cache : ℕ) (obj : UInt64) : Option Kernel :=
  (Slab.kmemCacheFree (k.slabs cache) obj.toNat fuel).map (k.setSlabs cache)

/-! ## `slab_init` -/

/-- The cache for the objects of `2 ^ i` bytes. -/
def initCache (k : Kernel) (i : ℕ) : Kernel :=
  match Slab.kmemCacheCreate (UInt32.ofNat k.cacheCount) (1 <<< UInt32.ofNat i) (1 <<< UInt32.ofNat i) with
  | some cache =>
    { k with
      cacheTable := Function.update k.cacheTable k.cacheCount cache
      cacheCount := k.cacheCount + 1
      kmallocCaches := Function.update k.kmallocCaches i (some k.cacheCount) }
  | none => { k with kmallocCaches := Function.update k.kmallocCaches i none }

def slabInit (k : Kernel) : Kernel :=
  (List.range' 3 (kmallocShiftHigh - 2)).foldl initCache
    { k with cacheTable := fun _ => zeroCache, cacheCount := 0 }

/-! ## `kmalloc`, `kfree` and `ksize` -/

/-- The loop `while ((unit << i) < size && i < max) i++`; the first argument is `max - i`. -/
def shiftLoop (unit size : ℕ) : ℕ → ℕ → ℕ
  | 0, i => i
  | fuel + 1, i => if unit <<< i < size then shiftLoop unit size fuel (i + 1) else i

def kmallocOrder (size : UInt64) : ℕ := shiftLoop 4096 size.toNat maxOrder 0

def kmallocIdx (size : UInt64) : ℕ := shiftLoop 1 size.toNat (kmallocShiftHigh - 3) 3

def kmalloc (k : Kernel) (size : UInt64) : UInt64 × Kernel :=
  if size = 0 then (0, k)
  else if size > (1 : UInt64) <<< 11 then allocPagesVirt k (kmallocOrder size)
  else
    match k.kmallocCaches (kmallocIdx size) with
    | some cache => kmemCacheAlloc k cache
    | none => (0, k)

/-- `kfree`; `none` is a search for the slab of an object that has not ended. -/
def kfree (fuel : ℕ) (k : Kernel) (ptr : UInt64) : Option Kernel :=
  if ptr = 0 then some k
  else
    match k.page ptr with
    | none => some k
    | some page =>
      if k.isSlab page then
        match k.slabCache page with
        | some cache => kmemCacheFree fuel k cache ptr
        | none => some k
      else some { k with sys := freePagesVirt k.sys ptr }

def ksize (k : Kernel) (ptr : UInt64) : UInt64 :=
  if ptr = 0 then 0
  else
    match k.page ptr with
    | none => 0
    | some page =>
      if k.isSlab page then
        match k.slabCache page with
        | some cache => (k.cacheTable cache).objSize.toUInt64
        | none => 0
      else UInt64.ofNat (4096 <<< min (k.sys.heap page).order maxOrder)

/-! ## Runs -/

/-- Calls, the allocator's other callers, and writes of a byte by whoever owns it. -/
inductive Op where
  | kmalloc (size : UInt64)
  | kfree (fuel : ℕ) (ptr : UInt64)
  | allocPages (order : ℕ)
  | freePages (page : ℕ)
  | write (a : ℕ) (v : ℕ)

def step (k : Kernel) : Op → Option Kernel
  | .kmalloc size => some (kmalloc k size).2
  | .kfree fuel ptr => kfree fuel k ptr
  | .allocPages order => some { k with sys := (allocPages k.sys order).2 }
  | .freePages page => some { k with sys := freePages k.sys page }
  | .write a v => some { k with mem := Memory.store k.mem a v 1 }

/-!
## Blocks and their sizes

What a pointer stands for: a block of pages of a zone, or an object of a cache. `kmalloc` has to give a block
that is large enough and that `ksize` knows to be, and `kfree` has to give it back to where it came from.
-/

open Slab

inductive Block where
  | pages (zone : ZoneIdx) (page order : ℕ)
  | object (cache : ℕ) (ptr : UInt64)

def Block.bytes (k : Kernel) : Block → ℕ
  | .pages _ _ order => 4096 * 2 ^ order
  | .object cache _ => (k.cacheTable cache).objSize.toNat

/-- The pointer is the address of the block. -/
def Block.At (ptr : UInt64) : Block → Prop
  | .pages _ page _ => ptr.toNat = page * 4096
  | .object _ obj => ptr = obj

/-- The object that a cache hands out next: the first free one of its slab, or the last one of a new slab. -/
def nextObject (k : Kernel) (cache : ℕ) : Option UInt64 :=
  if k.lacksSlab cache then
    (allocPages k.sys (k.cacheTable cache).slabOrder).1.bind fun a =>
      if pageToVirt a.2 = 0 then none
      else some (pageToVirt a.2 +
        UInt64.ofNat (((k.cacheTable cache).objsPerSlab.toNat - 1) * (k.cacheTable cache).objSize.toNat))
  else
    let (slab, s) := takeSlab (k.slabs cache) 0
    some (UInt64.ofNat (readPtr s.mem (slab + offFreeList)))

/-- The block that a call of `kmalloc` takes. -/
def nextBlock (k : Kernel) (size : UInt64) : Option Block :=
  if size = 0 then none
  else if size > (1 : UInt64) <<< 11 then
    (allocPages k.sys (kmallocOrder size)).1.map fun a => .pages a.1 a.2 (kmallocOrder size)
  else (k.kmallocCaches (kmallocIdx size)).bind fun cache => (nextObject k cache).map (.object cache)

/-- A pointer that `kmalloc` returns has a block of at least `size` bytes behind it, and `ksize` says so. -/
def Sized (k : Kernel) (size : UInt64) : Prop :=
  (kmalloc k size).1 ≠ 0 → ∃ b, nextBlock k size = some b ∧ b.At (kmalloc k size).1 ∧
    size.toNat ≤ b.bytes k ∧ size ≤ ksize (kmalloc k size).2 (kmalloc k size).1

/-- If the page is marked as one of a slab then the objects of the slab are large enough. -/
def Kernel.MarkedFor (k : Kernel) (page : ℕ) (size : UInt64) : Prop :=
  k.isSlab page = true → ∃ cache, k.slabCache page = some cache ∧ size.toNat ≤ (k.cacheTable cache).objSize.toNat

/-- The block is in the main zone, and its page is not marked for something smaller. -/
def SizedWhen (k : Kernel) (size : UInt64) : Prop :=
  ∀ b, nextBlock k size = some b → match b with
    | .pages _ page _ => pageToVirt page ≠ 0 →
      size.toNat ≤ 2 ^ 23 ∧ k.page (pageToVirt page) = some page ∧ k.MarkedFor page size
    | .object cache ptr => ptr ≠ 0 → ∃ page, k.page ptr = some page ∧ (k.lacksSlab cache = false → k.MarkedFor page size)

/-! ## Freeing -/

/-- The block is allocated. -/
def Live (k : Kernel) : Block → Prop
  | .pages zone page order => page ≠ 0 ∧ page < 2 ^ 52 ∧ order ≤ maxOrder ∧ k.sys.zones zone ≠ none ∧
      (k.sys.heap page).used = true ∧ (k.sys.heap page).order = order
  | .object _ ptr => ptr ≠ 0

def Block.ptr : Block → UInt64
  | .pages _ page _ => pageToVirt page
  | .object _ ptr => ptr

/-- The object lies in the memory of the slab, as `kmem_cache_free` tests it. -/
def Holds (s : Slab.State) (slab obj : ℕ) : Prop :=
  readPtr s.mem (slab + offMem) ≤ obj ∧ obj < (readPtr s.mem (slab + offMem) + s.cache.slabSize) % 2 ^ 64

/-- The block is no longer used, it is part of a free one of its zone, and the zone counts its pages as free;
the object is the first free one of a slab that holds it, and the slab is put where it belongs. -/
def GivenBack (k k' : Kernel) : Block → Prop
  | .pages i page order => (k'.sys.heap page).used = false ∧ ∃ zone zone', k.sys.zones i = some zone ∧ k'.sys.zones i = some zone' ∧
      zone'.freePages = zone.freePages + pageCount order ∧
      ∃ p' o', zone'.freeList o' = some p' ∧ p' ≤ page ∧ page + 2 ^ order ≤ p' + 2 ^ o'
  | .object cache ptr => ∃ slab, slab ≠ 0 ∧ Holds (k.slabs cache) slab ptr.toNat ∧
      k'.slabs cache = slabRehome (pushObj (k.slabs cache) slab ptr.toNat) slab

/-- Along the links from a slab, the first that holds the object, or 0 if there is none up to the end. -/
inductive FirstHolder (s : Slab.State) (obj : ℕ) : ℕ → ℕ → Prop where
  | stop : FirstHolder s obj 0 0
  | here {slab : ℕ} (h0 : slab ≠ 0) (h : Holds s slab obj) : FirstHolder s obj slab slab
  | next {slab found : ℕ} (h0 : slab ≠ 0) (h : ¬Holds s slab obj)
      (hnext : FirstHolder s obj (readPtr s.mem (slab + offNext)) found) : FirstHolder s obj slab found

/-- A slab on one of the lists holds the object, and no list before it runs in a ring. -/
def OnSomeList (s : Slab.State) (obj : ℕ) : List SlabList → Prop
  | [] => False
  | l :: ls => ∃ slab, FirstHolder s obj (s.cache.head l) slab ∧ (slab ≠ 0 ∨ OnSomeList s obj ls)

/-- The page of the block is in the main zone, and it is marked for the cache of an object, or not marked and
its zone is the one that `free_pages` gives it to. -/
def FreedWhen (k : Kernel) : Block → Prop
  | .pages i page _ => k.page (pageToVirt page) = some page ∧ k.isSlab page = false ∧
      (i = zoneDma ∨ k.sys.zones zoneDma = none ∧ ∃ zone, k.sys.zones i = some zone ∧ zone.contains page)
  | .object cache ptr => ∃ page, k.page ptr = some page ∧ k.isSlab page = true ∧ k.slabCache page = some cache ∧
      OnSomeList (k.slabs cache) ptr.toNat [.full, .part, .empty]

end Kmalloc

/-!
## `krealloc` and aligned blocks (`arch/x86_64/memory.c`)

The file has a `kmalloc` and a `kfree` of its own over those of the slabs, here after `memory_init`. The size of
a block is not kept, so `krealloc` copies as many bytes as the new one has; an aligned pointer may lie inside
its block, and `kfree` looks at the page it lies in.
-/

namespace Krealloc

open Buddy Kmalloc Memory

def kmalloc (k : Kernel) (size : UInt64) : UInt64 × Kernel :=
  if size = 0 then (0, k)
  else
    let (ptr, k) := if size ≤ 4096 * 4 then Kmalloc.kmalloc k size else (0, k)
    if ptr ≠ 0 then (ptr, k)
    else
      let aligned := (size + 4096 - 1) &&& ~~~(4096 - 1)
      allocPagesVirt k (shiftLoop 4096 aligned.toNat maxOrder 0)

/-- `kfree`, with at most `fuel` slabs of a list looked at. -/
def kfree (fuel : ℕ) (k : Kernel) (ptr : UInt64) : Option Kernel :=
  if ptr = 0 then some k
  else
    match k.page ptr with
    | none => some k
    | some page =>
      if k.isSlab page then Kmalloc.kfree fuel k ptr else some { k with sys := freePages k.sys page }

def byteAt (m : Mem) (ptr : UInt64) (i : ℕ) : UInt8 := m (ptr + UInt64.ofNat i).toNat

/-- `memcpy`, byte by byte from the first on. -/
def memcpy (m : Mem) (dest src : UInt64) : ℕ → Mem
  | 0 => m
  | num + 1 =>
    let m := memcpy m dest src num
    Function.update m (dest + UInt64.ofNat num).toNat (byteAt m src num)

/-- What `krealloc` returns, with the number of bytes it has read from the old pointer on. -/
structure Result where
  ptr : UInt64
  kernel : Kernel
  read : ℕ

def krealloc (fuel : ℕ) (k : Kernel) (ptr newSize : UInt64) : Option Result :=
  if ptr = 0 then
    let (newPtr, k) := kmalloc k newSize
    some ⟨newPtr, k, 0⟩
  else if newSize = 0 then (kfree fuel k ptr).map fun k => ⟨0, k, 0⟩
  else
    let (newPtr, k) := kmalloc k newSize
    if newPtr = 0 then some ⟨newPtr, k, 0⟩
    else
      let k := { k with mem := memcpy k.mem newPtr ptr newSize.toNat }
      (kfree fuel k ptr).map fun k => ⟨newPtr, k, newSize.toNat⟩

def memoryFree (fuel : ℕ) (k : Kernel) (ptr : UInt64) : Option Kernel := kfree fuel k ptr

/-- The next multiple of a power of two. -/
def alignUp (raw alignment : UInt64) : UInt64 := (raw + alignment - 1) &&& ~~~(alignment - 1)

def memoryAllocAligned (k : Kernel) (size alignment : UInt64) : UInt64 × Kernel :=
  if alignment ≤ 4096 then kmalloc k size
  else
    let (raw, k) := kmalloc k (alignment + size)
    if raw = 0 then (0, k) else (alignUp raw alignment, k)

/-! ## What is promised -/

/-- Of a block of `n` bytes, `krealloc` reads no other byte, the new block begins with the same bytes, and if
there is none then the old block stays as it is. -/
def ReallocOk (k : Kernel) (b : Block) (n : ℕ) (newSize : UInt64) : Prop :=
  ∃ fuel r, krealloc fuel k b.ptr newSize = some r ∧ r.read ≤ n ∧
    (r.ptr ≠ 0 → ∀ i < min n newSize.toNat, byteAt r.kernel.mem r.ptr i = byteAt k.mem b.ptr i) ∧
    (newSize ≠ 0 → r.ptr = 0 → Live r.kernel b ∧ ∀ i < n, byteAt r.kernel.mem b.ptr i = byteAt k.mem b.ptr i)

/-- The block does not grow, or there is no new one. -/
def Fits (k : Kernel) (n : ℕ) (newSize : UInt64) : Prop := newSize.toNat ≤ n ∨ (kmalloc k newSize).1 = 0

/-- The new block lies apart from the old one. -/
def Apart (ptr newPtr : UInt64) (size : ℕ) : Prop :=
  ∀ i < size, ∀ j < size, newPtr + UInt64.ofNat i ≠ ptr + UInt64.ofNat j

/-- After the copy to a new block. -/
def copied (k : Kernel) (ptr newSize : UInt64) : Kernel :=
  { (kmalloc k newSize).2 with
    mem := memcpy (kmalloc k newSize).2.mem (kmalloc k newSize).1 ptr newSize.toNat }

/-- The allocator keeps its hands off the blocks: `kmalloc` changes nothing of the old block, the new one is apart
from it, and `kfree` of the old one ends and changes no byte of the new one. -/
def Undisturbed (k : Kernel) (b : Block) (n : ℕ) (newSize : UInt64) : Prop :=
  if newSize = 0 then ∃ fuel k', kfree fuel k b.ptr = some k'
  else (∀ i < n, byteAt (kmalloc k newSize).2.mem b.ptr i = byteAt k.mem b.ptr i) ∧
    if (kmalloc k newSize).1 = 0 then Live (kmalloc k newSize).2 b
    else Apart b.ptr (kmalloc k newSize).1 newSize.toNat ∧ ∃ fuel k', kfree fuel (copied k b.ptr newSize) b.ptr = some k' ∧
      ∀ i < newSize.toNat, byteAt k'.mem (kmalloc k newSize).1 i = byteAt (copied k b.ptr newSize).mem (kmalloc k newSize).1 i

/-- The size of the block that `memory_alloc_aligned` takes. -/
def requested (size alignment : UInt64) : UInt64 := if alignment ≤ 4096 then size else alignment + size

/-- The pointer that it makes of the block. -/
def alignedPtr (raw alignment : UInt64) : UInt64 := if alignment ≤ 4096 then raw else alignUp raw alignment

/-- `memory_free` of the aligned pointer gives the block back. -/
def Released (k : Kernel) (b : Block) (alignment : UInt64) : Prop :=
  ∃ fuel k', memoryFree fuel k (alignedPtr b.ptr alignment) = some k' ∧ GivenBack k k' b

/-- The block itself is aligned. -/
def AtStart (b : Block) (alignment : UInt64) : Prop := alignment ≤ 4096 ∨ alignment.toNat ∣ b.ptr.toNat

end Krealloc
