import Kenux.Lib.DList
import Kenux.Lib.Memory
import Kenux.Lib.Run

/-!
# The slab allocator (`arch/x86_64/slab.c`)

A slab is a block of pages. Its `slab_t` lies in the last bytes of the block, and a free object
holds the address of the next one in its first eight bytes, so both are read from and written to one
byte memory; small objects reach into the `slab_t`. Pointers are addresses and `NULL` is 0. The page
flags that `__slab_create` sets are read by `kfree` only and are left out.
-/

namespace Slab

open Memory

def pageSize : UInt32 := 4096
def buddyMaxOrder : ℕ := 11
def slabMaxCaches : UInt32 := 64

/-- `SLAB_FULL`, `SLAB_PARTIAL` and `SLAB_EMPTY` -/
def slabFull : ℕ := 0
def slabPartial : ℕ := 1
def slabEmpty : ℕ := 2

/-! ## The fields of a `slab_t` -/

def sizeofSlab : ℕ := 56
def offNext : ℕ := 0
def offPrev : ℕ := 8
def offMem : ℕ := 16
def offObjSize : ℕ := 24
def offObjCount : ℕ := 28
def offFreeCount : ℕ := 32
def offFreeList : ℕ := 40
def offState : ℕ := 48

def read32 (m : Mem) (a : ℕ) : UInt32 := UInt32.ofNat (load m a 4)
def write32 (m : Mem) (a : ℕ) (v : UInt32) : Mem := store m a v.toNat 4
def readPtr (m : Mem) (a : ℕ) : ℕ := load m a 8
def writePtr (m : Mem) (a v : ℕ) : Mem := store m a v 8

/-- The three lists of a cache. -/
inductive SlabList where
  | full
  | part
  | empty
  deriving DecidableEq

/-- `kmem_cache_t` -/
structure Cache where
  objSize : UInt32
  align : UInt32
  objsPerSlab : UInt32
  slabOrder : ℕ
  head : SlabList → ℕ
  totalObjs : UInt64
  freeObjs : UInt64

structure State where
  mem : Mem
  cache : Cache

def State.setHead (s : State) (l : SlabList) (slab : ℕ) : State :=
  { s with cache := { s.cache with head := Function.update s.cache.head l slab } }

def State.write (s : State) (a v : ℕ) : State := { s with mem := writePtr s.mem a v }

def State.setState (s : State) (slab state : ℕ) : State :=
  { s with mem := write32 s.mem (slab + offState) (UInt32.ofNat state) }

/-! ## `kmem_cache_create` -/

/-- The loop of `__slab_order`. -/
def slabOrderLoop (need : UInt32) : ℕ → ℕ → ℕ
  | 0, order => order
  | fuel + 1, order =>
    if pageSize <<< UInt32.ofNat order < need then slabOrderLoop need fuel (order + 1) else order

/-- `__slab_order` -/
def slabOrder (objSize objsPerSlab : UInt32) : ℕ :=
  slabOrderLoop (objSize * objsPerSlab) buddyMaxOrder 0

/-- `kmem_cache_create` when `cache_count` caches exist. -/
def kmemCacheCreate (cacheCount size align : UInt32) : Option Cache :=
  if size = 0 ∨ size > pageSize <<< UInt32.ofNat buddyMaxOrder then none
  else
    let align := if align = 0 then 8 else align
    let objSize := (size + align - 1) &&& ~~~(align - 1)
    let objSize := if objSize < 8 then 8 else objSize
    if cacheCount ≥ slabMaxCaches then none
    else
      let objs := pageSize * 2 / objSize
      let objs := if objs < 1 then 1 else objs
      some
        { objSize := objSize, align := align, objsPerSlab := objs,
          slabOrder := slabOrder objSize objs, head := fun _ => 0, totalObjs := 0, freeObjs := 0 }

/-- `PAGE_SIZE << cache->slab_order` -/
def Cache.slabSize (cache : Cache) : ℕ := 4096 * 2 ^ cache.slabOrder

/-! ## Slabs -/

/-- The loop that links the objects `i, ..., i + n - 1` of a block, each to the one before. -/
def linkObjs (mem objSize : ℕ) : ℕ → ℕ → ℕ → Mem → ℕ × Mem
  | 0, _, current, m => (current, m)
  | n + 1, i, current, m =>
    linkObjs mem objSize n (i + 1) (mem + i * objSize) (writePtr m (mem + i * objSize) current)

/-- `__slab_create`; `pages` is the address of the pages from `alloc_pages`, or 0 if it fails. -/
def slabCreate (m : Mem) (cache : Cache) (pages : ℕ) : ℕ × Mem :=
  if pages = 0 then (0, m)
  else
    let slab := pages + (cache.slabSize - sizeofSlab)
    let m := store m slab 0 sizeofSlab
    let m := writePtr m (slab + offMem) pages
    let m := write32 m (slab + offObjSize) cache.objSize
    let m := write32 m (slab + offObjCount) cache.objsPerSlab
    let m := write32 m (slab + offFreeCount) cache.objsPerSlab
    let m := write32 m (slab + offState) (UInt32.ofNat slabEmpty)
    let (current, m) := linkObjs pages cache.objSize.toNat cache.objsPerSlab.toNat 0 0 m
    (slab, writePtr m (slab + offFreeList) current)

/-- `__slab_add` -/
def slabAdd (s : State) (list : SlabList) (slab : ℕ) : State :=
  let head := s.cache.head list
  let s := (s.write (slab + offNext) head).write (slab + offPrev) 0
  let s := if head ≠ 0 then s.write (head + offPrev) slab else s
  s.setHead list slab

/-- `__slab_remove` -/
def slabRemove (s : State) (list : SlabList) (slab : ℕ) : State :=
  let prev := readPtr s.mem (slab + offPrev)
  let s :=
    if prev ≠ 0 then s.write (prev + offNext) (readPtr s.mem (slab + offNext))
    else s.setHead list (readPtr s.mem (slab + offNext))
  let next := readPtr s.mem (slab + offNext)
  let s := if next ≠ 0 then s.write (next + offPrev) (readPtr s.mem (slab + offPrev)) else s
  (s.write (slab + offPrev) 0).write (slab + offNext) 0

/-- The list that `slab->state` names. -/
def listOfState (state : UInt32) : SlabList :=
  if state = UInt32.ofNat slabFull then .full
  else if state = UInt32.ofNat slabPartial then .part
  else .empty

/-- The list that the free objects of a slab ask for. -/
def listOfCount (freeCount objCount : UInt32) : SlabList :=
  if freeCount = 0 then .full else if freeCount = objCount then .empty else .part

def stateOf : SlabList → ℕ
  | .full => slabFull
  | .part => slabPartial
  | .empty => slabEmpty

/-- `__slab_rehome` -/
def slabRehome (s : State) (slab : ℕ) : State :=
  let old := listOfState (read32 s.mem (slab + offState))
  let new := listOfCount (read32 s.mem (slab + offFreeCount)) (read32 s.mem (slab + offObjCount))
  let s := s.setState slab (stateOf new)
  if old ≠ new then slabAdd (slabRemove s old slab) new slab else s

/-! ## `kmem_cache_alloc` and `kmem_cache_free` -/

/-- The slab that `kmem_cache_alloc` takes an object from, or 0. -/
def takeSlab (s : State) (pages : ℕ) : ℕ × State :=
  if s.cache.head .part ≠ 0 then (s.cache.head .part, s)
  else if s.cache.head .empty ≠ 0 then
    let slab := s.cache.head .empty
    (slab, slabAdd (slabRemove s .empty slab) .part slab)
  else
    let (slab, m) := slabCreate s.mem s.cache pages
    if slab = 0 then (0, s) else (slab, slabAdd { s with mem := m } .part slab)

/-- The first free object of a slab leaves its free list. -/
def popObj (s : State) (slab obj : ℕ) : State :=
  let m := writePtr s.mem (slab + offFreeList) (readPtr s.mem obj)
  { mem := write32 m (slab + offFreeCount) (read32 m (slab + offFreeCount) - 1)
    cache := { s.cache with
      totalObjs := s.cache.totalObjs + 1
      freeObjs := s.cache.freeObjs - 1 } }

/-- `kmem_cache_alloc` -/
def kmemCacheAlloc (s : State) (pages : ℕ) : ℕ × State :=
  let (slab, s) := takeSlab s pages
  if slab = 0 then (0, s)
  else
    let obj := readPtr s.mem (slab + offFreeList)
    if obj ≠ 0 then (obj, slabRehome (popObj s slab obj) slab) else (obj, s)

/-- The search of `kmem_cache_free` along one list, over at most `fuel` slabs: `none` if it has not
ended, 0 if no slab holds the object. -/
def searchList (m : Mem) (slabSize obj : ℕ) : ℕ → ℕ → Option ℕ
  | 0, _ => none
  | fuel + 1, slab =>
    if slab = 0 then some 0
    else
      let start := readPtr m (slab + offMem)
      if start ≤ obj ∧ obj < (start + slabSize) % 2 ^ 64 then some slab
      else searchList m slabSize obj fuel (readPtr m (slab + offNext))

/-- The search along several lists. -/
def searchLists (s : State) (obj fuel : ℕ) : List SlabList → Option ℕ
  | [] => some 0
  | list :: lists =>
    match searchList s.mem s.cache.slabSize obj fuel (s.cache.head list) with
    | none => none
    | some slab => if slab = 0 then searchLists s obj fuel lists else some slab

/-- An object goes back to the front of the free list of its slab. -/
def pushObj (s : State) (slab obj : ℕ) : State :=
  let m := writePtr s.mem obj (readPtr s.mem (slab + offFreeList))
  let m := writePtr m (slab + offFreeList) obj
  { mem := write32 m (slab + offFreeCount) (read32 m (slab + offFreeCount) + 1)
    cache := { s.cache with
      totalObjs := s.cache.totalObjs - 1
      freeObjs := s.cache.freeObjs + 1 } }

/-- `kmem_cache_free`. The code does not bound the search; `none` is a search that has not ended
after `fuel` slabs of a list. -/
def kmemCacheFree (s : State) (obj fuel : ℕ) : Option State :=
  if obj = 0 then some s
  else
    (searchLists s obj fuel [.full, .part, .empty]).map fun slab =>
      if slab = 0 then s else slabRehome (pushObj s slab obj) slab

/-!
## What a cache should guarantee

A run takes a cache with the blocks it got from the page allocator and its live objects. The answer
of the page allocator is an input of `kmem_cache_alloc`: 0, or a block that is clear of all earlier
ones.
-/

open DList

inductive SlabOp where
  | alloc (pages : ℕ)
  | free (obj fuel : ℕ)

structure Usage where
  state : State
  blocks : List ℕ
  live : List ℕ
  /-- `NULL` was returned only when the page allocator failed. -/
  nullOk : Bool

/-- `kmem_cache_alloc` asks the page allocator if there is no slab with a free object. -/
def AsksForPages (cache : Cache) : Prop := cache.head .part = 0 ∧ cache.head .empty = 0

instance (cache : Cache) : Decidable (AsksForPages cache) := by
  unfold AsksForPages
  infer_instance

/-- The call gets a new slab. -/
def GetsSlab (x : Usage) (pages : ℕ) : Prop := AsksForPages x.state.cache ∧ pages ≠ 0

instance (x : Usage) (pages : ℕ) : Decidable (GetsSlab x pages) := by
  unfold GetsSlab
  infer_instance

/-- A block of pages that is clear of the earlier ones. -/
def Fresh (x : Usage) (pages : ℕ) : Prop :=
  pages % 4096 = 0 ∧ pages + x.state.cache.slabSize ≤ 2 ^ 64 ∧
    ∀ b ∈ x.blocks, b + x.state.cache.slabSize ≤ pages ∨ pages + x.state.cache.slabSize ≤ b

instance (x : Usage) (pages : ℕ) : Decidable (Fresh x pages) := by
  unfold Fresh
  infer_instance

def Usage.allocated (x : Usage) (pages : ℕ) (r : ℕ × State) : Usage where
  state := r.2
  blocks := if GetsSlab x pages then pages :: x.blocks else x.blocks
  live := if r.1 = 0 then x.live else r.1 :: x.live
  nullOk := x.nullOk && (r.1 ≠ 0 || (AsksForPages x.state.cache && pages = 0))

def slabStep (x : Usage) : SlabOp → Option Usage
  | .alloc pages =>
    if GetsSlab x pages ∧ ¬ Fresh x pages then none
    else some (x.allocated pages (kmemCacheAlloc x.state pages))
  | .free obj fuel =>
    if obj ∈ x.live then
      (kmemCacheFree x.state obj fuel).map fun s => { x with state := s, live := x.live.erase obj }
    else none

/-! ## Properties of a state -/

def ptr (a : ℕ) : Option ℕ := if a = 0 then none else some a

def State.next (s : State) (slab : ℕ) : Option ℕ := ptr (readPtr s.mem (slab + offNext))

/-- The `slab_t` of a block. -/
def slabOf (cache : Cache) (block : ℕ) : ℕ := block + (cache.slabSize - sizeofSlab)

def OnList (s : State) (l : SlabList) (slab : ℕ) : Prop := Reaches s.next (ptr (s.cache.head l)) slab

/-- The list that the `free_count` of a slab dictates. -/
def State.home (s : State) (slab : ℕ) : SlabList :=
  listOfCount (read32 s.mem (slab + offFreeCount)) (read32 s.mem (slab + offObjCount))

structure SlabsOk (x : Usage) : Prop where
  acyclic : ∀ l, Ends x.state.next (ptr (x.state.cache.head l))
  placed : ∀ b ∈ x.blocks, ∀ l, OnList x.state l (slabOf x.state.cache b) ↔
    l = x.state.home (slabOf x.state.cache b)
  distinct : x.live.Nodup
  nullOk : x.nullOk = true

/-- The condition on the calls: none gets a slab from the page allocator. -/
def NoSlab (x : Usage) : SlabOp → Prop
  | .alloc pages => ¬ GetsSlab x pages
  | .free _ _ => True

/-! ## The layout of a slab -/

/-- The object `i` of the block at `mem`. -/
def objAt (cache : Cache) (mem i : ℕ) : ℕ := mem + i * cache.objSize.toNat

/-- The objects of a block and its `slab_t` are apart and inside the block, and no write to an object
reaches the `slab_t`. -/
structure Layout (cache : Cache) (mem slab : ℕ) : Prop where
  objects : ∀ i < cache.objsPerSlab.toNat,
    mem ≤ objAt cache mem i ∧ objAt cache mem i + cache.objSize.toNat ≤ mem + cache.slabSize
  descriptor : mem ≤ slab ∧ slab + sizeofSlab ≤ mem + cache.slabSize
  disjoint : ∀ i < cache.objsPerSlab.toNat, ∀ j < cache.objsPerSlab.toNat, i ≠ j →
    objAt cache mem i + cache.objSize.toNat ≤ objAt cache mem j ∨
      objAt cache mem j + cache.objSize.toNat ≤ objAt cache mem i
  apart : ∀ i < cache.objsPerSlab.toNat,
    objAt cache mem i + cache.objSize.toNat ≤ slab ∨ slab + sizeofSlab ≤ objAt cache mem i
  metadata : ∀ i < cache.objsPerSlab.toNat, ∀ (m : Memory.Mem) (a v k : ℕ),
    objAt cache mem i ≤ a → a + k ≤ objAt cache mem i + cache.objSize.toNat →
      ∀ b, slab ≤ b → b < slab + sizeofSlab → Memory.store m a v k b = m b

/-- The bytes of an object of `size` bytes, a multiple of `align` (8 if that is 0) and no less than a
pointer. -/
def objBytes (size align : ℕ) : ℕ :=
  let align := if align = 0 then 8 else align
  max 8 ((size + align - 1) / align * align)

/-- What the objects leave of the block holds a `slab_t`: of two pages, or, for one object larger than
these, of the least power of two that holds it. -/
def LeavesRoom (o : ℕ) : Prop :=
  if o ≤ 8192 then sizeofSlab ≤ 8192 % o
  else ∃ k < 23, 2 ^ k < o ∧ o + sizeofSlab ≤ 2 ^ (k + 1)

end Slab
