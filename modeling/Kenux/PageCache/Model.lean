import Kenux.Lib.SList
import Mathlib.Data.UInt

/-!
# The page cache (`mm/src/pagecache.c`)

Pages are named by their index in the pool. The backing store behind `ops` is a state machine of its own
with the states `σ`, and the cache passes its state along. Walks along the hash chains and the LRU list
have fuel for one step more than the pool has pages, and a result `none` is a walk that goes on. The
counters of the pages are natural numbers, the memory for the pool is there, and locks are left out.
-/

namespace PageCache

open SList

def pageSize : ℕ := 4096
def pagecacheHashBuckets : UInt32 := 4096
def pagecacheMaxPages : ℕ := 65536

instance : NeZero pageSize := ⟨by decide⟩

abbrev Page := Fin pageSize → UInt8

/-- The three fields that name the contents of a page. -/
structure Key where
  fsId : UInt64
  inodeId : UInt64
  pageIndex : UInt64
  deriving DecidableEq

/-- `pagecache_page_t` -/
structure CachePage where
  key : Key
  data : Page
  hashNext : Option ℕ
  lruPrev : Option ℕ
  lruNext : Option ℕ
  dirty : Bool
  refCount : ℕ
  valid : Bool

/-- `pagecache_ops_t`. A read gets the old contents of the buffer and gives the new ones. -/
structure Ops (σ : Type*) where
  readPage : Option (σ → Key → Page → ℤ × Page × σ)
  writePage : Option (σ → Key → Page → ℤ × σ)

/-- `pagecache_t`, with the state of the backing store. -/
structure Cache (σ : Type*) where
  hashTable : UInt32 → Option ℕ
  lruHead : Option ℕ
  lruTail : Option ℕ
  pagePool : ℕ → CachePage
  totalPages : ℕ
  usedPages : ℕ
  dirtyPages : ℤ
  hits : UInt64
  misses : UInt64
  world : σ

variable {σ : Type*}

def pagecacheHash (k : Key) : UInt32 :=
  let h := k.fsId * 2654435761 + k.inodeId * 2246822519 + k.pageIndex * 3266489917
  (h ^^^ (h >>> 32)).toUInt32 % pagecacheHashBuckets

/-- Writes to fields of one page. -/
def Cache.mod (s : Cache σ) (i : ℕ) (f : CachePage → CachePage) : Cache σ :=
  { s with pagePool := Function.update s.pagePool i (f (s.pagePool i)) }

def Cache.lruNext (s : Cache σ) (i : ℕ) : Option ℕ := (s.pagePool i).lruNext
def Cache.lruPrev (s : Cache σ) (i : ℕ) : Option ℕ := (s.pagePool i).lruPrev
def Cache.hashNext (s : Cache σ) (i : ℕ) : Option ℕ := (s.pagePool i).hashNext

def Cache.fuel (s : Cache σ) : ℕ := s.totalPages + 1

/-! ## The LRU list and the hash chains -/

/-- Sets the pointer that goes forward from `prev`, or the head. -/
def Cache.setNext (s : Cache σ) (prev next : Option ℕ) : Cache σ :=
  match prev with
  | some prev => s.mod prev fun p => { p with lruNext := next }
  | none => { s with lruHead := next }

/-- Sets the pointer that goes back from `next`, or the tail. -/
def Cache.setPrev (s : Cache σ) (next prev : Option ℕ) : Cache σ :=
  match next with
  | some next => s.mod next fun p => { p with lruPrev := prev }
  | none => { s with lruTail := prev }

def Cache.lruRemove (s : Cache σ) (page : ℕ) : Cache σ :=
  let s := s.setNext (s.lruPrev page) (s.lruNext page)
  let s := s.setPrev (s.lruNext page) (s.lruPrev page)
  s.mod page fun p => { p with lruPrev := none, lruNext := none }

def Cache.lruInsertHead (s : Cache σ) (page : ℕ) : Cache σ :=
  let s := s.mod page fun p => { p with lruPrev := none, lruNext := s.lruHead }
  let s := s.setPrev s.lruHead (some page)
  { s with lruHead := some page }

def Cache.lruMoveHead (s : Cache σ) (page : ℕ) : Cache σ := (s.lruRemove page).lruInsertHead page

/-- Sets the pointer in a page, or the start of a chain. -/
def Cache.setSlot (s : Cache σ) (bucket : UInt32) (slot next : Option ℕ) : Cache σ :=
  match slot with
  | some prev => s.mod prev fun p => { p with hashNext := next }
  | none => { s with hashTable := Function.update s.hashTable bucket next }

/-- The loop that takes a page out of its hash chain. -/
def Cache.hashUnlink (s : Cache σ) (page : ℕ) : Option (Cache σ) :=
  let bucket := pagecacheHash (s.pagePool page).key
  match slotOf s.hashNext page s.fuel none (s.hashTable bucket) with
  | none => none
  | some none => some s
  | some (some slot) => some (s.setSlot bucket slot (s.hashNext page))

def Cache.hashInsert (s : Cache σ) (page : ℕ) (bucket : UInt32) : Cache σ :=
  let s := s.mod page fun p => { p with hashNext := s.hashTable bucket }
  { s with hashTable := Function.update s.hashTable bucket (some page) }

/-! ## Pages come and go -/

/-- The call of `write_page` for a page: its result and the cache after it. -/
def Cache.writeBack (ops : Ops σ) (s : Cache σ) (page : ℕ) : ℤ × Cache σ :=
  match ops.writePage with
  | none => (0, s)
  | some write =>
    let r := write s.world (s.pagePool page).key (s.pagePool page).data
    (r.1, { s with world := r.2 })

def Cache.clean (s : Cache σ) (page : ℕ) : Cache σ :=
  let s := s.mod page fun p => { p with dirty := false }
  { s with dirtyPages := s.dirtyPages - 1 }

def lruEvict (ops : Ops σ) (s : Cache σ) : Option (Option ℕ × Cache σ) :=
  match search s.lruPrev (fun i => (s.pagePool i).refCount = 0) s.fuel s.lruTail with
  | none => none
  | some none => some (none, s)
  | some (some victim) =>
    let s := if (s.pagePool victim).dirty then (s.writeBack ops victim).2.clean victim else s
    ((s.lruRemove victim).hashUnlink victim).map fun s => (some victim, s)

/-- `pagecache_init`; the pages of the pool have some contents. -/
def pagecacheInit (maxPages : ℕ) (contents : ℕ → Page) (world : σ) : Cache σ where
  hashTable _ := none
  lruHead := none
  lruTail := none
  pagePool i := ⟨⟨0, 0, 0⟩, contents i, none, none, none, false, 0, false⟩
  totalPages := if maxPages > pagecacheMaxPages then pagecacheMaxPages else maxPages
  usedPages := 0
  dirtyPages := 0
  hits := 0
  misses := 0
  world

/-- The walk of `pagecache_get` along a hash chain. -/
def Cache.findPage (s : Cache σ) (k : Key) : Option (Option ℕ) :=
  search s.hashNext (fun i => (s.pagePool i).key = k && (s.pagePool i).valid) s.fuel
    (s.hashTable (pagecacheHash k))

/-- A page for new contents: the next one of the pool, or an evicted one. -/
def takePage (ops : Ops σ) (s : Cache σ) : Option (Option ℕ × Cache σ) :=
  if s.usedPages < s.totalPages then
    some (some s.usedPages, { s with usedPages := s.usedPages + 1 })
  else lruEvict ops s

/-- The call of `read_page` for a page. -/
def readIn (ops : Ops σ) (s : Cache σ) (page : ℕ) : ℤ × Cache σ :=
  match ops.readPage with
  | none => (0, s)
  | some read =>
    let r := read s.world (s.pagePool page).key (s.pagePool page).data
    (r.1, { s.mod page fun p => { p with data := r.2.1 } with world := r.2.2 })

def Cache.claim (s : Cache σ) (page : ℕ) (k : Key) : Cache σ :=
  s.mod page fun p => { p with key := k, refCount := 1, dirty := false, valid := true }

/-- Counts a lookup that found nothing. -/
def Cache.missed (s : Cache σ) : Cache σ := { s with misses := s.misses + 1 }

def pagecacheGet (ops : Ops σ) (s : Cache σ) (k : Key) : Option (Option ℕ × Cache σ) :=
  match s.findPage k with
  | none => none
  | some (some page) =>
    let s := s.mod page fun p => { p with refCount := p.refCount + 1 }
    let s := s.lruMoveHead page
    some (some page, { s with hits := s.hits + 1 })
  | some none =>
    match takePage ops s.missed with
    | none => none
    | some (none, s) => some (none, s)
    | some (some page, s) =>
      let (result, s) := readIn ops (s.claim page k) page
      if result ≠ 0 then
        some (none, s.mod page fun p => { p with valid := false, refCount := 0 })
      else some (some page, (s.hashInsert page (pagecacheHash k)).lruInsertHead page)

def pagecacheRelease (s : Cache σ) (page : ℕ) : Cache σ :=
  if (s.pagePool page).refCount > 0 then s.mod page fun p => { p with refCount := p.refCount - 1 }
  else s

/-! ## Reading and writing -/

/-- `PAGE_SIZE - page_offset`, but no more than is left. -/
def toCopy (pos : UInt64) (remaining : ℕ) : ℕ := min (pageSize - pos.toNat % pageSize) remaining

def keyAt (fsId inodeId pos : UInt64) : Key := ⟨fsId, inodeId, pos / 4096⟩

/-- `n` bytes of a page from an offset on. -/
def Page.slice (data : Page) (off n : ℕ) : List UInt8 :=
  (List.range n).map fun j => data (Fin.ofNat pageSize (off + j))

/-- `memcpy` into a page. -/
def Page.copyIn (data : Page) (off n : ℕ) (src : ℕ → UInt8) : Page := fun o =>
  if off ≤ o ∧ (o : ℕ) < off + n then src (o - off) else data o

/-- The loop of `pagecache_read` and `pagecache_write`: `body page off done n` moves `n` bytes at the offset
`off` of a page when `done` bytes have been moved before. Every round moves at least one byte. The result
says whether there was a page each time. -/
def transfer {α : Type*} (ops : Ops σ) (fsId inodeId : UInt64)
    (body : ℕ → ℕ → ℕ → ℕ → α × Cache σ → α × Cache σ) :
    ℕ → UInt64 → ℕ → ℕ → α × Cache σ → Option (Bool × α × Cache σ)
  | 0, _, _, _, (a, s) => some (true, a, s)
  | fuel + 1, pos, done, remaining, (a, s) =>
    if remaining = 0 then some (true, a, s)
    else
      match pagecacheGet ops s (keyAt fsId inodeId pos) with
      | none => none
      | some (none, s) => some (false, a, s)
      | some (some page, s) =>
        let n := toCopy pos remaining
        let (a, s) := body page (pos.toNat % pageSize) done n (a, s)
        transfer ops fsId inodeId body fuel (pos + UInt64.ofNat n) (done + n) (remaining - n)
          (a, pagecacheRelease s page)

/-- `(int)size`, or -2 -/
def resultOf (complete : Bool) (size : UInt32) : ℤ := if complete then size.toInt32.toInt else -2

/-- A round of `pagecache_read`, which collects the bytes it copies. -/
def readBody (page off _done n : ℕ) : List UInt8 × Cache σ → List UInt8 × Cache σ
  | (dst, s) => (dst ++ (s.pagePool page).data.slice off n, s)

def pagecacheRead (ops : Ops σ) (s : Cache σ) (fsId inodeId offset : UInt64) (size : UInt32) :
    Option (ℤ × List UInt8 × Cache σ) :=
  if size = 0 then some (-1, [], s)
  else
    (transfer ops fsId inodeId readBody size.toNat offset 0 size.toNat ([], s)).map
      fun (complete, dst, s) => (resultOf complete size, dst, s)

/-- A round of `pagecache_write`. -/
def writeBody (src : ℕ → UInt8) (page off done n : ℕ) : Unit × Cache σ → Unit × Cache σ
  | (_, s) =>
    let s := s.mod page fun p =>
      { p with data := p.data.copyIn off n fun j => src (done + j), dirty := true }
    ((), { s with dirtyPages := s.dirtyPages + 1 })

def pagecacheWrite (ops : Ops σ) (s : Cache σ) (fsId inodeId offset : UInt64) (src : ℕ → UInt8)
    (size : UInt32) : Option (ℤ × Cache σ) :=
  if size = 0 then some (-1, s)
  else
    (transfer ops fsId inodeId (writeBody src) size.toNat offset 0 size.toNat ((), s)).map
      fun (complete, _, s) => (resultOf complete size, s)

/-- `i` counts up; the loop ends at the first page it does not get. -/
def pagecacheReadahead (ops : Ops σ) (fsId inodeId pageIndex : UInt64) :
    ℕ → ℕ → Cache σ → Option (Cache σ)
  | 0, _, s => some s
  | count + 1, i, s =>
    match pagecacheGet ops s ⟨fsId, inodeId, pageIndex + UInt64.ofNat i⟩ with
    | none => none
    | some (none, s) => some s
    | some (some page, s) =>
      pagecacheReadahead ops fsId inodeId pageIndex count (i + 1) (pagecacheRelease s page)

/-! ## Marking and flushing -/

def pagecacheMarkDirty (s : Cache σ) (page : ℕ) : Cache σ :=
  if (s.pagePool page).dirty then s
  else
    let s := s.mod page fun p => { p with dirty := true }
    { s with dirtyPages := s.dirtyPages + 1 }

/-- Writes a page back and cleans it if that succeeds. -/
def flush (ops : Ops σ) (s : Cache σ) (page : ℕ) : ℤ × Cache σ :=
  let (result, s) := s.writeBack ops page
  (result, if result = 0 then s.clean page else s)

def pagecacheFlushPage (ops : Ops σ) (s : Cache σ) (page : ℕ) : ℤ × Cache σ :=
  if (s.pagePool page).dirty ∧ ops.writePage.isSome then flush ops s page else (0, s)

/-- The loop of `pagecache_flush_inode` and `pagecache_flush_all` over the pages from `i` on, `n` of them. -/
def flushLoop (ops : Ops σ) (pick : CachePage → Bool) : ℕ → ℕ → ℤ × Cache σ → ℤ × Cache σ
  | 0, _, r => r
  | n + 1, i, (count, s) =>
    let p := s.pagePool i
    if p.valid ∧ p.dirty ∧ pick p ∧ ops.writePage.isSome then
      let (result, s) := flush ops s i
      flushLoop ops pick n (i + 1) (if result = 0 then count + 1 else count, s)
    else flushLoop ops pick n (i + 1) (count, s)

def pagecacheFlushInode (ops : Ops σ) (s : Cache σ) (fsId inodeId : UInt64) : ℤ × Cache σ :=
  flushLoop ops (fun p => p.key.fsId = fsId ∧ p.key.inodeId = inodeId) s.totalPages 0 (0, s)

def pagecacheFlushAll (ops : Ops σ) (s : Cache σ) : ℤ × Cache σ :=
  flushLoop ops (fun _ => true) s.totalPages 0 (0, s)

/-! ## Invalidation -/

def Cache.drop (s : Cache σ) (page : ℕ) : Option (Cache σ) :=
  ((s.lruRemove page).hashUnlink page).map fun s =>
    s.mod page fun p => { p with valid := false, dirty := false, hashNext := none }

/-- The loop of `pagecache_invalidate` and `pagecache_invalidate_range`. -/
def invalidateLoop (pick : Key → Bool) : ℕ → ℕ → Cache σ → Option (Cache σ)
  | 0, _, s => some s
  | n + 1, i, s =>
    let p := s.pagePool i
    if p.valid ∧ pick p.key ∧ p.refCount = 0 then
      (s.drop i).bind fun s => invalidateLoop pick n (i + 1) s
    else invalidateLoop pick n (i + 1) s

def ofInode (fsId inodeId : UInt64) (k : Key) : Bool := k.fsId = fsId ∧ k.inodeId = inodeId

def pagecacheInvalidate (s : Cache σ) (fsId inodeId : UInt64) : Option (Cache σ) :=
  invalidateLoop (ofInode fsId inodeId) s.totalPages 0 s

def inRange (fsId inodeId start «end» : UInt64) (k : Key) : Bool :=
  let startPage := start / 4096
  let endPage := («end» + 4096 - 1) / 4096
  ofInode fsId inodeId k && k.pageIndex ≥ startPage && k.pageIndex < endPage

def pagecacheInvalidateRange (s : Cache σ) (fsId inodeId start «end» : UInt64) : Option (Cache σ) :=
  invalidateLoop (inRange fsId inodeId start «end») s.totalPages 0 s

def pagecacheTruncate (s : Cache σ) (fsId inodeId newSize : UInt64) : Option (Cache σ) :=
  let lastPage := (newSize + 4096 - 1) / 4096
  pagecacheInvalidateRange s fsId inodeId (lastPage * 4096) 0xFFFFFFFFFFFFFFFF

end PageCache
