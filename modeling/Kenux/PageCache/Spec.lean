import Kenux.Lib.Run
import Kenux.Lib.TailList
import Kenux.PageCache.Model

/-!
# What is asked of the page cache

The calls on the cache as a state machine; the array of bytes that it should be for each file system and
inode; and what its counters and lists should say.
-/

namespace PageCache

open SList Deque

variable {σ : Type*}

section Calls

inductive Call where
  | get (k : Key)
  | release (page : ℕ)
  | read (fsId inodeId offset : UInt64) (size : UInt32)
  | write (fsId inodeId offset : UInt64) (src : ℕ → UInt8) (size : UInt32)
  | readahead (fsId inodeId pageIndex : UInt64) (count : ℕ)
  | markDirty (page : ℕ)
  | flushPage (page : ℕ)
  | flushInode (fsId inodeId : UInt64)
  | flushAll
  | invalidate (fsId inodeId : UInt64)
  | invalidateRange (fsId inodeId start «end» : UInt64)
  | truncate (fsId inodeId newSize : UInt64)

inductive Result where
  | page (p : Option ℕ)
  | code (r : ℤ)
  | bytes (r : ℤ) (bs : List UInt8)
  | void

/-- One call; `none` is a call that does not return. -/
def call (ops : Ops σ) (s : Cache σ) : Call → Option (Result × Cache σ)
  | .get k => (pagecacheGet ops s k).map fun (p, s) => (.page p, s)
  | .release page => some (.void, pagecacheRelease s page)
  | .read fsId inodeId offset size =>
    (pagecacheRead ops s fsId inodeId offset size).map fun (r, bs, s) => (.bytes r bs, s)
  | .write fsId inodeId offset src size =>
    (pagecacheWrite ops s fsId inodeId offset src size).map fun (r, s) => (.code r, s)
  | .readahead fsId inodeId pageIndex count =>
    (pagecacheReadahead ops fsId inodeId pageIndex count 0 s).map fun s => (.void, s)
  | .markDirty page => some (.code 0, pagecacheMarkDirty s page)
  | .flushPage page => let r := pagecacheFlushPage ops s page; some (.code r.1, r.2)
  | .flushInode fsId inodeId => let r := pagecacheFlushInode ops s fsId inodeId; some (.code r.1, r.2)
  | .flushAll => let r := pagecacheFlushAll ops s; some (.code r.1, r.2)
  | .invalidate fsId inodeId => (pagecacheInvalidate s fsId inodeId).map fun s => (.void, s)
  | .invalidateRange fsId inodeId start «end» =>
    (pagecacheInvalidateRange s fsId inodeId start «end»).map fun s => (.void, s)
  | .truncate fsId inodeId newSize => (pagecacheTruncate s fsId inodeId newSize).map fun s => (.void, s)

def step (ops : Ops σ) (s : Cache σ) (c : Call) : Option (Cache σ) := (call ops s c).map Prod.snd

end Calls

section Array

/-- A byte array for each file system and inode. -/
abbrev Arrays := UInt64 → UInt64 → ℕ → UInt8

/-- The bytes of a page. -/
def pageOf (A : Arrays) (k : Key) : Page := fun o => A k.fsId k.inodeId (k.pageIndex.toNat * pageSize + o)

/-- The arrays in a store. -/
def arraysOf (contents : Key → Page) : Arrays := fun fsId inodeId p =>
  contents ⟨fsId, inodeId, UInt64.ofNat (p / pageSize)⟩ (Fin.ofNat pageSize p)

/-- The `n` bytes from an offset on; positions have 64 bits. -/
def readBytes (A : Arrays) (fsId inodeId offset : UInt64) (n : ℕ) : List UInt8 :=
  (List.range n).map fun j => A fsId inodeId (offset + UInt64.ofNat j).toNat

def writeBytes (A : Arrays) (fsId inodeId offset : UInt64) (src : ℕ → UInt8) (n : ℕ) : Arrays :=
  fun fsId' inodeId' p =>
    let j := (UInt64.ofNat p - offset).toNat
    if fsId' = fsId ∧ inodeId' = inodeId ∧ p < 2 ^ 64 ∧ j < n then src j else A fsId' inodeId' p

/-- A store that reads back what was last written and does not fail. -/
structure ReadsBack (ops : Ops σ) where
  readPage : σ → Key → Page → ℤ × Page × σ
  writePage : σ → Key → Page → ℤ × σ
  contents : σ → Key → Page
  read_eq : ops.readPage = some readPage
  write_eq : ops.writePage = some writePage
  read_ok : ∀ w k p, (readPage w k p).1 = 0
  read_data : ∀ w k p, (readPage w k p).2.1 = contents w k
  read_same : ∀ w k p, contents (readPage w k p).2.2 = contents w
  write_ok : ∀ w k p, (writePage w k p).1 = 0
  write_data : ∀ w k p, contents (writePage w k p).2 = Function.update (contents w) k p

/-- The arrays after a call. -/
def effect (A : Arrays) : Call → Arrays
  | .write fsId inodeId offset src size => writeBytes A fsId inodeId offset src size.toNat
  | _ => A

/-- A read gives the bytes of the arrays. -/
def Answers (A : Arrays) : Call → Result → Prop
  | .read fsId inodeId offset size, .bytes r bs => size ≠ 0 →
    r = size.toInt32.toInt ∧ bs = readBytes A fsId inodeId offset size.toNat
  | .read .., _ => False
  | _, _ => True

/-- Reads, writes, read-ahead and flushing. -/
def IsTransfer : Call → Prop
  | .read .. | .write .. | .readahead .. | .flushPage .. | .flushInode .. | .flushAll => True
  | _ => False

/-- Every call returns, every read gives the bytes of the arrays, and flushing all pages after the last
call leaves the arrays in the store. -/
def RefinesArrays (ops : Ops σ) (contents : σ → Key → Page) : Cache σ → Arrays → List Call → Prop
  | s, A, [] => ∀ k, contents (pagecacheFlushAll ops s).2.world k = pageOf A k
  | s, A, c :: cs => ∃ r s', call ops s c = some (r, s') ∧ Answers A c r ∧
    RefinesArrays ops contents s' (effect A c) cs

end Array

section Sound

def Cache.Cached (s : Cache σ) (k : Key) : Prop :=
  ∃ i < s.totalPages, (s.pagePool i).valid ∧ (s.pagePool i).key = k

/-- A `pagecache_get` that has to read the page reads it without a failure. -/
def ReadOk (ops : Ops σ) (s : Cache σ) (k : Key) : Prop :=
  ∀ page s', s.findPage k = some none → takePage ops s.missed = some (some page, s') →
    (readIn ops (s'.claim page k) page).1 = 0

/-- The number of dirty pages, the LRU list and the hash chains are right, and no page is lost. -/
structure Sound (ops : Ops σ) (s : Cache σ) : Prop where
  dirty : s.dirtyPages = ((Finset.range s.totalPages).filter fun i =>
    (s.pagePool i).valid ∧ (s.pagePool i).dirty).card
  lru : ∃ l, IsDeque s.lruNext s.lruPrev s.lruHead s.lruTail l ∧
    ∀ i, i ∈ l ↔ i < s.totalPages ∧ (s.pagePool i).valid
  chains : ∀ b, ∃ c, Chained s.hashNext (s.hashTable b) c ∧ c.Nodup ∧
    ∀ i, i ∈ c ↔ (i < s.totalPages ∧ (s.pagePool i).valid) ∧ pagecacheHash (s.pagePool i).key = b
  available : ∀ k, ¬s.Cached k → ReadOk ops s k →
    ((Finset.range s.totalPages).filter fun i => (s.pagePool i).refCount ≠ 0).card < s.totalPages →
    ∃ page s', pagecacheGet ops s k = some (some page, s')

/-- What keeps a call from losing a page or counting it twice. -/
def RoundsOk {α : Type*} (ops : Ops σ) (ok : Cache σ → Key → Prop) (fsId inodeId : UInt64)
    (body : ℕ → ℕ → ℕ → ℕ → α × Cache σ → α × Cache σ) : ℕ → UInt64 → ℕ → ℕ → α × Cache σ → Prop
  | 0, _, _, _, _ => True
  | fuel + 1, pos, done, remaining, (a, s) =>
    remaining ≠ 0 → ok s (keyAt fsId inodeId pos) ∧
      ∀ page s', pagecacheGet ops s (keyAt fsId inodeId pos) = some (some page, s') →
        let n := toCopy pos remaining
        let (a, s) := body page (pos.toNat % pageSize) done n (a, s')
        RoundsOk ops ok fsId inodeId body fuel (pos + UInt64.ofNat n) (done + n) (remaining - n)
          (a, pagecacheRelease s page)

def ReadaheadOk (ops : Ops σ) (fsId inodeId pageIndex : UInt64) : ℕ → ℕ → Cache σ → Prop
  | 0, _, _ => True
  | count + 1, i, s =>
    let k : Key := ⟨fsId, inodeId, pageIndex + UInt64.ofNat i⟩
    ReadOk ops s k ∧ ∀ page s', pagecacheGet ops s k = some (some page, s') →
      ReadaheadOk ops fsId inodeId pageIndex count (i + 1) (pagecacheRelease s' page)

/-- The page for a key is not in the cache or not dirty. -/
def Cache.CleanAt (s : Cache σ) (k : Key) : Prop :=
  ∀ i < s.totalPages, (s.pagePool i).valid → (s.pagePool i).key = k → (s.pagePool i).dirty = false

/-- No valid page without a holder is picked. -/
def Cache.DropsNone (s : Cache σ) (pick : Key → Bool) : Prop :=
  ∀ i < s.totalPages, ¬((s.pagePool i).valid ∧ pick (s.pagePool i).key ∧ (s.pagePool i).refCount = 0)

/-- Pages that are not in the cache are read without a failure, pages are clean when they are written to,
pages that are marked are valid, and nothing is invalidated. -/
def CallOk (ops : Ops σ) (s : Cache σ) : Call → Prop
  | .get k => ReadOk ops s k
  | .read fsId inodeId offset size =>
    RoundsOk ops (ReadOk ops) fsId inodeId readBody size.toNat offset 0 size.toNat ([], s)
  | .write fsId inodeId offset src size =>
    RoundsOk ops (fun s k => ReadOk ops s k ∧ s.CleanAt k) fsId inodeId (writeBody src) size.toNat offset 0
      size.toNat ((), s)
  | .readahead fsId inodeId pageIndex count => ReadaheadOk ops fsId inodeId pageIndex count 0 s
  | .markDirty page => (s.pagePool page).valid
  | .invalidate fsId inodeId => s.DropsNone (ofInode fsId inodeId)
  | .invalidateRange fsId inodeId start «end» => s.DropsNone (inRange fsId inodeId start «end»)
  | .truncate fsId inodeId newSize =>
    s.DropsNone (inRange fsId inodeId ((newSize + 4096 - 1) / 4096 * 4096) 0xFFFFFFFFFFFFFFFF)
  | _ => True

end Sound

end PageCache

/-!
## What an invalidation should drop

A range of bytes and the pages of a file that have some of them, in numbers that do not wrap around.
-/

namespace PageCache

variable {σ : Type*}

/-- Some byte from `start` on and before `end` is in the page. -/
def Touches (start «end» pageIndex : ℕ) : Prop := ∃ b, start ≤ b ∧ b < «end» ∧ b / pageSize = pageIndex

/-- The first page behind a file of some size. -/
def pagesOf (size : ℕ) : ℕ := (size + pageSize - 1) / pageSize

/-- The fields of a page but for its links. -/
def SamePage (p p' : CachePage) : Prop :=
  p'.key = p.key ∧ p'.data = p.data ∧ p'.dirty = p.dirty ∧ p'.refCount = p.refCount ∧ p'.valid = p.valid

/-- Of the pages without a holder those with `P` are dropped; all others are untouched. -/
def DropsExactly (s s' : Cache σ) (P : Key → Prop) : Prop :=
  ∀ i < s.totalPages,
    ((s.pagePool i).valid = true → (s.pagePool i).refCount = 0 → P (s.pagePool i).key → (s'.pagePool i).valid = false) ∧
      (¬((s.pagePool i).valid = true ∧ (s.pagePool i).refCount = 0 ∧ P (s.pagePool i).key) →
        SamePage (s.pagePool i) (s'.pagePool i))

def InvalidatesRange (s s' : Cache σ) (fsId inodeId start «end» : UInt64) : Prop :=
  DropsExactly s s' fun k => ofInode fsId inodeId k = true ∧ Touches start.toNat «end».toNat k.pageIndex.toNat

/-- No page without a holder is left behind the new size; other pages are untouched. -/
structure Truncates (s s' : Cache σ) (fsId inodeId newSize : UInt64) : Prop where
  gone : ∀ i < s.totalPages, (s'.pagePool i).valid = true → (s'.pagePool i).refCount = 0 →
    ofInode fsId inodeId (s'.pagePool i).key = true → (s'.pagePool i).key.pageIndex.toNat < pagesOf newSize.toNat
  untouched : ∀ i < s.totalPages, ¬(ofInode fsId inodeId (s.pagePool i).key = true ∧
      pagesOf newSize.toNat ≤ (s.pagePool i).key.pageIndex.toNat) → SamePage (s.pagePool i) (s'.pagePool i)

/-- The inode has a page without a holder, with an index in a set. -/
def HasFree (s : Cache σ) (fsId inodeId : UInt64) (P : ℕ → Prop) : Prop :=
  ∃ i < s.totalPages, (s.pagePool i).valid = true ∧ (s.pagePool i).refCount = 0 ∧
    ofInode fsId inodeId (s.pagePool i).key = true ∧ P (s.pagePool i).key.pageIndex.toNat

end PageCache
