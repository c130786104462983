import Kenux.Lib.Files

/-!
# The journal (`arch/x86_64/jbd2.c`)

The transactions are the linked list from `trans_list_head` on, each with the address it was allocated at; a
call on a transaction that was freed has no result, and neither has a call that waits for a lock that its
caller holds. The transactions also record the journal blocks that were allocated for them and not released.
-/

/-!
## The device under the journal (`arch/x86_64/jbd2.c`, lines 50 to 115)

`ahci_read_sector` and `ahci_write_sector` transfer sectors of 512 bytes and may fail, as `kmalloc` may;
which of the calls succeed is given from outside. Every sector written is recorded with what it was written
for.
-/

namespace Jbd2

open Memory Disk

/-- `jbd2_block_t`; its flags one by one. -/
structure Block where
  blockNo : ℕ
  journalBlockNo : ℕ
  dirty : Bool
  committed : Bool
  revoked : Bool
  inLog : Bool
  written : Bool
  data : Mem
  dataSize : ℕ

/-- What a sector is written for: the superblock, the descriptor or a data block of a transaction, its commit
record (with its blocks, and whether this is its last sector), or a block at home. -/
inductive Purpose where
  | superblock
  | descriptor (tid : ℕ)
  | commit (tid : ℕ) (blocks : List Block) (last : Bool)
  | home

/-- The disk as it was, the sectors written since, the outcomes of the calls to come, the bytes that happen to
lie behind a superblock in memory, and whether something was stored behind the end of a buffer. -/
structure Machine where
  disk : Device
  writes : List (Write Purpose)
  alloc : ℕ → Bool
  io : ℕ → Bool
  allocs : ℕ
  ios : ℕ
  junk : Mem
  overrun : Bool

/-- The disk as it is. -/
def Machine.dev (m : Machine) : Device := replay m.disk m.writes

def kmalloc (m : Machine) : Bool × Machine :=
  (m.alloc m.allocs, { m with allocs := m.allocs + 1 })

/-- Something is stored in the first `size` bytes of a buffer of `room` bytes. -/
def Machine.store (m : Machine) (size room : ℕ) : Machine :=
  { m with overrun := m.overrun || room < size }

def sectorSize : ℕ := 512

def ahciWriteSector (lba : ℕ) (data : Mem) (purpose : Purpose) (m : Machine) : Bool × Machine :=
  let m' := { m with ios := m.ios + 1 }
  if m.io m.ios then (true, { m' with writes := m.writes ++ [⟨lba, data, purpose⟩] })
  else (false, m')

/-- The sector, or `none` when it cannot be read. -/
def ahciReadSector (lba : ℕ) (m : Machine) : Option Mem × Machine :=
  let m' := { m with ios := m.ios + 1 }
  if m.io m.ios then (some (m.dev lba), m') else (none, m')

/-- The sectors from `i` on, `n` of them. -/
def writeSectors (lba : ℕ) (data : Mem) (purpose : ℕ → Purpose) : ℕ → ℕ → Machine → Bool × Machine
  | _, 0, m => (true, m)
  | i, n + 1, m =>
    match ahciWriteSector (lba + i) (fun o => data (i * sectorSize + o)) (purpose i) m with
    | (true, m) => writeSectors lba data purpose (i + 1) n m
    | (false, m) => (false, m)

/-- The buffer with the sectors from `i` on, `n` of them, put behind what `data` has already. -/
def readSectors (lba : ℕ) : ℕ → ℕ → Mem → Machine → Option Mem × Machine
  | _, 0, data, m => (some data, m)
  | i, n + 1, data, m =>
    match ahciReadSector (lba + i) m with
    | (some sector, m) =>
      readSectors lba (i + 1) n
        (fun o => if i * sectorSize ≤ o ∧ o < (i + 1) * sectorSize then sector (o - i * sectorSize) else data o) m
    | (none, m) => (none, m)

/-- Where a block of the device starts: 64-bit arithmetic. -/
def lbaOf (devBlockSize blockNo : ℕ) : ℕ := blockNo * (devBlockSize / sectorSize) % 2 ^ 64

def totalSectors (size : ℕ) : ℕ := (size + sectorSize - 1) % 2 ^ 32 / sectorSize

def jbd2WriteBlockToDevice (devBlockSize blockNo : ℕ) (data : Mem) (size : ℕ) (purpose : ℕ → Purpose)
    (m : Machine) : Bool × Machine :=
  if size = 0 then (false, m)
  else writeSectors (lbaOf devBlockSize blockNo) data purpose 0 (totalSectors size) m

def jbd2ReadBlockFromDevice (devBlockSize blockNo size : ℕ) (m : Machine) : Option Mem × Machine :=
  if size = 0 then (none, m)
  else readSectors (lbaOf devBlockSize blockNo) 0 (totalSectors size) m.junk m

inductive TransState where
  | running | locked | flushing | committing | finished
  deriving DecidableEq

/-- `jbd2_transaction_t`; `block_count` and `data_block_count` are the length of `blocks`. -/
structure Transaction where
  address : ℕ
  tid : ℕ
  state : TransState
  blocks : List Block
  commitTimestamp : ℕ
  slots : List ℕ

/-- `jbd2_stats_t`. -/
structure Stats where
  totalTransactions : ℕ
  committedTransactions : ℕ
  abortedTransactions : ℕ
  checkpointed : ℕ

/-- `jbd2_journal_t`, the machine below it and the next address that `kzalloc` returns. -/
structure Journal where
  devBlockSize : ℕ
  journalStart : ℕ
  journalBlocks : ℕ
  nextTid : ℕ
  currentTrans : Option ℕ
  checkpointTrans : Option ℕ
  trans : List Transaction
  journalLock : Bool
  commitLock : Bool
  usedBlocks : ℕ
  lastCheckpointTid : ℕ
  stats : Stats
  initialized : Bool
  machine : Machine
  nextAddress : ℕ

def magic : ℕ := 0xC03B3998

def version : ℕ := 2

def transMaxBlocks : ℕ := 128

def maxRecoveryScan : ℕ := 65536

/-- `sizeof(jbd2_block_header_t)`. -/
def headerSize : ℕ := 4100

/-- `sizeof(jbd2_superblock_t)`. -/
def superblockSize : ℕ := 1112

/-- `JBD2_DESCRIPTOR`, `JBD2_COMMIT_BLOCK` and `JBD2_REVOKED`. -/
def typeDescriptor : ℕ := 1

def typeCommitBlock : ℕ := 2

def typeRevoked : ℕ := 3

/-! ## Locks and the machine -/

def lockJournal (j : Journal) : Option Journal :=
  if j.journalLock then none else some { j with journalLock := true }

def unlockJournal (j : Journal) : Journal := { j with journalLock := false }

def lockCommit (j : Journal) : Option Journal :=
  if j.commitLock then none else some { j with commitLock := true }

def unlockCommit (j : Journal) : Journal := { j with commitLock := false }

/-- A call of the machine. -/
def Journal.call {β : Type*} (j : Journal) (f : Machine → β × Machine) : β × Journal :=
  let r := f j.machine
  (r.1, { j with machine := r.2 })

def Journal.store (j : Journal) (size room : ℕ) : Journal :=
  { j with machine := j.machine.store size room }

/-- `jbd2_write_block_to_journal`. -/
def writeJournal (journalBlockNo : ℕ) (data : Mem) (size : ℕ) (purpose : ℕ → Purpose) (j : Journal) :
    Bool × Journal :=
  j.call (jbd2WriteBlockToDevice j.devBlockSize ((j.journalStart + journalBlockNo) % 2 ^ 64) data size purpose)

/-- `jbd2_read_block_from_journal`. -/
def readJournal (journalBlockNo size : ℕ) (j : Journal) : Option Mem × Journal :=
  j.call (jbd2ReadBlockFromDevice j.devBlockSize ((j.journalStart + journalBlockNo) % 2 ^ 64) size)

/-- A whole block of the journal is read into a buffer of its size. -/
def readBlock (journalBlockNo : ℕ) (j : Journal) : Option Mem × Journal :=
  match readJournal journalBlockNo j.devBlockSize j with
  | (some data, j) => (some data, j.store (totalSectors j.devBlockSize * sectorSize) j.devBlockSize)
  | (none, j) => (none, j)

/-- A block is written to its home. -/
def writeHome (blockNo : ℕ) (data : Mem) (size : ℕ) (j : Journal) : Bool × Journal :=
  j.call (jbd2WriteBlockToDevice j.devBlockSize blockNo data size fun _ => .home)

/-! ## Records -/

/-- The superblock in memory; behind it whatever is there. -/
def superblock (j : Journal) : Mem :=
  let zero : Mem := fun o => if o < superblockSize then 0 else j.machine.junk o
  let sb := store zero 0 magic 4
  let sb := store sb 4 version 4
  let sb := store sb 8 j.devBlockSize 4
  let sb := store sb 12 j.journalStart 8
  let sb := store sb 20 j.journalBlocks 8
  let sb := store sb 44 j.nextTid 8
  let sb := store sb 36 j.lastCheckpointTid 8
  let sb := store sb 28 (j.lastCheckpointTid + 1) 8
  let sb := store sb 52 ((j.journalBlocks + 2 ^ 64 - j.usedBlocks) % 2 ^ 64) 8
  store sb 72 (j.nextTid ^^^ j.journalStart) 8

def jbd2WriteSuperblock (j : Journal) : Journal :=
  (writeJournal 0 (superblock j) superblockSize (fun _ => .superblock) j).2

/-- A zeroed buffer with a header. -/
def header (blockType tid blockCount : ℕ) : Mem :=
  let hdr := store (fun _ => 0) 0 magic 4
  let hdr := store hdr 4 blockType 4
  let hdr := store hdr 8 tid 8
  store hdr 16 blockCount 4

/-- The block numbers from index `idx` on. -/
def putBlockNos (buf : Mem) : ℕ → List Block → Mem
  | _, [] => buf
  | idx, b :: bs => putBlockNos (store buf (headerSize + 8 * idx) b.blockNo 8) (idx + 1) bs

def descriptorBuf (tid : ℕ) (blocks : List Block) : Mem :=
  putBlockNos (header typeDescriptor tid blocks.length) 0 blocks

/-- How much of the data is copied behind the header, in 32-bit arithmetic. -/
def copySize (devBlockSize dataSize : ℕ) : ℕ :=
  if devBlockSize < (headerSize + dataSize) % 2 ^ 32 then (devBlockSize + 2 ^ 32 - headerSize) % 2 ^ 32
  else dataSize

def dataBuf (devBlockSize tid : ℕ) (b : Block) : Mem := fun o =>
  if headerSize ≤ o ∧ o < headerSize + copySize devBlockSize b.dataSize then b.data (o - headerSize)
  else header typeDescriptor tid 1 o

/-! ## Journal blocks -/

def jbd2AllocJournalBlock (j : Journal) : Option ℕ × Journal :=
  if j.usedBlocks ≥ j.journalBlocks then (none, j)
  else
    let dataBlocks := j.journalBlocks - 1
    (some (j.usedBlocks % dataBlocks + 1), { j with usedBlocks := j.usedBlocks + 1 })

def jbd2FreeJournalBlock (j : Journal) : Journal :=
  if j.usedBlocks > 0 then { j with usedBlocks := j.usedBlocks - 1 } else j

/-- One release for each block that is in the log. -/
def freeInLog (blocks : List Block) (j : Journal) : Journal :=
  blocks.foldl (fun j b => if b.inLog then jbd2FreeJournalBlock j else j) j

/-! ## Transactions -/

def Journal.find (j : Journal) (t : ℕ) : Option Transaction := j.trans.find? fun x => x.address = t

def Journal.modify (j : Journal) (t : ℕ) (f : Transaction → Transaction) : Journal :=
  { j with trans := j.trans.map fun x => if x.address = t then f x else x }

def Journal.setState (j : Journal) (t : ℕ) (state : TransState) : Journal :=
  j.modify t fun x => { x with state := state }

/-- `jbd2_trans_remove_from_list`. -/
def Journal.remove (j : Journal) (t : ℕ) : Journal :=
  { j with trans := j.trans.filter fun x => x.address ≠ t }

/-- `jbd2_free_transaction`, for a transaction that is in no list any more. -/
def jbd2FreeTransaction (x : Transaction) (j : Journal) : Journal := freeInLog x.blocks j

/-! ## The public operations -/

/-- What `jbd2_journal_init` takes from the superblock that it finds. -/
def adopt (sb : Mem) (j : Journal) : Journal :=
  let nextTid := load sb 44 8
  let freeBlocks := load sb 52 8
  { j with
    nextTid := if nextTid > 0 then nextTid else 1
    lastCheckpointTid := load sb 36 8
    usedBlocks := if freeBlocks < j.journalBlocks then j.journalBlocks - freeBlocks else j.usedBlocks }

def jbd2JournalInit (devBlockSize journalStart journalBlocks : ℕ) (j : Journal) : ℤ × Journal :=
  if devBlockSize = 0 ∨ journalBlocks < 16 then (-1, j)
  else
    let j : Journal :=
      { j with
        devBlockSize, journalStart, journalBlocks
        nextTid := 1, currentTrans := none, checkpointTrans := none, trans := []
        journalLock := false, commitLock := false, usedBlocks := 0, lastCheckpointTid := 0
        stats := ⟨0, 0, 0, 0⟩, initialized := false }
    let (sb, j) := readJournal 0 superblockSize j
    let j := match sb with
      | some sb =>
        if load sb 0 4 = magic then adopt sb j
        else jbd2WriteSuperblock { j with usedBlocks := 0 }
      | none => jbd2WriteSuperblock { j with usedBlocks := 0 }
    (0, { j with initialized := true })

/-- A journal block that `jbd2_journal_load` found a record in. -/
structure Found where
  blockNo : ℕ
  tid : ℕ
  blockType : ℕ
  deriving DecidableEq

/-- The records in the journal blocks from `i + 1` on, `n` of them. -/
def scan : ℕ → ℕ → Journal → List Found × Journal
  | _, 0, j => ([], j)
  | i, n + 1, j =>
    match readBlock (i + 1) j with
    | (some hdr, j) =>
      let rest := scan (i + 1) n j
      let blockType := load hdr 4 4
      if load hdr 0 4 = magic ∧
          (blockType = typeDescriptor ∨ blockType = typeCommitBlock ∨ blockType = typeRevoked) then
        (⟨i + 1, load hdr 8 8, blockType⟩ :: rest.1, rest.2)
      else rest
    | (none, j) => scan (i + 1) n j

/-- The blocks of a descriptor from index `b` on, `n` of them; block `b` is read behind the descriptor. -/
def replayBlocks (descriptor : ℕ) (scanBuf : Mem) : ℕ → ℕ → Journal → Journal
  | _, 0, j => j
  | b, n + 1, j =>
    let targetBlock := load scanBuf (headerSize + 8 * b) 8
    let dataJournalBlk := descriptor + 1 + b
    if dataJournalBlk ≥ j.journalBlocks then j
    else
      match j.call kmalloc with
      | (false, j) => replayBlocks descriptor scanBuf (b + 1) n j
      | (true, j) =>
        match readBlock dataJournalBlk j with
        | (some data, j) => replayBlocks descriptor scanBuf (b + 1) n (writeHome targetBlock data j.devBlockSize j).2
        | (none, j) => replayBlocks descriptor scanBuf (b + 1) n j

/-- The descriptors of one transaction. -/
def replayTrans (tid : ℕ) : List Found → Journal → Journal
  | [], j => j
  | r :: rs, j =>
    if r.tid = tid ∧ r.blockType = typeDescriptor then
      match readBlock r.blockNo j with
      | (some buf, j) => replayTrans tid rs (replayBlocks r.blockNo buf 0 (load buf 16 4) j)
      | (none, j) => replayTrans tid rs j
    else replayTrans tid rs j

/-- The transactions from `tid` on, `n` of them; how many were replayed. -/
def replayFrom (records : List Found) : ℕ → ℕ → Journal → ℤ × Journal
  | _, 0, j => (0, j)
  | tid, n + 1, j =>
    if records.any fun r => r.tid = tid ∧ r.blockType = typeCommitBlock then
      let j := replayTrans tid records j
      let j := if tid > j.lastCheckpointTid then { j with lastCheckpointTid := tid } else j
      let rest := replayFrom records (tid + 1) n j
      (rest.1 + 1, rest.2)
    else replayFrom records (tid + 1) n j

def maxTid (records : List Found) : ℕ := records.foldl (fun m r => if r.tid > m then r.tid else m) 0

/-- The part of `jbd2_journal_load` after its allocations. -/
def recover (j : Journal) : ℤ × Journal :=
  let dataAreaBlocks := j.journalBlocks - 1
  let maxScanned := if dataAreaBlocks < maxRecoveryScan then dataAreaBlocks else maxRecoveryScan
  let (records, j) := scan 0 maxScanned j
  if records = [] then (0, j)
  else if maxTid records = 0 then (0, j)
  else
    let (replayed, j) := replayFrom records 1 (maxTid records) j
    (replayed, jbd2WriteSuperblock { j with usedBlocks := 0 })

def jbd2JournalLoad (j : Journal) : ℤ × Journal :=
  if j.initialized then
    match j.call kmalloc with
    | (false, j) => (-1, j)
    | (true, j) =>
      let (blkNos, j) := j.call kmalloc
      let (tids, j) := j.call kmalloc
      let (types, j) := j.call kmalloc
      if blkNos ∧ tids ∧ types then recover j else (-1, j)
  else (-1, j)

def jbd2TransStart (j : Journal) : Option (Option ℕ × Journal) :=
  if j.initialized then
    match j.call kmalloc with
    | (false, j) => some (none, j)
    | (true, j) => do
      let j ← lockJournal j
      let t := j.nextAddress
      let x : Transaction := ⟨t, j.nextTid, .running, [], 0, []⟩
      let j := { j with
        nextAddress := t + 1, nextTid := j.nextTid + 1, trans := j.trans ++ [x], currentTrans := some t
        stats := { j.stats with totalTransactions := j.stats.totalTransactions + 1 } }
      some (some t, unlockJournal j)
  else some (none, j)

/-- The part of `jbd2_trans_log_block` under the lock. -/
def logBlock (t blockNo : ℕ) (data : Mem) (size : ℕ) (j : Journal) : ℤ × Journal :=
  if j.usedBlocks ≥ j.journalBlocks - 2 then (-4, unlockJournal j)
  else
    match j.call kmalloc with
    | (false, j) => (-5, unlockJournal j)
    | (true, j) =>
      match j.call kmalloc with
      | (false, j) => (-6, unlockJournal j)
      | (true, j) =>
        match jbd2AllocJournalBlock j with
        | (none, j) => (-7, unlockJournal j)
        | (some slot, j) =>
          let blk : Block := ⟨blockNo, slot, true, false, false, false, false, data, size⟩
          let j := j.modify t fun x => { x with blocks := x.blocks ++ [blk], slots := x.slots ++ [slot] }
          (0, unlockJournal j)

def jbd2TransLogBlock (t blockNo : ℕ) (data : Mem) (size : ℕ) (j : Journal) : Option (ℤ × Journal) := do
  if size = 0 then some (-1, j)
  else if j.initialized then
    let x ← j.find t
    if x.state ≠ .running then some (-2, j)
    else if x.blocks.length ≥ transMaxBlocks then some (-3, j)
    else
      let j ← lockJournal j
      some (logBlock t blockNo data size j)
  else some (-1, j)

/-- `trans->state = JBD2_LOCKED; spin_unlock(&jbd2_journal.commit_lock); return code;`. -/
def commitFails (t : ℕ) (code : ℤ) (j : Journal) : ℤ × Journal := (code, unlockCommit (j.setState t .locked))

/-- The descriptor of the transaction is written. -/
def commitDescriptor (x : Transaction) (j : Journal) : Except (ℤ × Journal) Journal :=
  let t := x.address
  match j.call kmalloc with
  | (false, j) => .error (commitFails t (-2) j)
  | (true, j) =>
    let j := j.store (headerSize + 8 * x.blocks.length) j.devBlockSize
    match jbd2AllocJournalBlock j with
    | (none, j) => .error (commitFails t (-3) j)
    | (some slot, j) =>
      match writeJournal slot (descriptorBuf x.tid x.blocks) j.devBlockSize (fun _ => .descriptor x.tid) j with
      | (false, j) => .error (commitFails t (-4) (jbd2FreeJournalBlock j))
      | (true, j) => .ok (j.modify t fun x => { x with slots := x.slots ++ [slot] })

/-- The data blocks of the transaction are written; `done` are those written already. -/
def commitData (x : Transaction) : List Block → List Block → Journal → Except (ℤ × Journal) Journal
  | done, [], j => .ok (j.modify x.address fun y => { y with blocks := done })
  | done, b :: bs, j =>
    let stop (j : Journal) (code : ℤ) :=
      commitFails x.address code (j.modify x.address fun y => { y with blocks := done ++ b :: bs })
    match j.call kmalloc with
    | (false, j) => .error (stop j (-5))
    | (true, j) =>
      let j := j.store (headerSize + copySize j.devBlockSize b.dataSize) j.devBlockSize
      match writeJournal b.journalBlockNo (dataBuf j.devBlockSize x.tid b) j.devBlockSize
          (fun _ => .descriptor x.tid) j with
      | (false, j) => .error (stop j (-6))
      | (true, j) => commitData x (done ++ [{ b with committed := true, inLog := true }]) bs j

/-- The commit record is written, and after it the superblock. -/
def commitRecord (x : Transaction) (j : Journal) : ℤ × Journal :=
  let t := x.address
  let j := j.setState t .committing
  match j.call kmalloc with
  | (false, j) => commitFails t (-7) j
  | (true, j) =>
    let j := j.store 20 j.devBlockSize
    match jbd2AllocJournalBlock j with
    | (none, j) => commitFails t (-8) j
    | (some slot, j) =>
      let lastSector := totalSectors j.devBlockSize - 1
      match writeJournal slot (header typeCommitBlock x.tid x.blocks.length) j.devBlockSize
          (fun i => .commit x.tid x.blocks (i = lastSector)) j with
      | (false, j) => commitFails t (-9) (jbd2FreeJournalBlock j)
      | (true, j) =>
        let j := j.modify t fun x =>
          { x with state := .finished, commitTimestamp := j.nextTid, slots := x.slots ++ [slot] }
        let j := { j with
          stats := { j.stats with committedTransactions := j.stats.committedTransactions + 1 }
          checkpointTrans := some t }
        (0, unlockCommit (jbd2WriteSuperblock j))

/-- The part of `jbd2_trans_commit` under the lock. -/
def commit (x : Transaction) (j : Journal) : ℤ × Journal :=
  let t := x.address
  let j := j.setState t .locked
  let j := if j.currentTrans = some t then { j with currentTrans := none } else j
  let j := j.setState t .flushing
  if x.blocks = [] then commitRecord x j
  else
    match (do let j ← commitDescriptor x j; commitData x [] x.blocks j) with
    | .error e => e
    | .ok j => commitRecord x j

def jbd2TransCommit (t : ℕ) (j : Journal) : Option (ℤ × Journal) := do
  if j.initialized then
    let x ← j.find t
    if x.state = .finished ∨ x.state = .committing then some (0, j)
    else
      let j ← lockCommit j
      some (commit x j)
  else some (-1, j)

def jbd2TransAbort (t : ℕ) (j : Journal) : Option Journal := do
  let x ← j.find t
  let j ← lockJournal j
  let blocks := x.blocks.map fun b => { b with revoked := true, dirty := false }
  let j := freeInLog blocks j
  let j := { j with stats := { j.stats with abortedTransactions := j.stats.abortedTransactions + 1 } }
  let j := if j.currentTrans = some t then { j with currentTrans := none } else j
  let j := j.remove t
  let j := jbd2WriteSuperblock j
  let j := unlockJournal j
  some (jbd2FreeTransaction { x with blocks := blocks } j)

/-- The blocks of a finished transaction are written home and released; how many were released. -/
def checkpointBlocks : List Block → Journal → ℕ × Journal
  | [], j => (0, j)
  | b :: bs, j =>
    let j := if b.dataSize > 0 then (writeHome b.blockNo b.data b.dataSize j).2 else j
    if b.inLog then
      let rest := checkpointBlocks bs (jbd2FreeJournalBlock j)
      (rest.1 + 1, rest.2)
    else checkpointBlocks bs j

/-- The transactions that are still to be looked at. -/
def checkpointTrans : List Transaction → Journal → ℕ × Journal
  | [], j => (0, j)
  | x :: xs, j =>
    if x.state ≠ .finished then checkpointTrans xs j
    else
      let (freed, j) := checkpointBlocks x.blocks j
      let j := if x.tid > j.lastCheckpointTid then { j with lastCheckpointTid := x.tid } else j
      let j := j.remove x.address
      -- no block is in the log any more
      let j := jbd2FreeTransaction { x with blocks := x.blocks.map fun b => { b with inLog := false } } j
      let rest := checkpointTrans xs j
      (freed + rest.1, rest.2)

def jbd2JournalCheckpoint (j : Journal) : Option (ℤ × Journal) := do
  if j.initialized then
    let j ← lockCommit j
    let (freed, j) := checkpointTrans j.trans j
    let j := { j with stats := { j.stats with checkpointed := j.lastCheckpointTid } }
    let j := jbd2WriteSuperblock j
    some (freed, unlockCommit j)
  else some (-1, j)

/-- The blocks of a finished transaction that were not written home yet; whether there was none. -/
def flushBlocks : List Block → Journal → List Block × Bool × Journal
  | [], j => ([], true, j)
  | b :: bs, j =>
    if b.written then
      let (bs, all, j) := flushBlocks bs j
      (b :: bs, all, j)
    else
      let j := if b.dataSize > 0 then (writeHome b.blockNo b.data b.dataSize j).2 else j
      let (bs, _, j) := flushBlocks bs j
      ({ b with written := true } :: bs, false, j)

def flushTrans : List Transaction → Journal → Journal
  | [], j => j
  | x :: xs, j =>
    if x.state ≠ .finished then flushTrans xs j
    else
      let (blocks, all, j) := flushBlocks x.blocks j
      if all then flushTrans xs (jbd2FreeTransaction x (j.remove x.address))
      else flushTrans xs (j.modify x.address fun y => { y with blocks := blocks })

def jbd2JournalFlush (j : Journal) : Option (ℤ × Journal) := do
  if j.initialized then
    let j ← lockCommit j
    let (ret, j) ← jbd2JournalCheckpoint j
    let j := if ret ≥ 0 then jbd2WriteSuperblock { flushTrans j.trans j with usedBlocks := 0 } else j
    some (ret, unlockCommit j)
  else some (-1, j)

/-- `jbd2_journal_destroy` from its lock on: the running transaction is aborted. -/
def destroyCurrent (j : Journal) : Option Journal :=
  match j.currentTrans with
  | some t => do
    let j ← jbd2TransAbort t j
    some { j with currentTrans := none }
  | none => some j

def jbd2JournalDestroy (j : Journal) : Option Journal := do
  if j.initialized then
    let j ← lockJournal j
    let j ← destroyCurrent j
    let j := j.trans.foldl (fun j x => jbd2FreeTransaction x j) j
    let j := { j with trans := [], checkpointTrans := none, usedBlocks := 0 }
    let j := jbd2WriteSuperblock j
    some (unlockJournal { j with initialized := false })
  else some j

/-- The statistics with the used and the free blocks and the percentage. -/
def jbd2GetStats (j : Journal) : Option (Option (Stats × ℕ × ℕ × ℕ) × Journal) := do
  if j.initialized then
    let j ← lockJournal j
    let percent := if j.journalBlocks > 0 then j.usedBlocks * 100 / j.journalBlocks else 0
    let free := (j.journalBlocks + 2 ^ 64 - j.usedBlocks) % 2 ^ 64
    some (some (j.stats, j.usedBlocks, free, percent), unlockJournal j)
  else some (none, j)

inductive Op where
  | init (devBlockSize journalStart journalBlocks : ℕ)
  | load
  | destroy
  | start
  | log (t blockNo : ℕ) (data : Mem) (size : ℕ)
  | commit (t : ℕ)
  | abort (t : ℕ)
  | flush
  | checkpoint
  | getStats

def step (j : Journal) : Op → Option Journal
  | .init devBlockSize journalStart journalBlocks => some (jbd2JournalInit devBlockSize journalStart journalBlocks j).2
  | .load => some (jbd2JournalLoad j).2
  | .destroy => jbd2JournalDestroy j
  | .start => (jbd2TransStart j).map Prod.snd
  | .log t blockNo data size => (jbd2TransLogBlock t blockNo data size j).map Prod.snd
  | .commit t => (jbd2TransCommit t j).map Prod.snd
  | .abort t => jbd2TransAbort t j
  | .flush => (jbd2JournalFlush j).map Prod.snd
  | .checkpoint => (jbd2JournalCheckpoint j).map Prod.snd
  | .getStats => (jbd2GetStats j).map Prod.snd

end Jbd2
