import Kenux.Jbd2.Model

/-!
# What the operations on a transaction do

One lemma for each part of a commit, and one for each operation: which journal blocks it takes, what it changes
of the transactions, and which sectors it writes.
-/

/-!
## What the calls of the machine do
-/

namespace Jbd2

open Memory Disk

variable {m m' m'' : Machine} {P Q : Write Purpose → Prop} {fits : Prop}

/-- The machine went on from `m` to `m'`: it wrote sectors that meet `P`, and nothing behind a buffer if the
stores fit. -/
structure Goes (m m' : Machine) (P : Write Purpose → Prop) (fits : Prop) : Prop where
  disk : m'.disk = m.disk
  junk : m'.junk = m.junk
  io : m'.io = m.io
  overrun : fits → m'.overrun = m.overrun
  writes : ∃ ws, m'.writes = m.writes ++ ws ∧ ∀ w ∈ ws, P w

theorem Goes.refl (m : Machine) : Goes m m P fits :=
  ⟨rfl, rfl, rfl, fun _ => rfl, [], (List.append_nil _).symm, by simp⟩

theorem Goes.trans (h : Goes m m' P fits) (h' : Goes m' m'' P fits) : Goes m m'' P fits := by
  obtain ⟨ws, hws, hP⟩ := h.writes
  obtain ⟨ws', hws', hP'⟩ := h'.writes
  refine ⟨h'.disk.trans h.disk, h'.junk.trans h.junk, h'.io.trans h.io,
    fun hf => (h'.overrun hf).trans (h.overrun hf), ws ++ ws', ?_, fun w hw => ?_⟩
  · rw [hws', hws, List.append_assoc]
  · exact (List.mem_append.mp hw).elim (hP w) (hP' w)

theorem Goes.mono (h : Goes m m' P fits) (hPQ : ∀ w, P w → Q w) {fits' : Prop} (hf : fits' → fits) :
    Goes m m' Q fits' := by
  obtain ⟨ws, hws, hP⟩ := h.writes
  exact ⟨h.disk, h.junk, h.io, fun hf' => h.overrun (hf hf'), ws, hws, fun w hw => hPQ w (hP w hw)⟩

theorem goes_kmalloc (m : Machine) : Goes m (kmalloc m).2 P fits :=
  ⟨rfl, rfl, rfl, fun _ => rfl, [], (List.append_nil _).symm, by simp⟩

theorem goes_store (size room : ℕ) (h : fits → size ≤ room) (m : Machine) : Goes m (m.store size room) P fits := by
  refine ⟨rfl, rfl, rfl, fun hf => ?_, [], (List.append_nil _).symm, by simp⟩
  have hle := h hf
  simp [Machine.store, hle]

theorem goes_writeSector {lba : ℕ} {data : Mem} {purpose : Purpose} (hP : P ⟨lba, data, purpose⟩) (m : Machine) :
    Goes m (ahciWriteSector lba data purpose m).2 P fits := by
  unfold ahciWriteSector
  dsimp only
  split_ifs
  · exact ⟨rfl, rfl, rfl, fun _ => rfl, _, rfl, by simpa using hP⟩
  · exact ⟨rfl, rfl, rfl, fun _ => rfl, [], (List.append_nil _).symm, by simp⟩

/-- One of the sectors of a buffer that is written from sector `lba` on. -/
def SectorOf (lba : ℕ) (data : Mem) (purpose : ℕ → Purpose) (n : ℕ) (w : Write Purpose) : Prop :=
  ∃ i < n, w = ⟨lba + i, fun o => data (i * sectorSize + o), purpose i⟩

theorem goes_writeSectors (lba : ℕ) (data : Mem) (purpose : ℕ → Purpose) (i n : ℕ) (m : Machine) :
    Goes m (writeSectors lba data purpose i n m).2 (SectorOf lba data purpose (i + n)) fits := by
  induction n generalizing i m with
  | zero => exact .refl m
  | succ n ih =>
    have hone : Goes m (ahciWriteSector (lba + i) (fun o => data (i * sectorSize + o)) (purpose i) m).2
        (SectorOf lba data purpose (i + (n + 1))) fits := goes_writeSector ⟨i, by omega, rfl⟩ m
    unfold writeSectors
    cases hw : ahciWriteSector (lba + i) (fun o => data (i * sectorSize + o)) (purpose i) m with
    | mk ok m' =>
      rw [hw] at hone
      cases ok with
      | false => exact hone
      | true =>
        have hrest := ih (i + 1) m'
        rw [show i + 1 + n = i + (n + 1) by omega] at hrest
        exact hone.trans hrest

theorem goes_write (devBlockSize blockNo size : ℕ) (data : Mem) (purpose : ℕ → Purpose) (m : Machine) :
    Goes m (jbd2WriteBlockToDevice devBlockSize blockNo data size purpose m).2
      (SectorOf (lbaOf devBlockSize blockNo) data purpose (totalSectors size)) fits := by
  unfold jbd2WriteBlockToDevice
  split_ifs
  · exact .refl m
  · have hwrite := @goes_writeSectors fits (lbaOf devBlockSize blockNo) data purpose 0 (totalSectors size) m
    rw [Nat.zero_add] at hwrite
    exact hwrite

end Jbd2

namespace Jbd2

open Memory Disk

variable {j j' j'' : Journal} {x : Transaction} {t : ℕ} {P : Write Purpose → Prop} {fits : Prop}

/-! ## Sectors of records -/

/-- A sector of a record in a journal block: its header has the type and the transaction. -/
def RecordAt (j : Journal) (slot tid blockType : ℕ) (purpose : ℕ → Purpose) (w : Write Purpose) : Prop :=
  ∃ data, SectorOf (lbaOf j.devBlockSize ((j.journalStart + slot) % 2 ^ 64)) data purpose
    (totalSectors j.devBlockSize) w ∧ load data 4 4 = blockType ∧ load data 8 8 = tid % 2 ^ 64

/-- A sector of the superblock, which has zeros behind its fields. -/
def SuperAt (j : Journal) (w : Write Purpose) : Prop :=
  ∃ data, SectorOf (lbaOf j.devBlockSize ((j.journalStart + 0) % 2 ^ 64)) data (fun _ => .superblock)
    (totalSectors superblockSize) w ∧ ∀ o, 80 ≤ o → o < superblockSize → data o = 0

theorem header_type {blockType tid n : ℕ} (h : blockType < 2 ^ 32) :
    load (header blockType tid n) 4 4 = blockType := by
  unfold header
  rw [load_store_apart (by omega), load_store_apart (by omega), load_store_of_lt h]

theorem header_tid (blockType tid n : ℕ) : load (header blockType tid n) 8 8 = tid % 2 ^ 64 := by
  unfold header
  rw [load_store_apart (by omega), load_store_same, show 256 ^ 8 = 2 ^ 64 from rfl]

/-- The block numbers lie behind the header. -/
theorem putBlockNos_below (buf : Mem) (idx : ℕ) (bs : List Block) {o : ℕ} (h : o < headerSize) :
    putBlockNos buf idx bs o = buf o := by
  induction bs generalizing buf idx with
  | nil => rfl
  | cons b bs ih =>
    unfold putBlockNos
    rw [ih, store_other (by omega)]

theorem descriptorBuf_type (tid : ℕ) (blocks : List Block) :
    load (descriptorBuf tid blocks) 4 4 = typeDescriptor := by
  rw [← @header_type typeDescriptor tid blocks.length (by decide)]
  exact load_congr fun i hi => putBlockNos_below _ _ _ (by unfold headerSize; omega)

theorem descriptorBuf_tid (tid : ℕ) (blocks : List Block) :
    load (descriptorBuf tid blocks) 8 8 = tid % 2 ^ 64 := by
  rw [← header_tid typeDescriptor tid blocks.length]
  exact load_congr fun i hi => putBlockNos_below _ _ _ (by unfold headerSize; omega)

/-- The data lies behind the header. -/
theorem dataBuf_below (devBlockSize tid : ℕ) (b : Block) {o : ℕ} (h : o < headerSize) :
    dataBuf devBlockSize tid b o = header typeDescriptor tid 1 o := by
  unfold dataBuf
  exact if_neg fun hin => absurd hin.1 (by omega)

theorem dataBuf_type (devBlockSize tid : ℕ) (b : Block) :
    load (dataBuf devBlockSize tid b) 4 4 = typeDescriptor := by
  rw [← @header_type typeDescriptor tid 1 (by decide)]
  exact load_congr fun i hi => dataBuf_below _ _ _ (by unfold headerSize; omega)

theorem dataBuf_tid (devBlockSize tid : ℕ) (b : Block) :
    load (dataBuf devBlockSize tid b) 8 8 = tid % 2 ^ 64 := by
  rw [← header_tid typeDescriptor tid 1]
  exact load_congr fun i hi => dataBuf_below _ _ _ (by unfold headerSize; omega)

theorem superblock_zero (j : Journal) {o : ℕ} (hlo : 80 ≤ o) (hhi : o < superblockSize) : superblock j o = 0 := by
  unfold superblock
  rw [store_other (by omega), store_other (by omega), store_other (by omega), store_other (by omega),
    store_other (by omega), store_other (by omega), store_other (by omega), store_other (by omega),
    store_other (by omega), store_other (by omega)]
  exact if_pos hhi

/-! ## Parts of a commit -/

/-- The journal block that the next allocation yields when `used` are used. -/
def slotAt (journalBlocks used : ℕ) : ℕ := used % (journalBlocks - 1) + 1

/-- The next `n` of them. -/
def slotsFrom (journalBlocks used n : ℕ) : List ℕ := (List.range n).map fun i => slotAt journalBlocks (used + i)

theorem slotsFrom_add (journalBlocks used n k : ℕ) :
    slotsFrom journalBlocks used n ++ slotsFrom journalBlocks (used + n) k = slotsFrom journalBlocks used (n + k) := by
  unfold slotsFrom
  rw [List.range_add, List.map_append, List.map_map]
  congr 1
  apply List.map_congr_left
  intro i _
  rw [Function.comp_apply, Nat.add_assoc]

theorem slotAt_range {journalBlocks used : ℕ} (h : 2 ≤ journalBlocks) :
    1 ≤ slotAt journalBlocks used ∧ slotAt journalBlocks used < journalBlocks := by
  have := Nat.mod_lt used (show 0 < journalBlocks - 1 by omega)
  unfold slotAt
  omega

/-- What of a block never changes once it is logged. -/
def shape (b : Block) : ℕ × ℕ := (b.journalBlockNo, b.dataSize)

/-- What a part of a commit of `x` may do to a transaction: `slots` are put to its journal blocks. -/
structure Changes (x : Transaction) (slots : List ℕ) (f : Transaction → Transaction) : Prop where
  address : ∀ y, (f y).address = y.address
  tid : ∀ y, (f y).tid = y.tid
  slots : ∀ y, (f y).slots = y.slots ++ slots
  state : ∀ y, y.state ≠ .running → (f y).state ≠ .running
  blocks : ∀ y, y.blocks.map shape = x.blocks.map shape → (f y).blocks.map shape = x.blocks.map shape

theorem Changes.comp {slots slots' : List ℕ} {f g : Transaction → Transaction} (hf : Changes x slots f)
    (hg : Changes x slots' g) : Changes x (slots ++ slots') (g ∘ f) where
  address y := (hg.address _).trans (hf.address y)
  tid y := (hg.tid _).trans (hf.tid y)
  slots y := by rw [Function.comp_apply, hg.slots, hf.slots, List.append_assoc]
  state y hy := hg.state _ (hf.state y hy)
  blocks y hy := hg.blocks _ (hf.blocks y hy)

theorem changes_state (x : Transaction) {state : TransState} (h : state ≠ .running) :
    Changes x [] fun y => { y with state := state } where
  address _ := rfl
  tid _ := rfl
  slots y := (List.append_nil y.slots).symm
  state _ _ := h
  blocks _ hy := hy

/-- What a part of a commit of `x` does: it takes `n` journal blocks and writes sectors that meet `P`. -/
structure Part (x : Transaction) (P : Write Purpose → Prop) (fits : Prop) (n : ℕ) (j j' : Journal) : Prop where
  goes : Goes j.machine j'.machine P fits
  setup : (j'.devBlockSize, j'.journalStart, j'.journalBlocks, j'.nextTid, j'.nextAddress, j'.initialized) =
    (j.devBlockSize, j.journalStart, j.journalBlocks, j.nextTid, j.nextAddress, j.initialized)
  used : j'.usedBlocks = j.usedBlocks + n
  room : j.usedBlocks ≤ j.journalBlocks → j.usedBlocks + n ≤ j.journalBlocks
  trans : ∃ f, Changes x (slotsFrom j.journalBlocks j.usedBlocks n) f ∧
    j'.trans = j.trans.map fun y => if y.address = x.address then f y else y

theorem Part.devBlockSize {n : ℕ} (h : Part x P fits n j j') : j'.devBlockSize = j.devBlockSize :=
  congrArg Prod.fst h.setup

theorem Part.journalStart {n : ℕ} (h : Part x P fits n j j') : j'.journalStart = j.journalStart :=
  congrArg (·.2.1) h.setup

theorem Part.journalBlocks {n : ℕ} (h : Part x P fits n j j') : j'.journalBlocks = j.journalBlocks :=
  congrArg (·.2.2.1) h.setup

theorem Part.trans' {n n' : ℕ} (h : Part x P fits n j j') (h' : Part x P fits n' j' j'') :
    Part x P fits (n + n') j j'' := by
  obtain ⟨f, hf, htrans⟩ := h.trans
  obtain ⟨g, hg, htrans'⟩ := h'.trans
  rw [h.used, h.journalBlocks] at hg
  have hroom := h'.room
  rw [h.used, h.journalBlocks] at hroom
  refine ⟨h.goes.trans h'.goes, h'.setup.trans h.setup, ?_, fun hj => ?_, g ∘ f, ?_, ?_⟩
  · rw [h'.used, h.used, Nat.add_assoc]
  · rw [← Nat.add_assoc]
    exact hroom (h.room hj)
  · rw [← slotsFrom_add]
    exact hf.comp hg
  · rw [htrans', htrans, List.map_map]
    apply List.map_congr_left
    intro y _
    by_cases hy : y.address = x.address
    · simp [hy, hf.address]
    · simp [hy]

theorem Part.mono {Q : Write Purpose → Prop} {fits' : Prop} {n : ℕ} (h : Part x P fits n j j')
    (hPQ : ∀ w, P w → Q w) (hfits : fits' → fits) : Part x Q fits' n j j' :=
  ⟨h.goes.mono hPQ hfits, h.setup, h.used, h.room, h.trans⟩

/-- Only the machine goes on. -/
theorem part_machine (x : Transaction) {m : Machine} (h : Goes j.machine m P fits) :
    Part x P fits 0 j { j with machine := m } := by
  refine ⟨h, rfl, rfl, id, id, ⟨fun _ => rfl, fun _ => rfl, fun y => (List.append_nil y.slots).symm, fun _ h => h,
    fun _ h => h⟩, ?_⟩
  simp

/-- Only the transaction is changed. -/
theorem part_modify {f : Transaction → Transaction} (h : Changes x [] f) :
    Part x P fits 0 j (j.modify x.address f) :=
  ⟨.refl _, rfl, rfl, id, f, h, rfl⟩

theorem part_setState {state : TransState} (h : state ≠ .running) :
    Part x P fits 0 j (j.setState x.address state) := part_modify (changes_state x h)

theorem part_commitFails (code : ℤ) : Part x P fits 0 j (commitFails x.address code j).2 := by
  have h : Part x P fits 0 j (j.setState x.address .locked) := part_setState (by decide)
  exact ⟨h.goes, h.setup, h.used, h.room, h.trans⟩

/-- A journal block was taken, and put to the transaction. -/
theorem part_taken {m : Machine} {f : Transaction → Transaction} (h : Goes j.machine m P fits)
    (hroom : j.usedBlocks < j.journalBlocks) (hf : Changes x [slotAt j.journalBlocks j.usedBlocks] f) :
    Part x P fits 1 j ({ j with machine := m, usedBlocks := j.usedBlocks + 1 }.modify x.address f) :=
  ⟨h, rfl, rfl, fun _ => hroom, f, hf, rfl⟩

theorem changes_slot (x : Transaction) (slot : ℕ) : Changes x [slot] fun y => { y with slots := y.slots ++ [slot] } where
  address _ := rfl
  tid _ := rfl
  slots _ := rfl
  state _ hy := hy
  blocks _ hy := hy

theorem changes_finished (x : Transaction) (slot timestamp : ℕ) : Changes x [slot] fun y =>
    { y with state := .finished, commitTimestamp := timestamp, slots := y.slots ++ [slot] } where
  address _ := rfl
  tid _ := rfl
  slots _ := rfl
  state _ _ := nofun
  blocks _ hy := hy

theorem alloc_cases (j : Journal) :
    (jbd2AllocJournalBlock j = (none, j)) ∨
    (j.usedBlocks < j.journalBlocks ∧ jbd2AllocJournalBlock j =
      (some (slotAt j.journalBlocks j.usedBlocks), { j with usedBlocks := j.usedBlocks + 1 })) := by
  unfold jbd2AllocJournalBlock
  split_ifs with hfull
  · exact .inl rfl
  · exact .inr ⟨by omega, rfl⟩

theorem call_kmalloc (j : Journal) (P : Write Purpose → Prop) (fits : Prop) :
    ∃ ok m, j.call kmalloc = (ok, { j with machine := m }) ∧ Goes j.machine m P fits :=
  ⟨_, _, rfl, goes_kmalloc _⟩

theorem call_writeJournal (slot : ℕ) (data : Mem) (size : ℕ) (purpose : ℕ → Purpose) (j : Journal) (fits : Prop) :
    ∃ ok m, writeJournal slot data size purpose j = (ok, { j with machine := m }) ∧
      Goes j.machine m (SectorOf (lbaOf j.devBlockSize ((j.journalStart + slot) % 2 ^ 64)) data purpose
        (totalSectors size)) fits :=
  ⟨_, _, rfl, goes_write ..⟩

/-- The journal at the end of a part, whether the commit goes on or not. -/
def after : Except (ℤ × Journal) Journal → Journal
  | .error e => e.2
  | .ok j => j

theorem part_commitDescriptor (x : Transaction) (j : Journal) : ∃ n ≤ 1,
    Part x (RecordAt j (slotAt j.journalBlocks j.usedBlocks) x.tid typeDescriptor fun _ => .descriptor x.tid)
      (headerSize + 8 * x.blocks.length ≤ j.devBlockSize) n j (after (commitDescriptor x j)) := by
  generalize hP : RecordAt j (slotAt j.journalBlocks j.usedBlocks) x.tid typeDescriptor
    (fun _ => .descriptor x.tid) = P
  generalize hfits : (headerSize + 8 * x.blocks.length ≤ j.devBlockSize) = fits
  unfold commitDescriptor
  obtain ⟨ok, m, hcall, hgoes⟩ := call_kmalloc j P fits
  rw [hcall]
  cases ok with
  | false => exact ⟨0, by omega, (part_machine x hgoes).trans' (part_commitFails _)⟩
  | true =>
    have hstore : Goes j.machine (m.store (headerSize + 8 * x.blocks.length) j.devBlockSize) P fits :=
      hgoes.trans (goes_store _ _ (fun h => hfits ▸ h) m)
    dsimp only [Journal.store]
    generalize m.store (headerSize + 8 * x.blocks.length) j.devBlockSize = m₁ at hstore ⊢
    rcases alloc_cases { j with machine := m₁ } with halloc | ⟨hroom, halloc⟩
    · rw [halloc]
      exact ⟨0, by omega, (part_machine x hstore).trans' (part_commitFails _)⟩
    · rw [halloc]
      dsimp only at hroom ⊢
      obtain ⟨ok, m₂, hwrite, hgoes₂⟩ := call_writeJournal (slotAt j.journalBlocks j.usedBlocks)
        (descriptorBuf x.tid x.blocks) j.devBlockSize (fun _ => .descriptor x.tid)
        { j with machine := m₁, usedBlocks := j.usedBlocks + 1 } fits
      rw [hwrite]
      have hm := hstore.trans (hgoes₂.mono (Q := P) (fun w hw => by
        rw [← hP]
        exact ⟨_, hw, descriptorBuf_type .., descriptorBuf_tid ..⟩) id)
      cases ok with
      | false => exact ⟨0, by omega, (part_machine x hm).trans' (part_commitFails _)⟩
      | true => exact ⟨1, by omega, part_taken hm hroom (changes_slot x _)⟩

theorem changes_blocks {blocks : List Block} (h : blocks.map shape = x.blocks.map shape) :
    Changes x [] fun y => { y with blocks := blocks } where
  address _ := rfl
  tid _ := rfl
  slots y := (List.append_nil y.slots).symm
  state _ hy := hy
  blocks _ _ := h

theorem part_commitData (x : Transaction) (done bs : List Block) (j : Journal)
    (hblocks : (done ++ bs).map shape = x.blocks.map shape)
    (hP : ∀ b ∈ bs, ∀ w, RecordAt j b.journalBlockNo x.tid typeDescriptor (fun _ => .descriptor x.tid) w → P w)
    (hfits : fits → ∀ b ∈ bs, headerSize + copySize j.devBlockSize b.dataSize ≤ j.devBlockSize) :
    Part x P fits 0 j (after (commitData x done bs j)) := by
  induction bs generalizing done j with
  | nil =>
    rw [List.append_nil] at hblocks
    exact part_modify (changes_blocks hblocks)
  | cons b bs ih =>
    have hstop (code : ℤ) {j : Journal} : Part x P fits 0 j (commitFails x.address code
        (j.modify x.address fun y => { y with blocks := done ++ b :: bs })).2 :=
      (part_modify (changes_blocks hblocks)).trans' (part_commitFails code)
    unfold commitData
    obtain ⟨ok, m, hcall, hgoes⟩ := call_kmalloc j P fits
    rw [hcall]
    cases ok with
    | false => exact (part_machine x hgoes).trans' (hstop _)
    | true =>
      have hstore : Goes j.machine (m.store (headerSize + copySize j.devBlockSize b.dataSize) j.devBlockSize) P fits :=
        hgoes.trans (goes_store _ _ (fun h => hfits h b List.mem_cons_self) m)
      dsimp only [Journal.store]
      generalize m.store (headerSize + copySize j.devBlockSize b.dataSize) j.devBlockSize = m₁ at hstore ⊢
      obtain ⟨ok, m₂, hwrite, hgoes₂⟩ := call_writeJournal b.journalBlockNo (dataBuf j.devBlockSize x.tid b)
        j.devBlockSize (fun _ => .descriptor x.tid) { j with machine := m₁ } fits
      rw [hwrite]
      have hm := hstore.trans (hgoes₂.mono (Q := P) (fun w hw =>
        hP b List.mem_cons_self w ⟨_, hw, dataBuf_type .., dataBuf_tid ..⟩) id)
      cases ok with
      | false => exact (part_machine x hm).trans' (hstop _)
      | true =>
        refine (part_machine x hm).trans' (ih _ _ ?_ (fun c hc => hP c (List.mem_cons_of_mem _ hc))
          fun h c hc => hfits h c (List.mem_cons_of_mem _ hc))
        rw [← hblocks]
        simp [shape]

/-- The sectors of the commit record of a transaction, and of the superblock. -/
def CommitWrite (j : Journal) (x : Transaction) (slot : ℕ) (w : Write Purpose) : Prop :=
  RecordAt j slot x.tid typeCommitBlock
    (fun i => .commit x.tid x.blocks (i = totalSectors j.devBlockSize - 1)) w ∨ SuperAt j w

theorem goes_superblock (j : Journal) (fits : Prop) :
    Goes j.machine (jbd2WriteSuperblock j).machine (SuperAt j) fits := by
  obtain ⟨ok, m, hwrite, hgoes⟩ := call_writeJournal 0 (superblock j) superblockSize (fun _ => .superblock) j fits
  unfold jbd2WriteSuperblock
  rw [hwrite]
  exact hgoes.mono (fun w hw => ⟨_, hw, fun o => superblock_zero j⟩) id

theorem part_finish (stats : Stats) (c : Option ℕ) (hP : ∀ w, SuperAt j w → P w) : Part x P fits 0 j
    (unlockCommit (jbd2WriteSuperblock { j with stats := stats, checkpointTrans := c })) := by
  have h := part_machine x ((goes_superblock { j with stats := stats, checkpointTrans := c } fits).mono hP id)
  exact ⟨h.goes, h.setup, h.used, h.room, h.trans⟩

theorem part_commitRecord (x : Transaction) (j : Journal) : ∃ n ≤ 1,
    Part x (CommitWrite j x (slotAt j.journalBlocks j.usedBlocks)) (20 ≤ j.devBlockSize) n j (commitRecord x j).2 := by
  generalize hP : CommitWrite j x (slotAt j.journalBlocks j.usedBlocks) = P
  generalize hfits : (20 ≤ j.devBlockSize) = fits
  have hstate : Part x P fits 0 j (j.setState x.address .committing) := part_setState (by decide)
  have hgo (k : Journal) (hk : ∃ n ≤ 1, Part x P fits n (j.setState x.address .committing) k) :
      ∃ n ≤ 1, Part x P fits n j k := by
    obtain ⟨n, hn, hpart⟩ := hk
    exact ⟨n, hn, Nat.zero_add n ▸ hstate.trans' hpart⟩
  apply hgo
  unfold commitRecord
  dsimp only
  -- what is written depends on nothing that the state of a transaction changes
  change CommitWrite (j.setState x.address .committing) x (slotAt (j.setState x.address .committing).journalBlocks
    (j.setState x.address .committing).usedBlocks) = P at hP
  change (20 ≤ (j.setState x.address .committing).devBlockSize) = fits at hfits
  clear hgo hstate
  generalize j.setState x.address .committing = j at hP hfits ⊢
  obtain ⟨ok, m, hcall, hgoes⟩ := call_kmalloc j P fits
  rw [hcall]
  cases ok with
  | false => exact ⟨0, by omega, (part_machine x hgoes).trans' (part_commitFails _)⟩
  | true =>
    have hstore : Goes j.machine (m.store 20 j.devBlockSize) P fits :=
      hgoes.trans (goes_store _ _ (fun h => hfits ▸ h) m)
    dsimp only [Journal.store]
    generalize m.store 20 j.devBlockSize = m₁ at hstore ⊢
    rcases alloc_cases { j with machine := m₁ } with halloc | ⟨hroom, halloc⟩
    · rw [halloc]
      exact ⟨0, by omega, (part_machine x hstore).trans' (part_commitFails _)⟩
    · rw [halloc]
      dsimp only at hroom ⊢
      obtain ⟨ok, m₂, hwrite, hgoes₂⟩ := call_writeJournal (slotAt j.journalBlocks j.usedBlocks)
        (header typeCommitBlock x.tid x.blocks.length) j.devBlockSize
        (fun i => .commit x.tid x.blocks (i = totalSectors j.devBlockSize - 1))
        { j with machine := m₁, usedBlocks := j.usedBlocks + 1 } fits
      rw [hwrite]
      have hm := hstore.trans (hgoes₂.mono (Q := P) (fun w hw => by
        rw [← hP]
        exact .inl ⟨_, hw, header_type (by decide), header_tid ..⟩) id)
      cases ok with
      | false => exact ⟨0, by omega, (part_machine x hm).trans' (part_commitFails _)⟩
      | true =>
        refine ⟨1, by omega, (part_taken hm hroom (changes_finished x _ j.nextTid)).trans'
          (part_finish _ _ fun w hw => ?_)⟩
        rw [← hP]
        exact .inr hw

/-- The stores of a commit stay in its buffers. -/
def Fits (j : Journal) (x : Transaction) : Prop :=
  20 ≤ j.devBlockSize ∧ (x.blocks ≠ [] → headerSize + 8 * x.blocks.length ≤ j.devBlockSize ∧
    ∀ b ∈ x.blocks, headerSize + copySize j.devBlockSize b.dataSize ≤ j.devBlockSize)

/-- What a commit may write: descriptors if the transaction has blocks, its commit record, the superblock. -/
def CommitOf (j : Journal) (x : Transaction) (w : Write Purpose) : Prop :=
  (x.blocks ≠ [] ∧ ∃ slot, 1 ≤ slot ∧ slot < j.journalBlocks ∧
    RecordAt j slot x.tid typeDescriptor (fun _ => .descriptor x.tid) w) ∨
  (∃ slot, 1 ≤ slot ∧ slot < j.journalBlocks ∧ RecordAt j slot x.tid typeCommitBlock
    (fun i => .commit x.tid x.blocks (i = totalSectors j.devBlockSize - 1)) w) ∨ SuperAt j w

theorem Part.record {n slot tid blockType : ℕ} {purpose : ℕ → Purpose} {w : Write Purpose} (h : Part x P fits n j j')
    (hw : RecordAt j' slot tid blockType purpose w) : RecordAt j slot tid blockType purpose w := by
  unfold RecordAt at hw
  rwa [h.devBlockSize, h.journalStart] at hw

theorem Part.super {n : ℕ} {w : Write Purpose} (h : Part x P fits n j j') (hw : SuperAt j' w) : SuperAt j w := by
  unfold SuperAt at hw
  rwa [h.devBlockSize, h.journalStart] at hw

theorem Part.stopped {n : ℕ} (h : Part x P fits n j j')
    (hj : ∀ y ∈ j.trans, y.address = x.address → y.state ≠ .running) :
    ∀ y ∈ j'.trans, y.address = x.address → y.state ≠ .running := by
  obtain ⟨f, hf, htrans⟩ := h.trans
  rw [htrans]
  intro y hy haddr
  obtain ⟨z, hz, rfl⟩ := List.mem_map.mp hy
  split_ifs at haddr ⊢ with hzx
  · exact hf.state z (hj z hz hzx)
  · exact absurd haddr hzx

/-- A transaction is no longer running once its commit began. -/
theorem setState_stopped {state : TransState} (h : state ≠ .running) :
    ∀ y ∈ (j.setState t state).trans, y.address = t → y.state ≠ .running := by
  intro y hy haddr
  obtain ⟨z, -, rfl⟩ := List.mem_map.mp hy
  split_ifs at haddr ⊢ with hzt
  · exact h
  · exact absurd haddr hzt

theorem part_commit (x : Transaction) (j : Journal) (hjb : 2 ≤ j.journalBlocks)
    (hslots : ∀ b ∈ x.blocks, 1 ≤ b.journalBlockNo ∧ b.journalBlockNo < j.journalBlocks) :
    (∃ n ≤ if x.blocks = [] then 1 else 2, Part x (CommitOf j x) (Fits j x) n j (commit x j).2) ∧
    ∀ y ∈ (commit x j).2.trans, y.address = x.address → y.state ≠ .running := by
  generalize hP : CommitOf j x = P
  generalize hfits : Fits j x = fits
  unfold commit
  dsimp only
  have hstart : Part x P fits 0 j ((if (j.setState x.address .locked).currentTrans = some x.address then
      { j.setState x.address .locked with currentTrans := none }
      else j.setState x.address .locked).setState x.address .flushing) := by
    have hlocked : Part x P fits 0 j (j.setState x.address .locked) := part_setState (by decide)
    suffices hcleared : Part x P fits 0 j _ from hcleared.trans' (part_setState (by decide))
    split_ifs
    · exact ⟨hlocked.goes, hlocked.setup, hlocked.used, hlocked.room, hlocked.trans⟩
    · exact hlocked
  have hstop := @setState_stopped (if (j.setState x.address .locked).currentTrans =
    some x.address then { j.setState x.address .locked with currentTrans := none }
    else j.setState x.address .locked) x.address .flushing (by decide)
  generalize (if (j.setState x.address .locked).currentTrans = some x.address then
      { j.setState x.address .locked with currentTrans := none }
      else j.setState x.address .locked).setState x.address .flushing = j₁ at hstart hstop ⊢
  suffices hgo : ∃ n ≤ if x.blocks = [] then 1 else 2, Part x P fits n j₁ (if x.blocks = [] then commitRecord x j₁
      else match (do let j ← commitDescriptor x j₁; commitData x [] x.blocks j) with
        | .error e => e
        | .ok j => commitRecord x j).2 by
    obtain ⟨n, hn, hpart⟩ := hgo
    exact ⟨⟨n, hn, Nat.zero_add n ▸ hstart.trans' hpart⟩, hpart.stopped hstop⟩
  -- a commit record fits the whole commit wherever it is written
  have hrecord {n : ℕ} {k : Journal} (hk : Part x P fits n j k) :
      ∃ n ≤ 1, Part x P fits n k (commitRecord x k).2 := by
    obtain ⟨n', hn', hpart⟩ := part_commitRecord x k
    refine ⟨n', hn', hpart.mono (fun w hw => ?_) fun hf => ?_⟩
    · rw [← hP]
      have hrange := @slotAt_range _ k.usedBlocks (hk.journalBlocks ▸ hjb)
      rw [hk.journalBlocks] at hrange
      rcases hw with hw | hw
      · refine .inr (.inl ⟨slotAt j.journalBlocks k.usedBlocks, hrange.1, hrange.2, ?_⟩)
        rw [hk.journalBlocks, hk.devBlockSize] at hw
        exact hk.record hw
      · exact .inr (.inr (hk.super hw))
    · rw [← hfits] at hf
      exact hk.devBlockSize ▸ hf.1
  by_cases hblocks : x.blocks = []
  · rw [if_pos hblocks, if_pos hblocks]
    exact hrecord hstart
  · rw [if_neg hblocks, if_neg hblocks]
    have hslot {n : ℕ} {k : Journal} (hk : Part x P fits n j k) (slot : ℕ) (hlo : 1 ≤ slot)
        (hhi : slot < j.journalBlocks) (w : Write Purpose)
        (hw : RecordAt k slot x.tid typeDescriptor (fun _ => .descriptor x.tid) w) : P w := by
      rw [← hP]
      exact .inl ⟨hblocks, slot, hlo, hhi, hk.record hw⟩
    obtain ⟨n₁, hn₁, hdesc⟩ := part_commitDescriptor x j₁
    have hrange := @slotAt_range _ j₁.usedBlocks (hstart.journalBlocks ▸ hjb)
    replace hdesc := @Part.mono _ _ _ _ _ _ fits _ hdesc (hslot hstart _ hrange.1 (hstart.journalBlocks ▸ hrange.2)) (by
      intro hf
      rw [← hfits] at hf
      exact hstart.devBlockSize ▸ (hf.2 hblocks).1)
    cases hd : commitDescriptor x j₁ with
    | error e =>
      rw [hd] at hdesc
      exact ⟨n₁, by omega, hdesc⟩
    | ok j₂ =>
      rw [hd] at hdesc
      have hj₂ := hstart.trans' hdesc
      have hdata : Part x P fits 0 j₂ (after (commitData x [] x.blocks j₂)) := part_commitData x [] x.blocks j₂ rfl
        (fun b hb w => hslot hj₂ _ (hslots b hb).1 (hslots b hb).2 w) (by
          intro hf
          rw [← hfits] at hf
          exact hj₂.devBlockSize ▸ (hf.2 hblocks).2)
      simp only [bind, Except.bind]
      cases he : commitData x [] x.blocks j₂ with
      | error e =>
        rw [he] at hdata
        exact ⟨n₁, by omega, hdesc.trans' hdata⟩
      | ok j₃ =>
        rw [he] at hdata
        obtain ⟨n₂, hn₂, hrec⟩ := hrecord (hj₂.trans' hdata)
        exact ⟨n₁ + n₂, by omega, (hdesc.trans' hdata).trans' hrec⟩

theorem commit_cases {r : ℤ} (h : jbd2TransCommit t j = some (r, j')) : j' = j ∨ ∃ x, j.find t = some x ∧
    x.state ≠ .finished ∧ x.state ≠ .committing ∧ j' = (commit x { j with commitLock := true }).2 := by
  unfold jbd2TransCommit at h
  split_ifs at h
  · cases hx : j.find t with
    | none => simp [hx] at h
    | some x =>
      rw [hx, Option.bind_eq_bind, Option.bind_some] at h
      split_ifs at h with hdone
      · exact .inl (Prod.mk.inj (Option.some.inj h)).2.symm
      · obtain ⟨hfinished, hcommitting⟩ := not_or.mp hdone
        unfold lockCommit at h
        split_ifs at h
        · simp at h
        · exact .inr ⟨x, rfl, hfinished, hcommitting, congrArg Prod.snd (Option.some.inj h).symm⟩
  · exact .inl (Prod.mk.inj (Option.some.inj h)).2.symm

/-! ## The other operations -/

/-- Where the journal lies, and whether it is in use. -/
def Journal.place (j : Journal) : ℕ × ℕ × ℕ × Bool :=
  (j.devBlockSize, j.journalStart, j.journalBlocks, j.initialized)

/-- The transaction that a start puts to the list. -/
def newTrans (j : Journal) : Transaction := ⟨j.nextAddress, j.nextTid, .running, [], 0, []⟩

theorem start_cases {r : Option ℕ} (h : jbd2TransStart j = some (r, j')) :
    Goes j.machine j'.machine P fits ∧ j'.place = j.place ∧ j'.usedBlocks = j.usedBlocks ∧
    ((j'.trans = j.trans ∧ j'.nextTid = j.nextTid ∧ j'.nextAddress = j.nextAddress) ∨
      (j'.trans = j.trans ++ [newTrans j] ∧ j'.nextTid = j.nextTid + 1 ∧ j'.nextAddress = j.nextAddress + 1)) := by
  unfold jbd2TransStart at h
  split_ifs at h
  · obtain ⟨ok, m, hcall, hgoes⟩ := call_kmalloc j P fits
    rw [hcall] at h
    cases ok with
    | false =>
      obtain ⟨rfl, rfl⟩ := Prod.mk.inj (Option.some.inj h)
      exact ⟨hgoes, rfl, rfl, .inl ⟨rfl, rfl, rfl⟩⟩
    | true =>
      dsimp only at h
      unfold lockJournal at h
      split_ifs at h
      · simp at h
      · obtain ⟨rfl, rfl⟩ := Prod.mk.inj (Option.some.inj h)
        exact ⟨hgoes, rfl, rfl, .inr ⟨rfl, rfl, rfl⟩⟩
  · obtain ⟨rfl, rfl⟩ := Prod.mk.inj (Option.some.inj h)
    exact ⟨.refl _, rfl, rfl, .inl ⟨rfl, rfl, rfl⟩⟩

/-- The block that is logged next. -/
def newBlock (j : Journal) (blockNo : ℕ) (data : Mem) (size : ℕ) : Block :=
  ⟨blockNo, slotAt j.journalBlocks j.usedBlocks, true, false, false, false, false, data, size⟩

/-- What logging a block does to the transaction. -/
def addBlock (b : Block) (x : Transaction) : Transaction :=
  { x with blocks := x.blocks ++ [b], slots := x.slots ++ [b.journalBlockNo] }

/-- The part of a log under the lock that is not the refusal of a full journal. -/
theorem logBlock_cases (t blockNo : ℕ) (data : Mem) (size : ℕ) (j : Journal) :
    Goes j.machine (logBlock t blockNo data size j).2.machine P fits ∧
    (logBlock t blockNo data size j).2.place = j.place ∧
    (logBlock t blockNo data size j).2.nextTid = j.nextTid ∧
    (logBlock t blockNo data size j).2.nextAddress = j.nextAddress ∧
    (((logBlock t blockNo data size j).2.usedBlocks = j.usedBlocks ∧
      (logBlock t blockNo data size j).2.trans = j.trans) ∨
    (j.usedBlocks < j.journalBlocks - 2 ∧ (logBlock t blockNo data size j).2.usedBlocks = j.usedBlocks + 1 ∧
      (logBlock t blockNo data size j).2.trans =
        (j.modify t (addBlock (newBlock j blockNo data size))).trans)) := by
  unfold logBlock
  split_ifs with hfull
  · exact ⟨.refl _, rfl, rfl, rfl, .inl ⟨rfl, rfl⟩⟩
  · obtain ⟨ok, m, hcall, hgoes⟩ := call_kmalloc j P fits
    rw [hcall]
    cases ok with
    | false => exact ⟨hgoes, rfl, rfl, rfl, .inl ⟨rfl, rfl⟩⟩
    | true =>
      dsimp only
      obtain ⟨ok, m', hcall', hgoes'⟩ := call_kmalloc { j with machine := m } P fits
      rw [hcall']
      have hm := hgoes.trans hgoes'
      cases ok with
      | false => exact ⟨hm, rfl, rfl, rfl, .inl ⟨rfl, rfl⟩⟩
      | true =>
        dsimp only
        rcases alloc_cases { j with machine := m' } with halloc | ⟨hroom, halloc⟩
        · rw [halloc]
          exact ⟨hm, rfl, rfl, rfl, .inl ⟨rfl, rfl⟩⟩
        · rw [halloc]
          exact ⟨hm, rfl, rfl, rfl, .inr ⟨by omega, rfl, rfl⟩⟩

theorem log_cases {blockNo size : ℕ} {data : Mem} {r : ℤ} (h : jbd2TransLogBlock t blockNo data size j = some (r, j')) :
    Goes j.machine j'.machine P fits ∧ j'.place = j.place ∧ j'.nextTid = j.nextTid ∧
    j'.nextAddress = j.nextAddress ∧
    ((j'.usedBlocks = j.usedBlocks ∧ j'.trans = j.trans) ∨
    (∃ x, j.find t = some x ∧ x.state = .running ∧ x.blocks.length < transMaxBlocks ∧
      j.usedBlocks < j.journalBlocks - 2 ∧ j'.usedBlocks = j.usedBlocks + 1 ∧
      j'.trans = (j.modify t (addBlock (newBlock j blockNo data size))).trans)) := by
  have hsame (hj : j = j') : Goes j.machine j'.machine P fits ∧ j'.place = j.place ∧ j'.nextTid = j.nextTid ∧
      j'.nextAddress = j.nextAddress ∧ j'.usedBlocks = j.usedBlocks ∧ j'.trans = j.trans :=
    hj ▸ ⟨.refl _, rfl, rfl, rfl, rfl, rfl⟩
  unfold jbd2TransLogBlock at h
  split_ifs at h
  · obtain ⟨h₁, h₂, h₃, h₄, h₅⟩ := hsame (Prod.mk.inj (Option.some.inj h)).2
    exact ⟨h₁, h₂, h₃, h₄, .inl h₅⟩
  · cases hx : j.find t with
    | none => simp [hx] at h
    | some x =>
      rw [hx, Option.bind_eq_bind, Option.bind_some] at h
      split_ifs at h with hstate hlen
      · obtain ⟨h₁, h₂, h₃, h₄, h₅⟩ := hsame (Prod.mk.inj (Option.some.inj h)).2
        exact ⟨h₁, h₂, h₃, h₄, .inl h₅⟩
      · obtain ⟨h₁, h₂, h₃, h₄, h₅⟩ := hsame (Prod.mk.inj (Option.some.inj h)).2
        exact ⟨h₁, h₂, h₃, h₄, .inl h₅⟩
      · unfold lockJournal at h
        split_ifs at h
        · simp at h
        · have hlog := @logBlock_cases P fits t blockNo data size { j with journalLock := true }
          rw [Option.some.inj h] at hlog
          obtain ⟨h₁, h₂, h₃, h₄, h₅⟩ := hlog
          refine ⟨h₁, h₂, h₃, h₄, h₅.imp id fun h => ⟨x, rfl, not_not.mp hstate, by omega, h⟩⟩
  · obtain ⟨h₁, h₂, h₃, h₄, h₅⟩ := hsame (Prod.mk.inj (Option.some.inj h)).2
    exact ⟨h₁, h₂, h₃, h₄, .inl h₅⟩

/-- How many of the blocks are in the log. -/
def inLogCount (blocks : List Block) : ℕ := blocks.countP fun b => b.inLog

theorem freeInLog_eq (blocks : List Block) (j : Journal) :
    freeInLog blocks j = { j with usedBlocks := j.usedBlocks - inLogCount blocks } := by
  unfold freeInLog inLogCount
  induction blocks generalizing j with
  | nil => rfl
  | cons b bs ih =>
    rw [List.foldl_cons, ih, List.countP_cons]
    cases b.inLog with
    | false => rfl
    | true =>
      unfold jbd2FreeJournalBlock
      simp only [if_true]
      split_ifs with hused
      · simp only [Journal.mk.injEq, true_and, and_true]
        omega
      · simp only [Journal.mk.injEq, true_and, and_true]
        omega

theorem abort_cases (h : jbd2TransAbort t j = some j') : ∃ x, j.find t = some x ∧
    Goes j.machine j'.machine (SuperAt j) fits ∧ j'.place = j.place ∧ j'.nextTid = j.nextTid ∧
    j'.nextAddress = j.nextAddress ∧ j'.usedBlocks = j.usedBlocks - 2 * inLogCount x.blocks ∧
    j'.trans = (j.remove t).trans := by
  unfold jbd2TransAbort at h
  cases hx : j.find t with
  | none => simp [hx] at h
  | some x =>
    unfold lockJournal at h
    rw [hx] at h
    split_ifs at h
    · simp at h
    · simp only [Option.bind_eq_bind, Option.bind_some] at h
      have hcount : inLogCount (x.blocks.map fun b => { b with revoked := true, dirty := false }) =
          inLogCount x.blocks := by
        unfold inLogCount
        rw [List.countP_map]
        rfl
      simp only [jbd2FreeTransaction, freeInLog_eq, hcount] at h
      obtain ⟨c, hc⟩ : ∃ c, c = if j.currentTrans = some t then none else j.currentTrans := ⟨_, rfl⟩
      obtain ⟨k, hk⟩ : ∃ k, k = { j with
          journalLock := true, usedBlocks := j.usedBlocks - inLogCount x.blocks, currentTrans := c
          stats := { j.stats with abortedTransactions := j.stats.abortedTransactions + 1 }
          trans := (j.remove t).trans } := ⟨_, rfl⟩
      have hj' : j' = { unlockJournal (jbd2WriteSuperblock k) with
          usedBlocks := k.usedBlocks - inLogCount x.blocks } := by
        rw [← Option.some.inj h, hk, hc]
        split_ifs <;> rfl
      have hgoes : Goes k.machine (jbd2WriteSuperblock k).machine (SuperAt k) fits := goes_superblock k fits
      obtain ⟨m, hm⟩ : ∃ m, jbd2WriteSuperblock k = { k with machine := m } := ⟨_, rfl⟩
      rw [hm] at hj' hgoes
      subst hk hj'
      refine ⟨x, rfl, hgoes, rfl, rfl, rfl, ?_, rfl⟩
      change j.usedBlocks - inLogCount x.blocks - inLogCount x.blocks = _
      omega

end Jbd2
