import Kenux.Lib.Bitmap
import Kenux.Lib.Memory
import Kenux.Lib.Run

/-!
# Blocks of an ext3 file (`arch/x86_64/ext3.c`)

The disk is a sequence of bytes and answers every read. `alloc` says whether `memory_alloc` finds the buffer of a
block; what the buffer holds at first is a parameter.
-/

namespace Ext3

open Memory

abbrev Buffer := ℕ → UInt8

/-- `ext2_group_desc_t`, as far as blocks go. -/
structure GroupDesc where
  blockBitmap : UInt32
  freeBlocks : UInt16

/-- `ext3_fs_t`, as far as blocks go. -/
structure Ext3Fs where
  groupDesc : ℕ → GroupDesc
  blockSize : UInt32
  blocksPerGroup : UInt32
  groupCount : UInt32
  firstDataBlock : UInt32

/-- `ext2_inode_t`, as far as blocks go. -/
structure Inode where
  block : Fin 15 → UInt32

/-- `ahci_read_sector` -/
def readSector (disk : Mem) (lba : UInt64) (i : ℕ) : UInt8 := disk (512 * lba.toNat + i)

/-- `ext3_read_disk_block`, sector by sector. -/
def readDiskBlock (disk : Mem) (lba : UInt64) (buf : Buffer) : ℕ → Buffer
  | 0 => buf
  | n + 1 =>
    let buf := readDiskBlock disk lba buf n
    fun k => if 512 * n ≤ k ∧ k < 512 * n + 512 then readSector disk (lba + UInt64.ofNat n) (k - 512 * n) else buf k

def ext3ReadBlock (fs : Ext3Fs) (disk : Mem) (block : UInt32) (buf : Buffer) : Buffer :=
  let lba := block.toUInt64 * (fs.blockSize / 512).toUInt64
  readDiskBlock disk lba buf (fs.blockSize / 512).toNat

/-- `buf[i]`, for a buffer of 32-bit numbers. -/
def word (buf : Buffer) (i : UInt32) : UInt32 := UInt32.ofNat (load buf (4 * i.toNat) 4)

def ext3GetBlockFromInode (fs : Ext3Fs) (disk : Mem) (alloc : Bool) (buf : Buffer) (inode : Inode)
    (logicalBlock : UInt32) : UInt32 :=
  let entriesPerBlock := fs.blockSize / 4
  if h : logicalBlock.toNat < 12 then inode.block ⟨logicalBlock.toNat, by omega⟩
  else
    let rel := logicalBlock - 12
    if rel < entriesPerBlock then
      let ind := inode.block 12
      if ind = 0 then 0
      else if ¬alloc then 0
      else
        let buf := ext3ReadBlock fs disk ind buf
        word buf rel
    else
      let rel2 := rel - entriesPerBlock
      let dindCount := entriesPerBlock * entriesPerBlock
      if rel2 < dindCount then
        let dind := inode.block 13
        if dind = 0 then 0
        else if ¬alloc then 0
        else
          let buf := ext3ReadBlock fs disk dind buf
          let ind := word buf (rel2 / entriesPerBlock)
          if ind = 0 then 0
          else
            let buf := ext3ReadBlock fs disk ind buf
            word buf (rel2 % entriesPerBlock)
      else
        let rel3 := rel2 - dindCount
        let tindCount := entriesPerBlock * dindCount
        if rel3 < tindCount then
          let tind := inode.block 14
          if tind = 0 then 0
          else if ¬alloc then 0
          else
            let buf := ext3ReadBlock fs disk tind buf
            let dind := word buf (rel3 / dindCount)
            if dind = 0 then 0
            else
              let buf := ext3ReadBlock fs disk dind buf
              let ind := word buf ((rel3 % dindCount) / entriesPerBlock)
              if ind = 0 then 0
              else
                let buf := ext3ReadBlock fs disk ind buf
                word buf ((rel3 % dindCount) % entriesPerBlock)
        else 0

/-!
## The tree of block pointers

Twelve pointers of an inode lead to blocks, and one each to a tree of height one, two and three. A node has a fixed
number of pointers; the digits of a position, to that base, lead down the tree, and a zero pointer is a hole.
-/

/-- From a node of a tree of some height down to the leaf of a position. -/
def descend (entry : ℕ → ℕ → ℕ) (e : ℕ) : ℕ → ℕ → ℕ → ℕ
  | 0, node, _ => node
  | height + 1, node, pos => if node = 0 then 0 else descend entry e height (entry node (pos / e ^ height)) (pos % e ^ height)

/-- The pointer of a logical block, with the trees of the heights from `height` on for the positions that are left. -/
def lookup (entry : ℕ → ℕ → ℕ) (e : ℕ) (root : ℕ → ℕ) : ℕ → ℕ → ℕ → ℕ
  | 0, _, _ => 0
  | n + 1, height, pos =>
    if pos < e ^ height then descend entry e height (root height) pos else lookup entry e root n (height + 1) (pos - e ^ height)

/-- Pointer `i` of the block `b` of a disk. -/
def diskEntry (blockSize : ℕ) (disk : Mem) (b i : ℕ) : ℕ := load disk (b * blockSize + 4 * i) 4

/-- The block that belongs to a logical block. -/
def classicBlock (blockSize : ℕ) (disk : Mem) (inode : Inode) (logicalBlock : ℕ) : ℕ :=
  if h : logicalBlock < 12 then (inode.block ⟨logicalBlock, by omega⟩).toNat
  else
    lookup (diskEntry blockSize disk) (blockSize / 4) (fun height => (inode.block (Fin.ofNat 15 (11 + height))).toNat) 3 1
      (logicalBlock - 12)

/-!
## Allocating blocks (`arch/x86_64/ext3.c`)

A block that is read back is what was written to it. Each round of a search allocates a buffer, which may fail.
-/

open Bitmap

structure Volume where
  fs : Ext3Fs
  blocks : UInt32 → Bytes

/-- The bitmap of a group. -/
def Volume.bitmap (v : Volume) (g : ℕ) : Bytes := v.blocks (v.fs.groupDesc g).blockBitmap

def Volume.freeBlocks (v : Volume) (g : ℕ) : UInt16 := (v.fs.groupDesc g).freeBlocks

/-- Writes the bitmap of a group, and sets its count. -/
def Volume.put (v : Volume) (g : ℕ) (bitmap : Bytes) (freeBlocks : UInt16) : Volume :=
  { fs := { v.fs with
      groupDesc := Function.update v.fs.groupDesc g { v.fs.groupDesc g with freeBlocks := freeBlocks } }
    blocks := Function.update v.blocks (v.fs.groupDesc g).blockBitmap bitmap }

/-- The rounds of `ext3_alloc_block` over groups; 0 stands for no block. -/
def allocFrom (alloc : ℕ → Bool) (v : Volume) : List ℕ → UInt32 × Volume
  | [] => (0, v)
  | g :: gs =>
    if v.freeBlocks g = 0 then allocFrom alloc v gs
    else if ¬alloc g then allocFrom alloc v gs
    else
      let bits := v.fs.blockSize * 8
      match findFreeFrom (v.bitmap g) 0 (min bits.toNat v.fs.blocksPerGroup.toNat) with
      | none => allocFrom alloc v gs
      | some i =>
        (UInt32.ofNat g * v.fs.blocksPerGroup + UInt32.ofNat i + v.fs.firstDataBlock,
          v.put g (set (v.bitmap g) i) (v.freeBlocks g - 1))

def ext3AllocBlock (alloc : ℕ → Bool) (v : Volume) : UInt32 × Volume :=
  allocFrom alloc v (List.range v.fs.groupCount.toNat)

/-- The group of a block. -/
def groupOf (fs : Ext3Fs) (block : UInt32) : ℕ := ((block - fs.firstDataBlock) / fs.blocksPerGroup).toNat

/-- The bit of a block in its group. -/
def bitOf (fs : Ext3Fs) (block : UInt32) : ℕ := ((block - fs.firstDataBlock) % fs.blocksPerGroup).toNat

def ext3FreeBlock (alloc : Bool) (v : Volume) (block : UInt32) : Volume :=
  if block < v.fs.firstDataBlock then v
  else
    let g := groupOf v.fs block
    let i := bitOf v.fs block
    if g ≥ v.fs.groupCount.toNat then v
    else if ¬alloc then v
    else v.put g (clear (v.bitmap g) i) (v.freeBlocks g + 1)

/-! ## Runs -/

/-- A block of a group whose bit is clear. -/
def IsFree (v : Volume) (block : UInt32) : Prop :=
  ¬block < v.fs.firstDataBlock ∧ groupOf v.fs block < v.fs.groupCount.toNat ∧
    test (v.bitmap (groupOf v.fs block)) (bitOf v.fs block) = false

instance (v : Volume) (block : UInt32) : Decidable (IsFree v block) := inferInstanceAs (Decidable (_ ∧ _ ∧ _))

/-- A call, with the allocations of its buffers. -/
inductive Call where
  | alloc (buffers : ℕ → Bool)
  | free (block : UInt32) (buffer : Bool)

/-- The volume, the blocks that were returned and not freed since, and the volumes before and after every free of a
block that was free already. -/
structure Traced where
  volume : Volume
  owned : List UInt32
  doubleFrees : List (Volume × Volume)

/-- Only blocks that were returned are freed, or such as are free already. -/
def step (t : Traced) : Call → Option Traced
  | .alloc buffers =>
    let (block, v) := ext3AllocBlock buffers t.volume
    some { t with volume := v, owned := if block = 0 then t.owned else block :: t.owned }
  | .free block buffer =>
    let v := ext3FreeBlock buffer t.volume block
    if block ∈ t.owned then some { t with volume := v, owned := t.owned.erase block }
    else if IsFree t.volume block then some { t with volume := v, doubleFrees := (t.volume, v) :: t.doubleFrees }
    else none

def startOf (v : Volume) : Traced := ⟨v, [], []⟩

/-- A bitmap has a bit for every block of its group, and no two groups share one. -/
structure Geometry (fs : Ext3Fs) : Prop where
  perGroup : 0 < fs.blocksPerGroup.toNat
  bitmapFits : fs.blocksPerGroup.toNat ≤ (fs.blockSize * 8).toNat
  apart : ∀ g < fs.groupCount.toNat, ∀ h < fs.groupCount.toNat,
    (fs.groupDesc g).blockBitmap = (fs.groupDesc h).blockBitmap → g = h

/-- How many blocks of a group exist. -/
def existing (fs : Ext3Fs) (blockCount : UInt32) (g : ℕ) : ℕ :=
  min fs.blocksPerGroup.toNat (blockCount.toNat - (fs.firstDataBlock.toNat + g * fs.blocksPerGroup.toNat))

/-- The count of every group is the number of its clear bits. -/
def Matches (blockCount : UInt32) (v : Volume) : Prop :=
  ∀ g < v.fs.groupCount.toNat,
    (v.freeBlocks g).toNat + count (v.bitmap g) (existing v.fs blockCount g) = existing v.fs blockCount g

/-- What the calls promise. -/
structure AllocOk (blockCount : UInt32) (t : Traced) : Prop where
  once : t.owned.Nodup
  exist : ∀ block ∈ t.owned, block < blockCount
  counted : Matches blockCount t.volume
  same : ∀ p ∈ t.doubleFrees, p.1 = p.2

/-- A free that gets its buffer is of a block that was returned, and its group's count does not overflow. -/
def FreeOk (t : Traced) : Call → Prop
  | .alloc _ => True
  | .free block buffer => buffer = true →
    block ∈ t.owned ∧ (t.volume.freeBlocks (groupOf t.volume.fs block)).toNat + 1 < 2 ^ 16

end Ext3
