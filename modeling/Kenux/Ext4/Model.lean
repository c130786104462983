import Kenux.Ext3.Model
import Kenux.Lib.Scan

/-!
# Extents of an ext4 file (`arch/x86_64/ext4.c`)

The entries that are read are logged. `inodeBuf` and `blockBuf` are what the two buffers on the stack hold at first.
-/

namespace Ext4

open Memory Scan
open Ext3 (Ext3Fs ext3ReadBlock)

def ext4ExtMagic : UInt16 := 0xA30A

def ext4ExtentInitMaxLen : UInt32 := 0x8000

/-- `sizeof(ext2_inode_t)` -/
def inodeSize : ℕ := 128

/-- Where the block pointers of an inode are. -/
def extentArea : ℕ := 0x28

/-- `ext4_fs_t`, as far as extents go. -/
structure Ext4Fs where
  base : Ext3Fs
  hasExtents : Bool

/-- `ext4_extent_header_t`, as far as it is read. -/
structure ExtentHeader where
  ehMagic : UInt16
  ehEntries : UInt16
  ehDepth : UInt16

/-- `ext4_extent_t` -/
structure Extent where
  eeBlock : UInt32
  eeLen : UInt16
  eeStartHi : UInt16
  eeStartLo : UInt32

/-- `ext4_extent_idx_t` -/
structure ExtentIdx where
  eiBlock : UInt32
  eiStartLo : UInt32
  eiStartHi : UInt16

def header (buf : Mem) (pos : ℕ) : ExtentHeader where
  ehMagic := UInt16.ofNat (load buf pos 2)
  ehEntries := UInt16.ofNat (load buf (pos + 2) 2)
  ehDepth := UInt16.ofNat (load buf (pos + 6) 2)

/-- The entries lie behind the header; both have 12 bytes. -/
def entryPos (pos i : ℕ) : ℕ := pos + 12 + 12 * i

def extent (buf : Mem) (pos i : ℕ) : Extent where
  eeBlock := UInt32.ofNat (load buf (entryPos pos i) 4)
  eeLen := UInt16.ofNat (load buf (entryPos pos i + 4) 2)
  eeStartHi := UInt16.ofNat (load buf (entryPos pos i + 6) 2)
  eeStartLo := UInt32.ofNat (load buf (entryPos pos i + 8) 4)

def extentIdx (buf : Mem) (pos i : ℕ) : ExtentIdx where
  eiBlock := UInt32.ofNat (load buf (entryPos pos i) 4)
  eiStartLo := UInt32.ofNat (load buf (entryPos pos i + 4) 4)
  eiStartHi := UInt16.ofNat (load buf (entryPos pos i + 8) 2)

/-- `ext_len` -/
def Extent.extLen (ext : Extent) : UInt32 :=
  let extLen := ext.eeLen.toUInt32
  if extLen > ext4ExtentInitMaxLen then extLen - ext4ExtentInitMaxLen else extLen

/-- The test of the loops over extents. -/
def Extent.hit (ext : Extent) (logicalBlock : UInt64) : Bool :=
  logicalBlock ≥ ext.eeBlock.toUInt64 ∧ logicalBlock < (ext.eeBlock + ext.extLen).toUInt64

def Extent.start (ext : Extent) : UInt64 := (ext.eeStartHi.toUInt64 <<< 32) ||| ext.eeStartLo.toUInt64

def ExtentIdx.childBlock (idx : ExtentIdx) : UInt64 := (idx.eiStartHi.toUInt64 <<< 32) ||| idx.eiStartLo.toUInt64

/-- `*physical_block` and `*length` -/
def Extent.mapped (ext : Extent) (logicalBlock : UInt64) : UInt64 × UInt32 :=
  (ext.start + (logicalBlock - ext.eeBlock.toUInt64), ext.extLen - (logicalBlock - ext.eeBlock.toUInt64).toUInt32)

inductive Area
  | inode
  | child
  deriving DecidableEq

/-- What a call returns and puts out, and the entries that it reads. -/
structure Outcome where
  ret : ℤ
  out : Option (UInt64 × UInt32)
  reads : List (Area × ℕ)

/-- `ext4_read_inode`, for what `ext3_get_inode` gives. -/
def ext4ReadInode (inode : Option Mem) (buf : Mem) : Option Mem :=
  inode.map fun content k => if k < inodeSize then content k else buf k

/-- The loop over the extents of a buffer, with what is returned if there is none. -/
def mapExtents (area : Area) (buf : Mem) (pos : ℕ) (logicalBlock : UInt64) (reads : List (Area × ℕ)) (missing : ℤ) :
    Outcome :=
  let found := scan (fun i => (extent buf pos i).hit logicalBlock) (header buf pos).ehEntries.toNat 0 []
  let reads := reads ++ found.2.map fun i => (area, i)
  match found.1 with
  | some i => ⟨0, some ((extent buf pos i).mapped logicalBlock), reads⟩
  | none => ⟨missing, none, reads⟩

/-- The block of an index entry is read into the buffer of 4096 bytes, and its extents are gone through. There is no
outcome if the buffer is too small. -/
def mapChild (fs : Ext4Fs) (disk : Mem) (blockBuf inodeBuf : Mem) (logicalBlock : UInt64) (reads : List (Area × ℕ))
    (i : ℕ) (missing : ℤ) : Option Outcome :=
  let reads := reads ++ [(.inode, i)]
  let childBlock := (extentIdx inodeBuf extentArea i).childBlock
  if fs.base.blockSize > 4096 then none
  else
    let blockBuf := ext3ReadBlock fs.base disk childBlock.toUInt32 blockBuf
    if (header blockBuf 0).ehMagic ≠ ext4ExtMagic then some ⟨-3, none, reads⟩
    else some (mapExtents .child blockBuf 0 logicalBlock reads missing)

def ext4ExtentMap (fs : Ext4Fs) (disk : Mem) (inode : Option Mem) (inodeBuf blockBuf : Mem) (ino : UInt32)
    (logicalBlock : UInt64) : Option Outcome :=
  if ino = 0 then some ⟨-1, none, []⟩
  else if ¬fs.hasExtents then some ⟨0, some (logicalBlock, 1), []⟩
  else
    match ext4ReadInode inode inodeBuf with
    | none => some ⟨-1, none, []⟩
    | some inodeBuf =>
      let hdr := header inodeBuf extentArea
      if hdr.ehMagic ≠ ext4ExtMagic then some ⟨0, some (logicalBlock, 1), []⟩
      else if hdr.ehDepth = 0 then some (mapExtents .inode inodeBuf extentArea logicalBlock [] (-5))
      else
        let above := scan (fun i => logicalBlock < (extentIdx inodeBuf extentArea i).eiBlock.toUInt64) hdr.ehEntries.toNat 0 []
        let reads := above.2.map fun i => (.inode, i)
        match above.1 with
        | some i =>
          if i = 0 then some ⟨-2, none, reads⟩
          else mapChild fs disk blockBuf inodeBuf logicalBlock reads (i - 1) (-4)
        | none =>
          if hdr.ehEntries > 0 then
            mapChild fs disk blockBuf inodeBuf logicalBlock reads (hdr.ehEntries.toNat - 1) (-5)
          else some ⟨-5, none, reads⟩

/-!
## Extent trees

A tree is read off the bytes of its nodes, in numbers that do not wrap around. A node lies at a place of a memory:
the root in the inode, every other one in a block of the disk.
-/

/-- An extent of a file: `len` blocks from `block` on are those from `start` on. -/
structure FileExtent where
  block : ℕ
  len : ℕ
  start : ℕ

def FileExtent.Covers (e : FileExtent) (logicalBlock : ℕ) : Prop :=
  e.block ≤ logicalBlock ∧ logicalBlock < e.block + e.len

def entries (node : Mem) (pos : ℕ) : ℕ := load node (pos + 2) 2

/-- The first logical block that an entry is about. -/
def key (node : Mem) (pos i : ℕ) : ℕ := load node (entryPos pos i) 4

/-- Entry `i` of a leaf; the length of an uninitialized extent is above `0x8000`. -/
def leafExtent (node : Mem) (pos i : ℕ) : FileExtent where
  block := key node pos i
  len :=
    if load node (entryPos pos i + 4) 2 > 0x8000 then load node (entryPos pos i + 4) 2 - 0x8000
    else load node (entryPos pos i + 4) 2
  start := load node (entryPos pos i + 6) 2 * 2 ^ 32 + load node (entryPos pos i + 8) 4

/-- The block that entry `i` of an index node leads to. -/
def childNumber (node : Mem) (pos i : ℕ) : ℕ :=
  load node (entryPos pos i + 8) 2 * 2 ^ 32 + load node (entryPos pos i + 4) 4

/-- The extents of the leaves, from left to right. -/
def extentsOf (blockSize : ℕ) (disk : Mem) : ℕ → Mem → ℕ → List FileExtent
  | 0, node, pos => (List.range (entries node pos)).map (leafExtent node pos)
  | depth + 1, node, pos =>
    (List.range (entries node pos)).flatMap fun i =>
      extentsOf blockSize disk depth disk (childNumber node pos i * blockSize)

/-- The header of a node of some depth with room for `cap` entries. -/
structure IsNode (node : Mem) (pos depth cap : ℕ) : Prop where
  magic : load node pos 2 = ext4ExtMagic.toNat
  depth : load node (pos + 6) 2 = depth
  cap : entries node pos ≤ cap

/-- The entries of each node are in order and do not overlap. -/
def WellFormed (blockSize : ℕ) (disk : Mem) : ℕ → Mem → ℕ → ℕ → Prop
  | 0, node, pos, cap =>
    IsNode node pos 0 cap ∧
      ∀ i j, i < j → j < entries node pos →
        (leafExtent node pos i).block + (leafExtent node pos i).len ≤ (leafExtent node pos j).block
  | depth + 1, node, pos, cap =>
    IsNode node pos (depth + 1) cap ∧
      (∀ i j, i < j → j < entries node pos → key node pos i < key node pos j) ∧
      ∀ i < entries node pos,
        WellFormed blockSize disk depth disk (childNumber node pos i * blockSize) ((blockSize - 12) / 12) ∧
        ∀ e ∈ extentsOf blockSize disk depth disk (childNumber node pos i * blockSize),
          key node pos i ≤ e.block ∧ ∀ j, i < j → j < entries node pos → e.block + e.len ≤ key node pos j

/-- The inode has an extent tree of some depth; blocks have `1024 << log_block_size` bytes. -/
structure HasTree (fs : Ext4Fs) (disk content : Mem) (depth : ℕ) : Prop where
  depth_le : depth ≤ 5
  blockSize : ∃ k, fs.base.blockSize.toNat = 1024 * 2 ^ k
  wellFormed : WellFormed fs.base.blockSize.toNat disk depth content extentArea 4

/-! ## What is claimed of a call -/

/-- The extent that covers the block gives the answer; there is an error if there is none. -/
structure Correct (es : List FileExtent) (logicalBlock : ℕ) (o : Outcome) : Prop where
  covered : ∀ e ∈ es, e.Covers logicalBlock → o.ret = 0 ∧ ∃ out, o.out = some out ∧
    out.1.toNat = e.start + (logicalBlock - e.block) ∧ out.2.toNat = e.len - (logicalBlock - e.block)
  missing : (∀ e ∈ es, ¬e.Covers logicalBlock) → o.ret ≠ 0

/-- The entry lies in the 60 bytes of the inode, or in the 4096 bytes of the buffer. -/
def EntryInside : Area × ℕ → Prop
  | (.inode, i) => entryPos extentArea i + 12 ≤ extentArea + 60
  | (.child, i) => entryPos 0 i + 12 ≤ 4096

/-- The call ends, reads no entry outside, and finds what the tree says. -/
def Meets (fs : Ext4Fs) (disk : Mem) (inode : Option Mem) (inodeBuf blockBuf : Mem) (ino : UInt32)
    (logicalBlock : UInt64) : Prop :=
  ∃ o, ext4ExtentMap fs disk inode inodeBuf blockBuf ino logicalBlock = some o ∧
    (∀ r ∈ o.reads, EntryInside r) ∧
    ∀ content depth, ino ≠ 0 → fs.hasExtents = true → inode = some content → HasTree fs disk content depth →
      Correct (extentsOf fs.base.blockSize.toNat disk depth content extentArea) logicalBlock.toNat o

/-! ## When a call does so -/

/-- The call gets to the extents of the inode. -/
structure Extents (fs : Ext4Fs) (inode : Option Mem) (ino : UInt32) (content : Mem) : Prop where
  ino : ino ≠ 0
  hasExtents : fs.hasExtents = true
  inode : inode = some content
  magic : (header content extentArea).ehMagic = ext4ExtMagic

/-- The last entry before the first key above the block is `c`. -/
def LeadsTo (node : Mem) (pos logicalBlock c : ℕ) : Prop :=
  c < entries node pos ∧ (∀ j ≤ c, key node pos j ≤ logicalBlock) ∧
    (c + 1 < entries node pos → logicalBlock < key node pos (c + 1))

/-- The buffer with the block of entry `c`. -/
def childBuf (fs : Ext4Fs) (disk blockBuf content : Mem) (c : ℕ) : Mem :=
  Ext3.ext3ReadBlock fs.base disk (extentIdx content extentArea c).childBlock.toUInt32 blockBuf

/-- The loops over the entries stop inside of the inode, and of the block that is read. -/
structure InBounds (fs : Ext4Fs) (disk blockBuf content : Mem) (logicalBlock : UInt64) : Prop where
  leaf : load content (extentArea + 6) 2 = 0 →
    entries content extentArea ≤ 4 ∨ ∃ i < 4, (extent content extentArea i).hit logicalBlock = true
  index : load content (extentArea + 6) 2 ≠ 0 →
    entries content extentArea ≤ 4 ∨ ∃ i < 4, logicalBlock.toNat < key content extentArea i
  child : load content (extentArea + 6) 2 ≠ 0 → ∀ c, LeadsTo content extentArea logicalBlock.toNat c →
    fs.base.blockSize ≤ 4096 ∧
      ((header (childBuf fs disk blockBuf content c) 0).ehMagic = ext4ExtMagic →
        entries (childBuf fs disk blockBuf content c) 0 ≤ 340 ∨
          ∃ i < 340, (extent (childBuf fs disk blockBuf content c) 0 i).hit logicalBlock = true)

/-- What the root leads to is a leaf, and its number has 32 bits. -/
def Direct (content : Mem) (depth logicalBlock : ℕ) : Prop :=
  depth = 0 ∨ ∀ c, LeadsTo content extentArea logicalBlock c →
    depth = 1 ∧ childNumber content extentArea c < 2 ^ 32

/-- The end of an extent that covers the block has 32 bits. -/
def EndsFit (es : List FileExtent) (logicalBlock : ℕ) : Prop :=
  ∀ e ∈ es, e.Covers logicalBlock → e.block + e.len < 2 ^ 32

end Ext4
