import Kenux.Lib.Word

/-!
# Reading an ext2 file (`arch/x86_64/ext2.c`)

The disk answers the read of a sector with its 512 bytes, and allocations succeed. What a new buffer holds is a
parameter.
-/

namespace Ext2

open Memory

def ext2BlockSize : ℕ := 1024

def entriesPerBlock : ℕ := ext2BlockSize / 4

abbrev Disk := ℕ → Mem

/-- `ext2_inode_t`, as far as reading goes. -/
structure Inode where
  size : UInt32
  block : ℕ → UInt32

def ext2BlockToLba (block : UInt32) : UInt32 := block * UInt32.ofNat (ext2BlockSize / 512)

/-- `ahci_read_sector` -/
def ahciReadSector (disk : Disk) (lba : UInt64) (buffer : Mem) : Mem :=
  fun i => if i < 512 then disk lba.toNat i else buffer i

def ext2ReadBlock (disk : Disk) (block : UInt32) (buffer : Mem) : Mem :=
  ahciReadSector disk (ext2BlockToLba block).toUInt64 buffer

/-- `buf[i]`, for a buffer of 32-bit numbers. -/
def word (buf : Mem) (i : ℕ) : UInt32 := UInt32.ofNat (load buf (4 * i) 4)

/-- `ext2_get_block_num`; `buf` is what the buffer for pointer blocks holds. -/
def ext2GetBlockNum (disk : Disk) (inode : Inode) (buf : Mem) (blockNum : ℕ) : UInt32 :=
  if blockNum < 12 then inode.block blockNum
  else
    let rel := blockNum - 12
    if rel < entriesPerBlock then
      let indBlock := inode.block 12
      if indBlock = 0 then 0
      else
        let buf := ext2ReadBlock disk indBlock buf
        word buf rel
    else
      let rel2 := rel - entriesPerBlock
      let dindEntries := entriesPerBlock * entriesPerBlock
      if rel2 < dindEntries then
        let dindBlock := inode.block 13
        if dindBlock = 0 then 0
        else
          let buf := ext2ReadBlock disk dindBlock buf
          let indBlock := word buf (rel2 / entriesPerBlock)
          if indBlock = 0 then 0
          else
            let buf := ext2ReadBlock disk indBlock buf
            word buf (rel2 % entriesPerBlock)
      else
        let rel3 := rel2 - dindEntries
        let tindEntries := entriesPerBlock * dindEntries
        if rel3 < tindEntries then
          let tindBlock := inode.block 14
          if tindBlock = 0 then 0
          else
            let buf := ext2ReadBlock disk tindBlock buf
            let dindBlock := word buf (rel3 / dindEntries)
            if dindBlock = 0 then 0
            else
              let buf := ext2ReadBlock disk dindBlock buf
              let indBlock := word buf (rel3 % dindEntries / entriesPerBlock)
              if indBlock = 0 then 0
              else
                let buf := ext2ReadBlock disk indBlock buf
                word buf (rel3 % entriesPerBlock)
        else 0

/-- What the buffers of a round hold at first: the one for pointer blocks and the one for data. -/
structure Dirt where
  pointers : Mem
  data : Mem

/-- The loop of `ext2_read_file`; `out` is what has been copied, and the buffers are new in every round. -/
def readLoop (disk : Disk) (inode : Inode) (dirt : ℕ → Dirt) (size offset : ℕ) (out : List UInt8) : List UInt8 :=
  let currentOffset := offset + out.length
  if h : out.length < size ∧ currentOffset < inode.size.toNat then
    let blockNum := currentOffset / ext2BlockSize
    let blockOffset := currentOffset % ext2BlockSize
    let readSize := min (ext2BlockSize - blockOffset) (size - out.length)
    let block := ext2GetBlockNum disk inode (dirt out.length).pointers blockNum
    if block = 0 then out
    else
      let blockBuffer := ext2ReadBlock disk block (dirt out.length).data
      readLoop disk inode dirt size offset (out ++ (List.range readSize).map fun i => blockBuffer (blockOffset + i))
  else out
termination_by size - out.length
decreasing_by
  rw [List.length_append, List.length_map, List.length_range]
  have hmod : (offset + out.length) % ext2BlockSize < ext2BlockSize := Nat.mod_lt _ (by decide)
  omega

/-- `ext2_read_file`: the bytes in the caller's buffer and what is returned. -/
def ext2ReadFile (disk : Disk) (inode : Inode) (dirt : ℕ → Dirt) (size offset : UInt64) : List UInt8 × Int32 :=
  let out := readLoop disk inode dirt size.toNat offset.toNat []
  (out, Int32.ofNat out.length)

/-! ## The bytes of a file -/

/-- A block is two sectors. -/
def blockBytes (disk : Disk) (block : UInt32) : Mem := fun i => disk (2 * block.toNat + i / 512) (i % 512)

/-- Where a block of a file is found: the number in the inode to begin with, and the entries to follow from there. -/
def route (n : ℕ) : Option (ℕ × List ℕ) :=
  if n < 12 then some (n, [])
  else if n - 12 < 256 then some (12, [n - 12])
  else if n - 268 < 65536 then some (13, [(n - 268) / 256, (n - 268) % 256])
  else if n - 65804 < 16777216 then
    some (14, [(n - 65804) / 65536, (n - 65804) % 65536 / 256, (n - 65804) % 256])
  else none

/-- Follows entries from block to block; 0 is a hole. -/
def follow (entry : UInt32 → ℕ → UInt32) (block : UInt32) : List ℕ → UInt32
  | [] => block
  | i :: is => if block = 0 then 0 else follow entry (entry block i) is

def lookup (entry : UInt32 → ℕ → UInt32) (inode : Inode) (n : ℕ) : UInt32 :=
  match route n with
  | none => 0
  | some (root, path) => follow entry (inode.block root) path

def fileByte (disk : Disk) (inode : Inode) (i : ℕ) : UInt8 :=
  let block := lookup (fun block => word (blockBytes disk block)) inode (i / 1024)
  if block = 0 then 0 else blockBytes disk block (i % 1024)

/-- How many bytes a read gets. -/
def count (inode : Inode) (size offset : ℕ) : ℕ := min size (inode.size.toNat - offset)

/-- The read gets the bytes of the file, whatever the buffers hold. -/
def ReadOk (disk : Disk) (inode : Inode) (size offset : UInt64) : Prop :=
  ∀ dirt, (ext2ReadFile disk inode dirt size offset).2.toInt = count inode size.toNat offset.toNat ∧
    (ext2ReadFile disk inode dirt size offset).1 =
      (List.range (count inode size.toNat offset.toNat)).map fun i => fileByte disk inode (offset.toNat + i)

/-- The sector that is read of a block. -/
def firstSector (disk : Disk) (block : UInt32) : Mem := disk (ext2BlockToLba block).toNat

/-- The bytes asked for end with the file at the latest and lie in the first sector of one block; the pointers to it
are among the first 128 of their blocks and none is 0, and its sector has the bytes of the file. -/
def InFirstSector (disk : Disk) (inode : Inode) (size offset : ℕ) : Prop :=
  offset + size ≤ inode.size.toNat ∧ offset % 1024 + size ≤ 512 ∧
    ∃ root path, route (offset / 1024) = some (root, path) ∧ (∀ i ∈ path, i < 128) ∧
      follow (fun block => word (firstSector disk block)) (inode.block root) path ≠ 0 ∧
      ∀ i < size, firstSector disk (follow (fun block => word (firstSector disk block)) (inode.block root) path)
        (offset % 1024 + i) = fileByte disk inode (offset + i)

/-!
## The sector of a block that is read

Only the first half of a block comes from the disk. What stands in the other half is what the buffer held, so a read
that needs it goes wrong for some buffer, and so does a pointer from there.
-/

variable {disk : Disk} {inode : Inode} {buf : Mem} {dirt : ℕ → Dirt} {size offset n : ℕ} {block : UInt32}

section Pointers

/-- What is found in a pointer block: the first 128 entries are there. -/
def codeEntry (disk : Disk) (buf : Mem) (block : UInt32) (i : ℕ) : UInt32 :=
  if i < 128 then word (firstSector disk block) i else word buf i

theorem read_first {i : ℕ} (hi : i < 512) : ext2ReadBlock disk block buf i = firstSector disk block i := by
  unfold ext2ReadBlock ahciReadSector firstSector
  rw [if_pos hi, UInt32.toNat_toUInt64]

theorem read_rest {i : ℕ} (hi : 512 ≤ i) : ext2ReadBlock disk block buf i = buf i := by
  unfold ext2ReadBlock ahciReadSector
  rw [if_neg (Nat.not_lt.mpr hi)]

theorem word_read (i : ℕ) : word (ext2ReadBlock disk block buf) i = codeEntry disk buf block i := by
  unfold codeEntry word
  split_ifs with hi
  · exact congrArg UInt32.ofNat (load_congr fun k hk => read_first (by omega))
  · exact congrArg UInt32.ofNat (load_congr fun k hk => read_rest (by omega))

/-- Reading another block into the buffer leaves the entries that do not come from the disk. -/
theorem codeEntry_read (block' : UInt32) (i : ℕ) :
    codeEntry disk (ext2ReadBlock disk block buf) block' i = codeEntry disk buf block' i := by
  unfold codeEntry
  split_ifs with hi
  · rfl
  · rw [word_read]
    exact if_neg hi

theorem getBlockNum_eq (n : ℕ) : ext2GetBlockNum disk inode buf n = lookup (codeEntry disk buf) inode n := by
  have hentries : entriesPerBlock = 256 := rfl
  unfold ext2GetBlockNum lookup route
  rw [hentries]
  dsimp only
  by_cases hdirect : n < 12
  · rw [if_pos hdirect, if_pos hdirect]
    rfl
  · rw [if_neg hdirect, if_neg hdirect]
    by_cases hsingle : n - 12 < 256
    · rw [if_pos hsingle, if_pos hsingle, word_read]
      rfl
    · rw [if_neg hsingle, if_neg hsingle, Nat.sub_sub]
      by_cases hdouble : n - (12 + 256) < 256 * 256
      · rw [if_pos hdouble, if_pos hdouble]
        simp only [word_read, codeEntry_read]
        rfl
      · rw [if_neg hdouble, if_neg hdouble, Nat.sub_sub]
        by_cases htriple : n - (12 + 256 + 256 * 256) < 256 * (256 * 256)
        · rw [if_pos htriple, if_pos htriple]
          simp only [word_read, codeEntry_read]
          rfl
        · rw [if_neg htriple, if_neg htriple]

theorem follow_hole (entry : UInt32 → ℕ → UInt32) (path : List ℕ) : follow entry 0 path = 0 := by
  cases path with
  | nil => rfl
  | cons i path => exact if_pos rfl

theorem load_zero (a k : ℕ) : load (fun _ => 0) a k = 0 := by
  induction k generalizing a with
  | zero => rfl
  | succ k ih =>
    unfold load
    rw [ih]
    rfl

/-- With nothing but zeros in the buffer, a block is found only through entries from the disk. -/
theorem follow_zero {path : List ℕ} (h : follow (codeEntry disk fun _ => 0) block path ≠ 0) :
    ∀ i ∈ path, i < 128 := by
  induction path generalizing block with
  | nil => exact fun i hi => absurd hi List.not_mem_nil
  | cons i path ih =>
    unfold follow at h
    rw [ite_ne_left_iff] at h
    obtain ⟨-, hrest⟩ := h
    have hfirst : i < 128 := by
      by_contra hi
      have hentry : codeEntry disk (fun _ => 0) block i = 0 := by
        unfold codeEntry word
        rw [if_neg hi, load_zero]
        rfl
      rw [hentry, follow_hole] at hrest
      exact hrest rfl
    intro j hj
    rcases List.mem_cons.mp hj with rfl | hj
    · exact hfirst
    · exact ih hrest.symm j hj

theorem follow_first {path : List ℕ} (h : ∀ i ∈ path, i < 128) :
    follow (codeEntry disk buf) block path = follow (fun block => word (firstSector disk block)) block path := by
  induction path generalizing block with
  | nil => rfl
  | cons i path ih =>
    have hentry : codeEntry disk buf block i = word (firstSector disk block) i := if_pos (h i List.mem_cons_self)
    unfold follow
    rw [hentry, ih fun j hj => h j (List.mem_cons_of_mem i hj)]

end Pointers

section Rounds

theorem loop_prefix (out : List UInt8) : out <+: readLoop disk inode dirt size offset out := by
  induction out using readLoop.induct disk inode dirt size offset with
  | case1 out currentOffset h blockNum block hole =>
    rw [readLoop, dif_pos h]
    dsimp only
    rw [if_pos hole]
  | case2 out currentOffset h blockNum blockOffset readSize block hblock buffer ih =>
    rw [readLoop, dif_pos h]
    dsimp only
    rw [if_neg hblock]
    exact (List.prefix_append _ _).trans ih
  | case3 out currentOffset h =>
    rw [readLoop, dif_neg h]

/-- What the first round copies. -/
def piece (disk : Disk) (block : UInt32) (data : Mem) (size offset : ℕ) : List UInt8 :=
  (List.range (min (1024 - offset % 1024) size)).map fun i => ext2ReadBlock disk block data (offset % 1024 + i)

theorem piece_length (data : Mem) : (piece disk block data size offset).length = min (1024 - offset % 1024) size := by
  unfold piece
  rw [List.length_map, List.length_range]

theorem piece_get (data : Mem) {i : ℕ} (hi : i < (piece disk block data size offset).length) :
    (piece disk block data size offset)[i] = ext2ReadBlock disk block data (offset % 1024 + i) := by
  have heq : piece disk block data size offset = (List.range (min (1024 - offset % 1024) size)).map
      fun i => ext2ReadBlock disk block data (offset % 1024 + i) := rfl
  rw [List.getElem_of_eq heq, List.getElem_map, List.getElem_range]

theorem loop_first (hsize : 0 < size) (hoffset : offset < inode.size.toNat) :
    readLoop disk inode dirt size offset [] =
      if lookup (codeEntry disk (dirt 0).pointers) inode (offset / 1024) = 0 then []
      else readLoop disk inode dirt size offset
        (piece disk (lookup (codeEntry disk (dirt 0).pointers) inode (offset / 1024)) (dirt 0).data size offset) := by
  conv_lhs => rw [readLoop]
  rw [dif_pos ⟨hsize, hoffset⟩]
  dsimp only
  rw [getBlockNum_eq]
  rfl

end Rounds

section Results

theorem succ_ne_self (x : UInt8) : x + 1 ≠ x := by
  intro heq
  have hone : (1 : UInt8).toNat = 1 := rfl
  have hnat := congrArg UInt8.toNat heq
  rw [UInt8.toNat_add, hone] at hnat
  omega

theorem nothing_ok {size offset : UInt64} (h : size = 0 ∨ inode.size.toNat ≤ offset.toNat) :
    ReadOk disk inode size offset := by
  intro dirt
  have hout : readLoop disk inode dirt size.toNat offset.toNat [] = [] := by
    rw [readLoop]
    refine dif_neg fun hand => ?_
    rcases h with rfl | hle
    · exact Nat.not_lt_zero _ hand.1
    · exact absurd hand.2 (Nat.not_lt.mpr hle)
  have hcount : count inode size.toNat offset.toNat = 0 := by
    unfold count
    rcases h with rfl | hle
    · exact Nat.zero_min _
    · rw [Nat.sub_eq_zero_of_le hle, Nat.min_zero]
  unfold ext2ReadFile
  dsimp only
  rw [hout, hcount]
  exact ⟨rfl, rfl⟩

theorem first_sector_ok {size offset : UInt64} (hpos : 0 < size.toNat)
    (h : InFirstSector disk inode size.toNat offset.toNat) : ReadOk disk inode size offset := by
  obtain ⟨hend, hsector, root, path, hroute, hpath, hhole, hbytes⟩ := h
  intro dirt
  have hcount : count inode size.toNat offset.toNat = size.toNat := Nat.min_eq_left (by omega)
  have hread : min (1024 - offset.toNat % 1024) size.toNat = size.toNat := Nat.min_eq_right (by omega)
  have hlookup : lookup (codeEntry disk (dirt 0).pointers) inode (offset.toNat / 1024) =
      follow (fun block => word (firstSector disk block)) (inode.block root) path := by
    unfold lookup
    rw [hroute]
    exact follow_first hpath
  obtain ⟨block, hblock⟩ : ∃ block,
      block = follow (fun block => word (firstSector disk block)) (inode.block root) path := ⟨_, rfl⟩
  rw [← hblock] at hhole hbytes hlookup
  have hpiece : piece disk block (dirt 0).data size.toNat offset.toNat =
      (List.range size.toNat).map fun i => fileByte disk inode (offset.toNat + i) := by
    unfold piece
    rw [hread]
    refine List.map_congr_left fun i hi => ?_
    have hi := List.mem_range.mp hi
    rw [read_first (by omega)]
    exact hbytes i hi
  have hout : readLoop disk inode dirt size.toNat offset.toNat [] =
      (List.range size.toNat).map fun i => fileByte disk inode (offset.toNat + i) := by
    rw [loop_first hpos (by omega), hlookup, if_neg hhole, hpiece, readLoop]
    refine dif_neg fun hand => ?_
    rw [List.length_map, List.length_range] at hand
    exact Nat.lt_irrefl _ hand.1
  unfold ext2ReadFile
  dsimp only
  rw [hout, hcount, List.length_map, List.length_range]
  exact ⟨Word.toInt_ofNat (by omega), rfl⟩

/-- A read that gets something reads one sector of one block. -/
theorem in_first_sector {size offset : UInt64} (hpos : 0 < size.toNat) (hoffset : offset.toNat < inode.size.toNat)
    (h : ReadOk disk inode size offset) : InFirstSector disk inode size.toNat offset.toNat := by
  have hcount : 0 < count inode size.toNat offset.toNat := by
    unfold count
    omega
  -- pointer buffers of zeros and data buffers of one byte
  obtain ⟨out, hout⟩ : ∃ out : UInt8 → List UInt8,
      ∀ x, out x = readLoop disk inode (fun _ => ⟨fun _ => 0, fun _ => x⟩) size.toNat offset.toNat [] :=
    ⟨_, fun _ => rfl⟩
  have hright : ∀ x, out x = (List.range (count inode size.toNat offset.toNat)).map
      fun i => fileByte disk inode (offset.toNat + i) := by
    intro x
    rw [hout]
    exact (h fun _ => ⟨fun _ => 0, fun _ => x⟩).2
  have hlength : ∀ x, (out x).length = count inode size.toNat offset.toNat := by
    intro x
    rw [hright, List.length_map, List.length_range]
  obtain ⟨block, hblock⟩ : ∃ block,
      block = lookup (codeEntry disk fun _ => 0) inode (offset.toNat / 1024) := ⟨_, rfl⟩
  have hfirst : ∀ x, out x = if block = 0 then []
      else readLoop disk inode (fun _ => ⟨fun _ => 0, fun _ => x⟩) size.toNat offset.toNat
        (piece disk block (fun _ => x) size.toNat offset.toNat) := by
    intro x
    rw [hout, loop_first hpos hoffset, hblock]
  have hhole : block ≠ 0 := by
    intro hzero
    have hnil := hfirst 0
    rw [if_pos hzero] at hnil
    have hlen := hlength 0
    rw [hnil] at hlen
    exact hcount.ne hlen
  -- every byte of the first round is a byte of the file
  have hbytes : ∀ x, ∀ i < min (1024 - offset.toNat % 1024) size.toNat, i < count inode size.toNat offset.toNat ∧
      ext2ReadBlock disk block (fun _ => x) (offset.toNat % 1024 + i) = fileByte disk inode (offset.toNat + i) := by
    intro x i hi
    have hprefix : piece disk block (fun _ => x) size.toNat offset.toNat <+: out x := by
      rw [hfirst, if_neg hhole]
      exact loop_prefix _
    have hi' : i < (piece disk block (fun _ => x) size.toNat offset.toNat).length := by
      rw [piece_length]
      exact hi
    have hlt : i < (out x).length := Nat.lt_of_lt_of_le hi' hprefix.length_le
    have hget : (out x)[i] = fileByte disk inode (offset.toNat + i) := by
      rw [List.getElem_of_eq (hright x), List.getElem_map, List.getElem_range]
    rw [← piece_get (fun _ => x) hi', hprefix.getElem hi', hget]
    exact ⟨hlength x ▸ hlt, rfl⟩
  have hmod : offset.toNat % 1024 < 1024 := Nat.mod_lt _ (by decide)
  have hsector : offset.toNat % 1024 + size.toNat ≤ 512 := by
    by_contra hlong
    obtain ⟨k, hk⟩ : ∃ k, k = 512 - offset.toNat % 1024 := ⟨_, rfl⟩
    obtain ⟨-, hbyte⟩ := hbytes (fileByte disk inode (offset.toNat + k) + 1) k (by omega)
    rw [read_rest (by omega)] at hbyte
    exact succ_ne_self _ hbyte
  have hread : min (1024 - offset.toNat % 1024) size.toNat = size.toNat := Nat.min_eq_right (by omega)
  rw [hread] at hbytes
  have hend : offset.toNat + size.toNat ≤ inode.size.toNat := by
    obtain ⟨hlast, -⟩ := hbytes 0 (size.toNat - 1) (by omega)
    unfold count at hlast
    omega
  unfold lookup at hblock
  cases hroute : route (offset.toNat / 1024) with
  | none =>
    rw [hroute] at hblock
    exact absurd hblock hhole
  | some found =>
    obtain ⟨root, path⟩ := found
    rw [hroute] at hblock
    dsimp only at hblock
    have hpath := follow_zero (hblock ▸ hhole)
    rw [follow_first hpath] at hblock
    refine ⟨hend, hsector, root, path, hroute, hpath, hblock ▸ hhole, fun i hi => ?_⟩
    obtain ⟨-, hbyte⟩ := hbytes 0 i hi
    rw [← hblock, ← hbyte, read_first (by omega)]

/-- A read is right, whatever the buffers hold, exactly if there is nothing to read or everything is in the first
sector of one block. -/
theorem ext2_read_file_iff (disk : Disk) (inode : Inode) (size offset : UInt64) :
    ReadOk disk inode size offset ↔
      size = 0 ∨ inode.size.toNat ≤ offset.toNat ∨ InFirstSector disk inode size.toNat offset.toNat := by
  by_cases hsize : size = 0
  · exact iff_of_true (nothing_ok (Or.inl hsize)) (Or.inl hsize)
  · have hpos : 0 < size.toNat := Nat.pos_of_ne_zero fun hzero => hsize (UInt64.toNat_inj.mp hzero)
    by_cases hoffset : inode.size.toNat ≤ offset.toNat
    · exact iff_of_true (nothing_ok (Or.inr hoffset)) (Or.inr (Or.inl hoffset))
    · constructor
      · intro hok
        exact Or.inr (Or.inr (in_first_sector hpos (Nat.not_le.mp hoffset) hok))
      · intro hcases
        exact first_sector_ok hpos ((hcases.resolve_left hsize).resolve_left hoffset)

/-- A file of one block of ones. -/
def onesDisk : Disk := fun _ _ => 1

def onesFile : Inode := ⟨1024, fun i => if i = 0 then 1 else 0⟩

/-- The second half of the block is not read. -/
theorem half_block_read : ¬∀ disk inode size offset, ReadOk disk inode size offset := by
  intro hall
  obtain ⟨-, hsector, -⟩ := in_first_sector (by decide) (by decide) (hall onesDisk onesFile 1 512)
  exact absurd hsector (by decide)

end Results

end Ext2
