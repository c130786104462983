import Kenux.Lib.Memory

/-!
# FAT volumes (`arch/x86_64/fat.c`)

The file allocation table is a block of bytes in memory, 12, 16 or 32 bits for each cluster. `fat_read_cluster` does
not touch the buffer that it is given, so the buffers of its callers hold whatever the stack held; they are
parameters. Locks are left out.
-/

namespace Fat

open Memory

inductive FatType where
  | fat12 | fat16 | fat32
  deriving DecidableEq

/-- `fat_bpb_t`, without the fields that nothing reads. -/
structure Bpb where
  bytesPerSector : UInt16
  sectorsPerCluster : UInt8
  reservedSectors : UInt16
  numFats : UInt8
  rootEntryCount : UInt16
  totalSectors16 : UInt16
  sectorsPerFat16 : UInt16
  totalSectors32 : UInt32
  /-- The bytes of the union. -/
  ext : Mem

def Bpb.sectorsPerFat32 (bpb : Bpb) : UInt32 := UInt32.ofNat (load bpb.ext 0 4)

def Bpb.rootCluster (bpb : Bpb) : UInt32 := UInt32.ofNat (load bpb.ext 8 4)

/-- `fat_fs_t` -/
structure FatFs where
  type : FatType
  bpb : Bpb
  totalSectors : UInt32
  sectorsPerFat : UInt32
  rootDirSectors : UInt32
  firstDataSector : UInt32
  totalClusters : UInt32
  rootCluster : UInt32
  bytesPerCluster : UInt32
  fatCache : Mem
  /-- In words of four bytes. -/
  fatCacheSize : UInt32

/-! ## Entries of the table -/

def fatGetNextCluster (fs : FatFs) (cluster : UInt32) : UInt32 :=
  if cluster < 2 ∨ cluster ≥ fs.totalClusters + 2 then 0
  else
    match fs.type with
    | .fat12 =>
      let offset := cluster + cluster / 2
      let val := load fs.fatCache offset.toNat 2
      UInt32.ofNat (if cluster &&& 1 ≠ 0 then val >>> 4 else val &&& 0x0FFF)
    | .fat16 => UInt32.ofNat (load fs.fatCache (2 * cluster.toNat) 2)
    | .fat32 => UInt32.ofNat (load fs.fatCache (4 * cluster.toNat) 4 &&& 0x0FFFFFFF)

def fatSetNextCluster (fs : FatFs) (cluster next : UInt32) : ℤ × FatFs :=
  if cluster < 2 ∨ cluster ≥ fs.totalClusters + 2 then (-1, fs)
  else
    match fs.type with
    | .fat12 =>
      let offset := cluster + cluster / 2
      let val := load fs.fatCache offset.toNat 2
      let val := if cluster &&& 1 ≠ 0 then (val &&& 0x000F) ||| ((next.toNat &&& 0x0FFF) <<< 4)
        else (val &&& 0xF000) ||| (next.toNat &&& 0x0FFF)
      (0, { fs with fatCache := store fs.fatCache offset.toNat val 2 })
    | .fat16 => (0, { fs with fatCache := store fs.fatCache (2 * cluster.toNat) next.toNat 2 })
    | .fat32 =>
      let val := load fs.fatCache (4 * cluster.toNat) 4
      let val := (val &&& 0xF0000000) ||| (next.toNat &&& 0x0FFFFFFF)
      (0, { fs with fatCache := store fs.fatCache (4 * cluster.toNat) val 4 })

/-- What `fat_alloc_cluster` puts into the entry of a new cluster. -/
def FatType.eoc : FatType → UInt32
  | fat12 => 0x0FFF
  | fat16 => 0xFFFF
  | fat32 => 0x0FFFFFFF

/-- The loop of `fat_alloc_cluster`; the first argument is the number of clusters that are left. -/
def allocLoop (fs : FatFs) : ℕ → UInt32 → UInt32 × FatFs
  | 0, _ => (0, fs)
  | n + 1, i =>
    if fatGetNextCluster fs i = 0 then (i, (fatSetNextCluster fs i fs.type.eoc).2) else allocLoop fs n (i + 1)

def fatAllocCluster (fs : FatFs) : UInt32 × FatFs := allocLoop fs ((fs.totalClusters + 2).toNat - 2) 2

def fatFreeCluster (fs : FatFs) (cluster : UInt32) : FatFs := (fatSetNextCluster fs cluster 0).2

/-! ## Reading -/

abbrev Buffer := ℕ → UInt8

def fatClusterToSector (fs : FatFs) (cluster : UInt32) : UInt32 :=
  fs.firstDataSector + (cluster - 2) * fs.bpb.sectorsPerCluster.toUInt32

/-- `fat_read_cluster`; the buffer stays as it is. -/
def fatReadCluster (fs : FatFs) (cluster : UInt32) (buf : Buffer) : ℤ × Buffer :=
  if cluster < 2 then (-1, buf) else (fs.bytesPerCluster.toInt32.toInt, buf)

/-- A piece that is copied from the buffer of a cluster. -/
structure Piece where
  cluster : UInt32
  start : ℕ
  count : ℕ
  bytes : List UInt8

def slice (buf : Buffer) (start count : ℕ) : List UInt8 := (List.range count).map fun i => buf (start + i)

/-- The loop of `fat_read_file` that goes to the cluster of the offset. -/
def skipLoop (fs : FatFs) : ℕ → UInt32 → Option UInt32
  | 0, cluster => some cluster
  | n + 1, cluster =>
    let cluster := fatGetNextCluster fs cluster
    if cluster < 2 then none else skipLoop fs n cluster

/-- The second loop of `fat_read_file`: the pieces that it copies, and `total_read`. `tmp` is the buffer. -/
def readLoop (fs : FatFs) (tmp : Buffer) (skipBytes size : UInt32) :
    ℕ → UInt32 → UInt32 → Option (List Piece × UInt32)
  | 0, _, _ => none
  | fuel + 1, cluster, totalRead =>
    if totalRead < size ∧ cluster ≥ 2 then
      let tmp := (fatReadCluster fs cluster tmp).2
      let start := if totalRead = 0 then skipBytes else 0
      let avail := fs.bytesPerCluster - start
      let want := size - totalRead
      let copy := if want < avail then want else avail
      let piece := ⟨cluster, start.toNat, copy.toNat, slice tmp start.toNat copy.toNat⟩
      (readLoop fs tmp skipBytes size fuel (fatGetNextCluster fs cluster) (totalRead + copy)).map
        fun r => (piece :: r.1, r.2)
    else some ([], totalRead)

/-- `fat_read_file`; `none` is a loop that has not ended. -/
def fatReadFile (fuel : ℕ) (fs : FatFs) (tmp : Buffer) (startCluster offset size : UInt32) :
    Option (ℤ × List Piece) :=
  let skipClusters := offset / fs.bytesPerCluster
  let skipBytes := offset % fs.bytesPerCluster
  match skipLoop fs skipClusters.toNat startCluster with
  | none => some (-2, [])
  | some cluster =>
    (readLoop fs tmp skipBytes size fuel cluster 0).map fun r => (r.2.toInt32.toInt, r.1)

def fatAttrLfn : UInt8 := 0x0F

/-- The offset of `attr` in `fat_dir_entry_t`, which has 32 bytes. -/
def dirAttr : ℕ := 11

/-- What the inner loop of `fat_read_dir` has met: the entries it looked at, those it took, and whether it ended at a
free one. -/
structure Scan where
  looked : List ℕ
  taken : List (List UInt8)
  ended : Bool

/-- The inner loop of `fat_read_dir` from entry `i` on; `n` entries are left, and `room` of them can be taken. -/
def scanLoop (buf : Buffer) : ℕ → ℕ → ℕ → Scan
  | 0, _, _ => ⟨[], [], false⟩
  | n + 1, i, room =>
    if room = 0 then ⟨[], [], false⟩
    else if buf (32 * i) = 0x00 then ⟨[i], [], true⟩
    -- `name` is of `char`, which is signed, and so never 0xE5
    else if (buf (32 * i)).toInt8.toInt = 0xE5 ∨ buf (32 * i + dirAttr) = fatAttrLfn then
      let s := scanLoop buf n (i + 1) room
      { s with looked := i :: s.looked }
    else
      let s := scanLoop buf n (i + 1) (room - 1)
      { s with looked := i :: s.looked, taken := slice buf (32 * i) 32 :: s.taken }

/-- The entries of the buffers that `fat_read_dir` looked at, those it took, and whether it is done. -/
structure DirRead where
  looked : List ℕ
  taken : List (List UInt8)
  done : Bool

/-- The loop of `fat_read_dir`; `stack k` is what the buffer of round `k` holds, and `room` entries can still be
taken. -/
def readDirLoop (fs : FatFs) (stack : ℕ → Buffer) : ℕ → ℕ → UInt32 → ℕ → DirRead
  | 0, _, _, _ => ⟨[], [], false⟩
  | fuel + 1, k, cluster, room =>
    if cluster ≥ 2 ∧ room > 0 then
      let buf := (fatReadCluster fs cluster (stack k)).2
      let s := scanLoop buf (fs.bytesPerCluster.toNat / 32) 0 room
      if s.ended then ⟨s.looked, s.taken, true⟩
      else
        let r := readDirLoop fs stack fuel (k + 1) (fatGetNextCluster fs cluster) (room - s.taken.length)
        ⟨s.looked ++ r.looked, s.taken ++ r.taken, r.done⟩
    else ⟨[], [], true⟩

/-- `fat_read_dir` after at most `fuel` rounds; when it is done it returns the number of entries that it took, or -1. -/
def fatReadDir (fuel : ℕ) (fs : FatFs) (stack : ℕ → Buffer) (dirCluster : UInt32) (max : ℤ) : ℤ × DirRead :=
  if max ≤ 0 then (-1, ⟨[], [], true⟩)
  else
    let r := readDirLoop fs stack fuel 0 dirCluster max.toNat
    (r.taken.length, r)

/-! ## Mounting -/

/-- `total_sectors_16`, or `total_sectors_32` if that is 0 -/
def Bpb.totalSectors (bpb : Bpb) : UInt32 :=
  if bpb.totalSectors16 ≠ 0 then bpb.totalSectors16.toUInt32 else bpb.totalSectors32

def Bpb.rootSectors (bpb : Bpb) : UInt32 :=
  (bpb.rootEntryCount.toUInt32 * 32 + (bpb.bytesPerSector.toUInt32 - 1)) / bpb.bytesPerSector.toUInt32

def fatDetectType (bpb : Bpb) : FatType :=
  let dataSectors := bpb.totalSectors - bpb.reservedSectors.toUInt32 -
    bpb.numFats.toUInt32 * bpb.sectorsPerFat16.toUInt32 - bpb.rootSectors
  let clusters := dataSectors / bpb.sectorsPerCluster.toUInt32
  if clusters < 4085 then .fat12 else if clusters < 65525 then .fat16 else .fat32

/-- The volume as `fat_mount` lays it out, with some bytes for its table. -/
def layout (bpb : Bpb) (fatCache : Mem) : FatFs :=
  let type := fatDetectType bpb
  let sectorsPerFat := if type = .fat32 then bpb.sectorsPerFat32 else bpb.sectorsPerFat16.toUInt32
  let rootDirSectors := if type = .fat32 then 0 else bpb.rootSectors
  let firstDataSector := bpb.reservedSectors.toUInt32 + bpb.numFats.toUInt32 * sectorsPerFat + rootDirSectors
  { type, bpb
    totalSectors := bpb.totalSectors
    sectorsPerFat, rootDirSectors, firstDataSector
    totalClusters := (bpb.totalSectors - firstDataSector) / bpb.sectorsPerCluster.toUInt32
    rootCluster := if type = .fat32 then bpb.rootCluster else 0
    bytesPerCluster := bpb.bytesPerSector.toUInt32 * bpb.sectorsPerCluster.toUInt32
    fatCache
    fatCacheSize := sectorsPerFat * bpb.bytesPerSector.toUInt32 / 4 }

/-- `fat_mount`: its result, and the volume. `alloc` says whether memory is found for the volume, and the block for its
table, with whatever that holds. -/
def fatMount (bpb : Bpb) (alloc : Bool) (allocCache : Option Mem) : ℤ × Option FatFs :=
  if bpb.bytesPerSector ≠ 512 ∧ bpb.bytesPerSector ≠ 1024 ∧ bpb.bytesPerSector ≠ 2048 ∧ bpb.bytesPerSector ≠ 4096 then
    (-2, none)
  else if bpb.sectorsPerCluster = 0 ∨ bpb.sectorsPerCluster &&& (bpb.sectorsPerCluster - 1) ≠ 0 then (-3, none)
  else if ¬alloc then (-4, none)
  else
    match allocCache with
    | none => (-5, none)
    | some fatCache => (0, some (layout bpb fatCache))

/-! ## Formatting -/

/-- The first bytes of a label, and blanks. -/
def volumeLabel (label : List UInt8) (i : ℕ) : UInt8 :=
  if i < (label.takeWhile (· ≠ 0)).length then label.getD i 0 &&& 0x7F else 0x20

/-- Copies `n` bytes to the bytes from `a` on. -/
def copyTo (m : Mem) (a n : ℕ) (src : ℕ → UInt8) : Mem := fun i => if a ≤ i ∧ i < a + n then src (i - a) else m i

def zeroBpb : Bpb := ⟨0, 0, 0, 0, 0, 0, 0, 0, fun _ => 0⟩

/-- The fields that `fat_format` sets for any type. -/
def formatBpb (totalSectors : UInt32) : Bpb :=
  { zeroBpb with bytesPerSector := 512, numFats := 2, totalSectors32 := totalSectors }

/-- The offsets of `boot_sig` and of `volume_label` in the two parts of the union, and of `fs_type`. -/
def bootSig16 : ℕ := 2
def volumeLabel16 : ℕ := 7
def fsType16 : ℕ := 18
def bootSig32 : ℕ := 30
def volumeLabel32 : ℕ := 35
def fsType32 : ℕ := 46

/-- "FAT16   " and "FAT32   ", byte by byte. -/
def fsTypeText (d₁ d₂ : UInt8) : List UInt8 := [0x46, 0x41, 0x54, d₁, d₂, 0x20, 0x20, 0x20]

/-- `fat_format`: its result, and what the device begins with; `label` is the bytes at the label, if there is one. -/
def fatFormat (type : FatType) (label : Option (List UInt8)) (totalSectors : UInt32) : ℤ × Option Bpb :=
  let bpb := formatBpb totalSectors
  match type with
  | .fat16 =>
    let ext := Function.update bpb.ext bootSig16 0x29
    let ext := copyTo ext fsType16 8 fun i => (fsTypeText 0x31 0x36).getD i 0
    let ext := match label with
      | none => ext
      | some label => copyTo ext volumeLabel16 11 (volumeLabel label)
    (0, some { bpb with
      sectorsPerCluster := 4
      reservedSectors := 1
      rootEntryCount := 512
      sectorsPerFat16 := (totalSectors / 2 / 65525 + 1).toUInt16
      ext })
  | .fat32 =>
    let ext := store bpb.ext 0 (totalSectors / 2 / 262144 + 1).toNat 4
    let ext := store ext 8 2 4
    let ext := Function.update ext bootSig32 0x29
    let ext := copyTo ext fsType32 8 fun i => (fsTypeText 0x33 0x32).getD i 0
    let ext := match label with
      | none => ext
      | some label => copyTo ext volumeLabel32 11 (volumeLabel label)
    (0, some { bpb with
      sectorsPerCluster := 8
      reservedSectors := 32
      rootEntryCount := 0
      ext })
  | .fat12 => (-2, none)

/-!
## What a table is to do

The entries are fields of bits, one after the other. A chain of clusters leads from a start to a mark that is no
cluster of the volume.
-/

/-- The bits from one entry to the next. -/
def FatType.stride : FatType → ℕ
  | fat12 => 12
  | fat16 => 16
  | fat32 => 32

/-- The bits of an entry that count. -/
def FatType.width : FatType → ℕ
  | fat12 => 12
  | fat16 => 16
  | fat32 => 28

/-- The table has an entry for every cluster, and its block is one that `fat_mount` can ask for: its size in bytes is
computed in 32 bits. -/
structure Roomy (fs : FatFs) : Prop where
  block : 4 * fs.fatCacheSize.toNat ≤ 2 ^ 32
  room : (fs.totalClusters.toNat + 2) * fs.type.stride ≤ 8 * (4 * fs.fatCacheSize.toNat)

def IsCluster (fs : FatFs) (c : UInt32) : Prop := 2 ≤ c.toNat ∧ c.toNat < fs.totalClusters.toNat + 2

/-- The four bits of an entry of a FAT32 table that are no part of the cluster number. -/
def topBits (fs : FatFs) (c : UInt32) : ℕ := load fs.fatCache (4 * c.toNat) 4 / 2 ^ 28

/-- An entry takes a value, cut to its width, and the others keep theirs. -/
def SetOk (fs : FatFs) (c v : UInt32) : Prop :=
  let fs' := (fatSetNextCluster fs c v).2
  (fatSetNextCluster fs c v).1 = 0 ∧
    (fatGetNextCluster fs' c).toNat = v.toNat % 2 ^ fs.type.width ∧
    (∀ d, IsCluster fs d → d ≠ c → fatGetNextCluster fs' d = fatGetNextCluster fs d) ∧
    (fs.type = .fat32 → topBits fs' c = topBits fs c)

/-- A free cluster is found if there is one, and it alone is marked. -/
def AllocOk (fs : FatFs) : Prop :=
  let (c, fs') := fatAllocCluster fs
  (c = 0 ↔ ∀ d, IsCluster fs d → fatGetNextCluster fs d ≠ 0) ∧ (c = 0 → fs' = fs) ∧
    (c ≠ 0 → IsCluster fs c ∧ fatGetNextCluster fs c = 0 ∧ fatGetNextCluster fs' c = fs.type.eoc ∧
      ∀ d, IsCluster fs d → d ≠ c → fatGetNextCluster fs' d = fatGetNextCluster fs d)

/-! ## Chains -/

/-- A volume that was mounted, with whatever its table holds. -/
def Mounted (fs : FatFs) : Prop := ∃ bpb alloc allocCache, fatMount bpb alloc allocCache = (0, some fs)

/-- `FAT_CLUSTER_EOC12` and so on. -/
def FatType.eocMin : FatType → ℕ
  | fat12 => 0x0FF8
  | fat16 => 0xFFF8
  | fat32 => 0x0FFFFFF8

/-- A mark for the end of a chain; it is no cluster. -/
def EndMark (fs : FatFs) (mark : UInt32) : Prop := fs.type.eocMin ≤ mark.toNat ∧ ¬IsCluster fs mark

/-- From a number on, the table leads through the clusters of a list to the mark. -/
def Linked (fs : FatFs) (mark : UInt32) : UInt32 → List UInt32 → Prop
  | c, [] => c = mark
  | c, d :: cs => c = d ∧ IsCluster fs c ∧ Linked fs mark (fatGetNextCluster fs c) cs

/-- The chain of a file. -/
def ChainOf (fs : FatFs) (start : UInt32) (cs : List UInt32) : Prop := ∃ mark, EndMark fs mark ∧ Linked fs mark start cs

def FatFs.clusterBytes (fs : FatFs) : ℕ := fs.bytesPerCluster.toNat

/-- The bytes come from the clusters of the chain, from that of the offset on, and as many as there are. -/
def ReadOk (fs : FatFs) (start : UInt32) (cs : List UInt32) (offset size : UInt32) : Prop :=
  ∀ tmp, ∃ fuel r pieces, fatReadFile fuel fs tmp start offset size = some (r, pieces) ∧
    pieces.map Piece.cluster <+: cs.drop (offset.toNat / fs.clusterBytes) ∧
    if offset.toNat < cs.length * fs.clusterBytes then
      r = (min size.toNat (cs.length * fs.clusterBytes - offset.toNat) : ℕ)
    else r ≤ 0

/-- Nothing is asked for, or nothing beyond the chain and no more than an `int` can count, or the offset is more than a
cluster beyond the end. -/
def ReadWhen (fs : FatFs) (cs : List UInt32) (offset size : UInt32) : Prop :=
  size = 0 ∨ offset.toNat + size.toNat ≤ cs.length * fs.clusterBytes ∧ size.toNat < 2 ^ 31 ∨
    (cs.length + 1) * fs.clusterBytes ≤ offset.toNat

/-! ## Buffers -/

/-- `fat_read_file` ends and keeps to its buffer of 4096 bytes. -/
def FileInBuffer (fs : FatFs) (start offset size : UInt32) : Prop :=
  ∀ tmp, ∃ fuel r pieces, fatReadFile fuel fs tmp start offset size = some (r, pieces) ∧
    ∀ p ∈ pieces, p.start + p.count ≤ 4096

/-- The clusters are no larger than the buffer, or what is asked for lies in the buffer, or there is no cluster at the
offset. -/
def FileWhen (fs : FatFs) (start offset size : UInt32) : Prop :=
  fs.clusterBytes ≤ 4096 ∨ size = 0 ∨ offset.toNat % fs.clusterBytes + size.toNat ≤ 4096 ∨
    ∀ c, skipLoop fs (offset.toNat / fs.clusterBytes) start = some c → c < 2

/-- Whatever the buffers hold, `fat_read_dir` ends. -/
def DirEnds (fs : FatFs) (dirCluster : UInt32) (max : ℤ) : Prop :=
  ∀ stack, ∃ fuel, (fatReadDir fuel fs stack dirCluster max).2.done = true

/-- Whatever the buffers hold, it looks at no entry beyond their 4096 bytes. -/
def DirInBuffer (fs : FatFs) (dirCluster : UInt32) (max : ℤ) : Prop :=
  ∀ stack fuel, ∀ i ∈ (fatReadDir fuel fs stack dirCluster max).2.looked, 32 * i + 32 ≤ 4096

/-- The clusters are no larger than the buffer, or there is nothing to look at. -/
def DirWhen (fs : FatFs) (dirCluster : UInt32) (max : ℤ) : Prop :=
  fs.clusterBytes ≤ 4096 ∨ max ≤ 0 ∨ dirCluster < 2

/-- The table leads from a number to one that is no cluster. -/
def Leaves (fs : FatFs) (c : UInt32) : Prop := ∃ k, (fatGetNextCluster fs)^[k] c < 2

/-! ## Formatted volumes -/

/-- Where the bytes end that are read and written for the entry of a cluster. -/
def FatType.accessEnd (cluster : ℕ) : FatType → ℕ
  | fat12 => cluster + cluster / 2 + 2
  | fat16 => 2 * cluster + 2
  | fat32 => 4 * cluster + 4

/-- Every access to the table stays inside its block. -/
def FitsCache (fs : FatFs) : Prop := ∀ c, IsCluster fs c → fs.type.accessEnd c.toNat ≤ 4 * fs.fatCacheSize.toNat

/-- The area of the clusters begins behind what is in front of it, and ends with the volume. -/
def LaidOut (fs : FatFs) : Prop :=
  fs.firstDataSector.toNat = fs.bpb.reservedSectors.toNat + fs.bpb.numFats.toNat * fs.sectorsPerFat.toNat +
      fs.rootDirSectors.toNat ∧
    fs.firstDataSector ≤ fs.totalSectors ∧
    fs.firstDataSector.toNat + fs.totalClusters.toNat * fs.bpb.sectorsPerCluster.toNat ≤ fs.totalSectors.toNat

/-- A volume that is formatted can be mounted as what it was formatted for. -/
def FormatOk (type : FatType) (label : Option (List UInt8)) (totalSectors : UInt32) : Prop :=
  ∃ bpb, fatFormat type label totalSectors = (0, some bpb) ∧ ∀ fatCache, ∃ fs,
    fatMount bpb true (some fatCache) = (0, some fs) ∧ fs.type = type ∧ fs.totalSectors = totalSectors ∧
      LaidOut fs ∧ FitsCache fs

end Fat
