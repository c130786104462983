import Kenux.Lib.Memory
import Kenux.Lib.Run
import Mathlib.Data.List.GetD

/-!
# Data of exFAT files (`arch/x86_64/exfat.c`)

The disk answers the read of a sector with its 512 bytes and keeps what is written; it is modelled by its bytes. A call
allocates a buffer, which may fail; what a new buffer holds is a parameter.
-/

namespace Exfat

open Memory Run

def exfatClusterEnd : UInt32 := 0xFFFFFFFF

/-- `exfat_fs_t`, as far as the data of files goes, with the sizes that `exfat_mount` lets through. -/
structure ExfatFs where
  bytesPerSector : ℕ
  sectorsPerCluster : ℕ
  bytesPerCluster : ℕ
  clusterHeapStart : UInt32
  totalClusters : UInt32
  fatTable : UInt32 → UInt32
  mounted : ∃ bpsShift spcShift, 9 ≤ bpsShift ∧ bpsShift ≤ 12 ∧ bpsShift + spcShift ≤ 25 ∧
    bytesPerSector = 2 ^ bpsShift ∧ sectorsPerCluster = 2 ^ spcShift ∧
    bytesPerCluster = bytesPerSector * sectorsPerCluster

theorem ExfatFs.bytesPerCluster_pos (fs : ExfatFs) : 0 < fs.bytesPerCluster := by
  obtain ⟨b, s, -, -, -, hb, hs, hc⟩ := fs.mounted
  rw [hc, hb, hs]
  exact Nat.mul_pos (Nat.two_pow_pos b) (Nat.two_pow_pos s)

/-- `exfat_read_sector`: the command transfers 512 bytes. -/
def exfatReadSector (disk : Mem) (lba : UInt64) (buf : Mem) (pos : ℕ) : Mem := copy buf pos disk (512 * lba.toNat) 512

def exfatWriteSector (disk : Mem) (lba : UInt64) (buf : Mem) (pos : ℕ) : Mem := copy disk (512 * lba.toNat) buf pos 512

def exfatClusterToSector (fs : ExfatFs) (cluster : UInt32) : UInt32 :=
  if cluster < 2 then 0 else fs.clusterHeapStart + (cluster - 2) * UInt32.ofNat fs.sectorsPerCluster

def exfatGetNextCluster (fs : ExfatFs) (cluster : UInt32) : UInt32 :=
  if cluster < 2 ∨ cluster ≥ fs.totalClusters + 2 then exfatClusterEnd else fs.fatTable cluster

def readSectors (fs : ExfatFs) (disk : Mem) (sector : UInt32) (dst : Mem) : ℕ → Mem
  | 0 => dst
  | i + 1 =>
    exfatReadSector disk (sector + UInt32.ofNat i).toUInt64 (readSectors fs disk sector dst i) (i * fs.bytesPerSector)

/-- `exfat_read_cluster`, for a cluster that is not below 2. -/
def exfatReadCluster (fs : ExfatFs) (disk : Mem) (cluster : UInt32) (buf : Mem) : Mem :=
  readSectors fs disk (exfatClusterToSector fs cluster) buf fs.sectorsPerCluster

def writeSectors (fs : ExfatFs) (disk : Mem) (sector : UInt32) (src : Mem) : ℕ → Mem
  | 0 => disk
  | i + 1 =>
    exfatWriteSector (writeSectors fs disk sector src i) (sector + UInt32.ofNat i).toUInt64 src (i * fs.bytesPerSector)

/-- `exfat_write_cluster`, for a cluster that is not below 2. -/
def exfatWriteCluster (fs : ExfatFs) (disk : Mem) (cluster : UInt32) (buf : Mem) : Mem :=
  writeSectors fs disk (exfatClusterToSector fs cluster) buf fs.sectorsPerCluster

/-- The cluster that `n` steps along the chain lead to. -/
def skipClusters (fs : ExfatFs) : ℕ → UInt32 → Option UInt32
  | 0, cluster => some cluster
  | n + 1, cluster =>
    let cluster := exfatGetNextCluster fs cluster
    if cluster < 2 ∨ cluster = exfatClusterEnd then none else skipClusters fs n cluster

/-- The loop of `exfat_read_file`; `out` is what has been copied. -/
def readLoop (fs : ExfatFs) (disk : Mem) (size : ℕ) (skipBytes : Fin fs.bytesPerCluster) (out : List UInt8)
    (cluster : UInt32) (tmp : Mem) : List UInt8 :=
  if _h : out.length < size ∧ cluster ≥ 2 ∧ cluster ≠ exfatClusterEnd then
    let tmp := exfatReadCluster fs disk cluster tmp
    let start := if out.length = 0 then skipBytes.val else 0
    let avail := fs.bytesPerCluster - start
    let want := size - out.length
    let copy := if want < avail then want else avail
    readLoop fs disk size skipBytes (out ++ (List.range copy).map fun i => tmp (start + i))
      (exfatGetNextCluster fs cluster) tmp
  else out
termination_by size - out.length
decreasing_by
  have hskip := skipBytes.isLt
  have hpos := fs.bytesPerCluster_pos
  rw [List.length_append, List.length_map, List.length_range]
  split_ifs <;> omega

/-- The loop of `exfat_write_file`: how many bytes are written, and the disk. -/
def writeLoop (fs : ExfatFs) (data : List UInt8) (skipBytes : Fin fs.bytesPerCluster) (totalWritten : ℕ) (disk : Mem)
    (cluster : UInt32) (tmp : Mem) : ℕ × Mem :=
  if _h : totalWritten < data.length ∧ cluster ≥ 2 ∧ cluster ≠ exfatClusterEnd then
    let tmp := exfatReadCluster fs disk cluster tmp
    let start := if totalWritten = 0 then skipBytes.val else 0
    let avail := fs.bytesPerCluster - start
    let want := data.length - totalWritten
    let copy := if want < avail then want else avail
    let tmp := write tmp start ((data.drop totalWritten).take copy)
    writeLoop fs data skipBytes (totalWritten + copy) (exfatWriteCluster fs disk cluster tmp)
      (exfatGetNextCluster fs cluster) tmp
  else (totalWritten, disk)
termination_by data.length - totalWritten
decreasing_by
  have hskip := skipBytes.isLt
  have hpos := fs.bytesPerCluster_pos
  split_ifs <;> omega

/-- A call on a file; the buffer is the one that it allocates. -/
inductive Call where
  | read (offset size : UInt64) (tmp : Option Mem)
  | write (offset : UInt64) (data : List UInt8) (tmp : Option Mem)

/-- What a call returns, and the bytes that it transferred. -/
structure Transfer where
  value : Int32
  data : List UInt8

def splitOffset (fs : ExfatFs) (offset : UInt64) : ℕ × Fin fs.bytesPerCluster :=
  (offset.toNat / fs.bytesPerCluster, ⟨offset.toNat % fs.bytesPerCluster, Nat.mod_lt _ fs.bytesPerCluster_pos⟩)

def exfatReadFile (fs : ExfatFs) (disk : Mem) (startCluster : UInt32) (offset size : UInt64) (tmp : Option Mem) :
    Transfer :=
  if startCluster < 2 then ⟨-1, []⟩
  else
    match skipClusters fs (splitOffset fs offset).1 startCluster with
    | none => ⟨-2, []⟩
    | some cluster =>
      match tmp with
      | none => ⟨-3, []⟩
      | some tmp =>
        let out := readLoop fs disk size.toNat (splitOffset fs offset).2 [] cluster tmp
        ⟨Int32.ofNat out.length, out⟩

def exfatWriteFile (fs : ExfatFs) (disk : Mem) (startCluster : UInt32) (offset : UInt64) (data : List UInt8)
    (tmp : Option Mem) : Transfer × Mem :=
  if startCluster < 2 then (⟨-1, []⟩, disk)
  else
    match skipClusters fs (splitOffset fs offset).1 startCluster with
    | none => (⟨-2, []⟩, disk)
    | some cluster =>
      match tmp with
      | none => (⟨-3, []⟩, disk)
      | some tmp =>
        let (total, disk) := writeLoop fs data (splitOffset fs offset).2 0 disk cluster tmp
        (⟨Int32.ofNat total, data.take total⟩, disk)

/-- A call on the file whose first cluster is given. -/
def fileCall (fs : ExfatFs) (startCluster : UInt32) (disk : Mem) : Call → Transfer × Mem
  | .read offset size tmp => (exfatReadFile fs disk startCluster offset size tmp, disk)
  | .write offset data tmp => exfatWriteFile fs disk startCluster offset data tmp

/-! ## Arrays of bytes -/

/-- The same call on an array of `n` bytes. -/
def arrayCall (n : ℕ) (file : Mem) : Call → Transfer × Mem
  | .read offset size _ =>
    if offset.toNat < n then
      let out := (List.range (min size.toNat (n - offset.toNat))).map fun i => file (offset.toNat + i)
      (⟨Int32.ofNat out.length, out⟩, file)
    else (⟨-2, []⟩, file)
  | .write offset data _ =>
    if offset.toNat < n then
      let data := data.take (n - offset.toNat)
      (⟨Int32.ofNat data.length, data⟩, write file offset.toNat data)
    else (⟨-2, []⟩, file)

/-- The clusters of a file: the table leads from each to the next, and from the last to the end. -/
structure Chain (fs : ExfatFs) where
  clusters : List UInt32
  ne : clusters ≠ []
  nodup : clusters.Nodup
  inHeap : ∀ c ∈ clusters, 2 ≤ c.toNat ∧ c.toNat < fs.totalClusters.toNat + 2
  linked : ∀ k < clusters.length, fs.fatTable (clusters.getD k 0) = clusters.getD (k + 1) exfatClusterEnd

/-- Where the bytes of a cluster begin. -/
def clusterStart (fs : ExfatFs) (cluster : UInt32) : ℕ :=
  fs.bytesPerSector * (fs.clusterHeapStart.toNat + (cluster.toNat - 2) * fs.sectorsPerCluster)

variable {fs : ExfatFs}

def Chain.first (ch : Chain fs) : UInt32 := ch.clusters.getD 0 0

def Chain.size (ch : Chain fs) : ℕ := ch.clusters.length * fs.bytesPerCluster

/-- The bytes of the clusters, one after the other. -/
def Chain.contents (ch : Chain fs) (disk : Mem) : Mem := fun p =>
  if p < ch.size then disk (clusterStart fs (ch.clusters.getD (p / fs.bytesPerCluster) 0) + p % fs.bytesPerCluster)
  else 0

/-- Every byte that is not in a cluster of the chain is kept. -/
def Chain.KeepsOthers (ch : Chain fs) (disk disk' : Mem) : Prop :=
  ∀ a, (∀ c ∈ ch.clusters, a < clusterStart fs c ∨ clusterStart fs c + fs.bytesPerCluster ≤ a) → disk' a = disk a

/-- The calls give what they would give on an array of bytes, which is what the clusters then hold; and no other byte
is written. -/
def Chain.ActsAsArray (ch : Chain fs) (disk : Mem) (calls : List Call) : Prop :=
  outputs (arrayCall ch.size) (ch.contents disk) calls =
      ((outputs (fileCall fs ch.first) disk calls).1,
        ch.contents (outputs (fileCall fs ch.first) disk calls).2) ∧
    ch.KeepsOthers disk (outputs (fileCall fs ch.first) disk calls).2

/-- A sector of the volume is one of the disk, and the sectors have numbers in 32 bits. -/
def ExfatFs.Fits (fs : ExfatFs) : Prop :=
  fs.bytesPerSector = 512 ∧ fs.totalClusters.toNat + 2 < 2 ^ 32 ∧
    fs.clusterHeapStart.toNat + fs.totalClusters.toNat * fs.sectorsPerCluster ≤ 2 ^ 32

/-- The call gets its buffer. -/
def Call.HasBuffer : Call → Prop
  | .read _ _ tmp => tmp.isSome
  | .write _ _ tmp => tmp.isSome

/-! ## Clusters -/

variable {ch : Chain fs} {disk m : Mem} {c : UInt32} {sector : UInt32} {k n p : ℕ}

theorem ExfatFs.Fits.bytesPerCluster_eq (h : fs.Fits) : fs.bytesPerCluster = 512 * fs.sectorsPerCluster := by
  obtain ⟨b, s, -, -, -, -, -, hc⟩ := fs.mounted
  rw [hc, h.1]

theorem ExfatFs.sectorsPerCluster_lt (fs : ExfatFs) : fs.sectorsPerCluster < 2 ^ 32 := by
  obtain ⟨b, s, -, -, hle, -, hs, -⟩ := fs.mounted
  rw [hs]
  exact Nat.pow_lt_pow_right (by decide) (by omega)

/-- The sectors of a cluster have the numbers that they should have. -/
theorem sector_eq (h : fs.Fits) (hlow : 2 ≤ c.toNat) (hhigh : c.toNat < fs.totalClusters.toNat + 2)
    (hk : k < fs.sectorsPerCluster) : (exfatClusterToSector fs c + UInt32.ofNat k).toUInt64.toNat =
      fs.clusterHeapStart.toNat + (c.toNat - 2) * fs.sectorsPerCluster + k := by
  obtain ⟨-, -, hfits⟩ := h
  have hspc := fs.sectorsPerCluster_lt
  have hcluster : (c.toNat - 2) * fs.sectorsPerCluster + fs.sectorsPerCluster ≤
      fs.totalClusters.toNat * fs.sectorsPerCluster := by
    rw [← Nat.succ_mul]
    exact Nat.mul_le_mul_right _ (by omega)
  have htwo : (2 : UInt32) ≤ c := UInt32.le_iff_toNat_le.mpr hlow
  have hcount : (UInt32.ofNat fs.sectorsPerCluster).toNat = fs.sectorsPerCluster := UInt32.toNat_ofNat_of_lt' hspc
  have hk32 : (UInt32.ofNat k).toNat = k := UInt32.toNat_ofNat_of_lt' (by unfold UInt32.size; omega)
  have hminus : (c - 2).toNat = c.toNat - 2 := UInt32.toNat_sub_of_le c 2 htwo
  unfold exfatClusterToSector
  rw [if_neg (UInt32.not_lt.mpr htwo), UInt32.toNat_toUInt64, UInt32.toNat_add, UInt32.toNat_add, UInt32.toNat_mul,
    hcount, hk32, hminus]
  omega

theorem readSectors_eq (h : fs.Fits) {start : ℕ} (hn : ∀ k < n, (sector + UInt32.ofNat k).toUInt64.toNat = start + k) :
    readSectors fs disk sector m n = copy m 0 disk (512 * start) (512 * n) := by
  induction n with
  | zero => exact (copy_zero m 0 disk _).symm
  | succ n ih =>
    have hlast := copy_copy (m := m) (a := 0) (s := disk) (b := 512 * start) (n := 512 * n) (k := 512)
    unfold readSectors exfatReadSector
    rw [ih fun k hk => hn k (Nat.lt_succ_of_lt hk), hn n (Nat.lt_succ_self n), h.1]
    rw [Nat.zero_add] at hlast
    rw [Nat.mul_add, Nat.mul_comm n, hlast, Nat.mul_succ]

theorem writeSectors_eq (h : fs.Fits) {start : ℕ} (hn : ∀ k < n, (sector + UInt32.ofNat k).toUInt64.toNat = start + k) :
    writeSectors fs disk sector m n = copy disk (512 * start) m 0 (512 * n) := by
  induction n with
  | zero => exact (copy_zero disk _ m 0).symm
  | succ n ih =>
    have hlast := copy_copy (m := disk) (a := 512 * start) (s := m) (b := 0) (n := 512 * n) (k := 512)
    unfold writeSectors exfatWriteSector
    rw [ih fun k hk => hn k (Nat.lt_succ_of_lt hk), hn n (Nat.lt_succ_self n), h.1]
    rw [Nat.zero_add] at hlast
    rw [Nat.mul_add, Nat.mul_comm n, hlast, Nat.mul_succ]

theorem exfatReadCluster_eq (h : fs.Fits) (hlow : 2 ≤ c.toNat) (hhigh : c.toNat < fs.totalClusters.toNat + 2) :
    exfatReadCluster fs disk c m = copy m 0 disk (clusterStart fs c) fs.bytesPerCluster := by
  unfold exfatReadCluster clusterStart
  rw [readSectors_eq h fun k hk => sector_eq h hlow hhigh hk, h.1, h.bytesPerCluster_eq]

theorem exfatWriteCluster_eq (h : fs.Fits) (hlow : 2 ≤ c.toNat) (hhigh : c.toNat < fs.totalClusters.toNat + 2) :
    exfatWriteCluster fs disk c m = copy disk (clusterStart fs c) m 0 fs.bytesPerCluster := by
  unfold exfatWriteCluster clusterStart
  rw [writeSectors_eq h fun k hk => sector_eq h hlow hhigh hk, h.1, h.bytesPerCluster_eq]

/-- Different clusters have no byte in common. -/
theorem clusterStart_apart (fs : ExfatFs) {c' : UInt32} (hlow : 2 ≤ c.toNat) (hlow' : 2 ≤ c'.toNat) (hne : c ≠ c') :
    clusterStart fs c + fs.bytesPerCluster ≤ clusterStart fs c' ∨
      clusterStart fs c' + fs.bytesPerCluster ≤ clusterStart fs c := by
  obtain ⟨-, -, -, -, -, -, -, hc⟩ := fs.mounted
  have hstart : ∀ d : UInt32, clusterStart fs d =
      fs.bytesPerSector * fs.clusterHeapStart.toNat + (d.toNat - 2) * fs.bytesPerCluster := by
    intro d
    unfold clusterStart
    rw [hc, Nat.mul_add, ← Nat.mul_assoc, ← Nat.mul_assoc, Nat.mul_comm fs.bytesPerSector (d.toNat - 2)]
  rw [hstart c, hstart c']
  rcases Nat.lt_or_gt_of_ne fun heq => hne (UInt32.toNat_inj.mp heq) with hlt | hlt
  · have hmul := Nat.mul_le_mul_right fs.bytesPerCluster (show c.toNat - 2 + 1 ≤ c'.toNat - 2 by omega)
    rw [Nat.succ_mul] at hmul
    exact .inl (by omega)
  · have hmul := Nat.mul_le_mul_right fs.bytesPerCluster (show c'.toNat - 2 + 1 ≤ c.toNat - 2 by omega)
    rw [Nat.succ_mul] at hmul
    exact .inr (by omega)

/-! ## The clusters of a chain -/

/-- The cluster at a place of the chain. -/
def Chain.at (ch : Chain fs) (k : ℕ) : UInt32 := ch.clusters.getD k exfatClusterEnd

theorem Chain.at_eq (ch : Chain fs) (hk : k < ch.clusters.length) : ch.at k = ch.clusters[k] :=
  List.getD_eq_getElem _ _ hk

theorem Chain.getD_eq (ch : Chain fs) (hk : k < ch.clusters.length) : ch.clusters.getD k 0 = ch.at k := by
  rw [ch.at_eq hk, List.getD_eq_getElem _ _ hk]

theorem Chain.at_end (ch : Chain fs) (hk : ch.clusters.length ≤ k) : ch.at k = exfatClusterEnd :=
  List.getD_eq_default _ _ hk

theorem Chain.at_mem (ch : Chain fs) (hk : k < ch.clusters.length) : ch.at k ∈ ch.clusters := by
  rw [ch.at_eq hk]
  exact List.getElem_mem hk

theorem Chain.length_pos (ch : Chain fs) : 0 < ch.clusters.length := List.length_pos_iff.mpr ch.ne

theorem Chain.at_inj (ch : Chain fs) {j : ℕ} (hk : k < ch.clusters.length) (hj : j < ch.clusters.length)
    (heq : ch.at k = ch.at j) : k = j := by
  rw [ch.at_eq hk, ch.at_eq hj] at heq
  exact (ch.nodup.getElem_inj_iff).mp heq

/-- A cluster of the chain is one, and not the end. -/
theorem Chain.at_valid (ch : Chain fs) (h : fs.Fits) (hk : k < ch.clusters.length) :
    ch.at k ≥ 2 ∧ ch.at k ≠ exfatClusterEnd := by
  obtain ⟨hlow, hhigh⟩ := ch.inHeap _ (ch.at_mem hk)
  have htotal := h.2.1
  refine ⟨UInt32.le_iff_toNat_le.mpr hlow, fun heq => ?_⟩
  rw [heq] at hhigh
  have hend : exfatClusterEnd.toNat = 2 ^ 32 - 1 := rfl
  omega

theorem Chain.next (ch : Chain fs) (h : fs.Fits) (hk : k < ch.clusters.length) :
    exfatGetNextCluster fs (ch.at k) = ch.at (k + 1) := by
  obtain ⟨hlow, hhigh⟩ := ch.inHeap _ (ch.at_mem hk)
  have htotal := h.2.1
  have hsum : (fs.totalClusters + 2).toNat = fs.totalClusters.toNat + 2 := by
    rw [UInt32.toNat_add]
    exact Nat.mod_eq_of_lt htotal
  have hlinked := ch.linked k hk
  rw [ch.getD_eq hk] at hlinked
  unfold exfatGetNextCluster
  rw [if_neg, hlinked]
  · rfl
  · rintro (hlt | hge)
    · exact absurd (UInt32.lt_iff_toNat_lt.mp hlt) (Nat.not_lt.mpr hlow)
    · have hge := UInt32.le_iff_toNat_le.mp hge
      omega

theorem Chain.skip (ch : Chain fs) (h : fs.Fits) (j : ℕ) (hj : j < ch.clusters.length) :
    skipClusters fs n (ch.at j) = if j + n < ch.clusters.length then some (ch.at (j + n)) else none := by
  induction n generalizing j with
  | zero =>
    rw [Nat.add_zero, if_pos hj]
    rfl
  | succ n ih =>
    unfold skipClusters
    rw [ch.next h hj]
    by_cases hnext : j + 1 < ch.clusters.length
    · obtain ⟨hlow, hend⟩ := ch.at_valid h hnext
      rw [if_neg (not_or.mpr ⟨UInt32.not_lt.mpr hlow, hend⟩), ih (j + 1) hnext]
      rw [Nat.add_right_comm, Nat.add_assoc]
    · rw [ch.at_end (Nat.not_lt.mp hnext), if_pos (.inr rfl), if_neg (by omega)]

/-! ## The bytes of a chain -/

variable {xs data out : List UInt8} {size offset start : ℕ} {skip : Fin fs.bytesPerCluster} {tmp : Mem}

/-- A byte of the cluster at place `k`. -/
theorem Chain.contents_at (ch : Chain fs) (disk : Mem) {i : ℕ} (hk : k < ch.clusters.length)
    (hi : i < fs.bytesPerCluster) :
    ch.contents disk (fs.bytesPerCluster * k + i) = disk (clusterStart fs (ch.at k) + i) := by
  have hpos := fs.bytesPerCluster_pos
  have hsize : fs.bytesPerCluster * k + i < ch.size := by
    have hmul := Nat.mul_le_mul_left fs.bytesPerCluster (Nat.succ_le_of_lt hk)
    rw [Nat.mul_succ] at hmul
    unfold Chain.size
    rw [Nat.mul_comm ch.clusters.length]
    omega
  have hdiv : (fs.bytesPerCluster * k + i) / fs.bytesPerCluster = k := by
    rw [Nat.mul_add_div hpos, Nat.div_eq_of_lt hi, Nat.add_zero]
  unfold Chain.contents
  rw [if_pos hsize, hdiv, Nat.mul_add_mod, Nat.mod_eq_of_lt hi, ch.getD_eq hk]

/-- Every place below the size is in a cluster. -/
theorem Chain.place (ch : Chain fs) (hp : p < ch.size) : ∃ k i, k < ch.clusters.length ∧ i < fs.bytesPerCluster ∧
    p = fs.bytesPerCluster * k + i :=
  ⟨p / fs.bytesPerCluster, p % fs.bytesPerCluster, Nat.div_lt_of_lt_mul (by rwa [Nat.mul_comm]),
    Nat.mod_lt _ fs.bytesPerCluster_pos, (Nat.div_add_mod p _).symm⟩

/-- Writing into a cluster writes into the array. -/
theorem Chain.contents_write (ch : Chain fs) (h : fs.Fits) (disk tmp : Mem) (hk : k < ch.clusters.length)
    (hfits : start + xs.length ≤ fs.bytesPerCluster) :
    ch.contents (exfatWriteCluster fs disk (ch.at k) (write (exfatReadCluster fs disk (ch.at k) tmp) start xs)) =
      write (ch.contents disk) (fs.bytesPerCluster * k + start) xs := by
  obtain ⟨hlow, hhigh⟩ := ch.inHeap _ (ch.at_mem hk)
  rw [exfatWriteCluster_eq h hlow hhigh, exfatReadCluster_eq h hlow hhigh]
  generalize hnew : write (copy tmp 0 disk (clusterStart fs (ch.at k)) fs.bytesPerCluster) start xs = new
  funext p
  by_cases hp : p < ch.size
  · obtain ⟨j, i, hj, hi, rfl⟩ := ch.place hp
    rw [ch.contents_at _ hj hi]
    by_cases hjk : j = k
    · subst hjk
      have hold : new (0 + i) = if start ≤ i ∧ i < start + xs.length then xs.getD (i - start) 0
          else disk (clusterStart fs (ch.at j) + i) := by
        rw [← hnew, Nat.zero_add]
        by_cases hin : start ≤ i ∧ i < start + xs.length
        · obtain ⟨d, rfl⟩ := Nat.exists_eq_add_of_le hin.1
          rw [if_pos hin, write_get (by omega), Nat.add_sub_cancel_left, List.getD_eq_getElem _ _ (by omega)]
        · rw [if_neg hin, write_other (by omega)]
          have hcopied := copy_get (m := tmp) (a := 0) (s := disk) (b := clusterStart fs (ch.at j)) hi
          rwa [Nat.zero_add] at hcopied
      rw [copy_get hi, hold]
      by_cases hin : start ≤ i ∧ i < start + xs.length
      · obtain ⟨d, rfl⟩ := Nat.exists_eq_add_of_le hin.1
        rw [if_pos hin, Nat.add_sub_cancel_left, List.getD_eq_getElem _ _ (by omega), ← Nat.add_assoc,
          write_get (by omega)]
      · rw [if_neg hin, write_other (by omega), ch.contents_at disk hj hi]
    · -- another cluster of the chain
      have hne : ch.at j ≠ ch.at k := fun heq => hjk (ch.at_inj hj hk heq)
      have hapart := clusterStart_apart fs (ch.inHeap _ (ch.at_mem hj)).1 hlow hne
      rw [copy_other (by omega), ← ch.contents_at disk hj hi]
      refine (write_other ?_).symm
      rcases Nat.lt_or_gt_of_ne hjk with hlt | hlt
      · have hmul := Nat.mul_le_mul_left fs.bytesPerCluster (Nat.succ_le_of_lt hlt)
        rw [Nat.mul_succ] at hmul
        exact .inl (by omega)
      · have hmul := Nat.mul_le_mul_left fs.bytesPerCluster (Nat.succ_le_of_lt hlt)
        rw [Nat.mul_succ] at hmul
        exact .inr (by omega)
  · have hin : fs.bytesPerCluster * k + start + xs.length ≤ ch.size := by
      have hmul := Nat.mul_le_mul_left fs.bytesPerCluster (Nat.succ_le_of_lt hk)
      rw [Nat.mul_succ] at hmul
      unfold Chain.size
      rw [Nat.mul_comm ch.clusters.length]
      omega
    rw [write_other (.inr (by omega))]
    unfold Chain.contents
    rw [if_neg hp, if_neg hp]

theorem Chain.keepsOthers_write (ch : Chain fs) (h : fs.Fits) (disk m : Mem) (hk : k < ch.clusters.length) :
    ch.KeepsOthers disk (exfatWriteCluster fs disk (ch.at k) m) := by
  obtain ⟨hlow, hhigh⟩ := ch.inHeap _ (ch.at_mem hk)
  intro a ha
  rw [exfatWriteCluster_eq h hlow hhigh]
  exact copy_other (ha _ (ch.at_mem hk))

theorem Chain.KeepsOthers.trans {disk' disk'' : Mem} (h : ch.KeepsOthers disk disk')
    (h' : ch.KeepsOthers disk' disk'') : ch.KeepsOthers disk disk'' := fun a ha => (h' a ha).trans (h a ha)

/-! ## The loops -/

/-- Where a round of a loop is: `total` bytes are done, the next ones are in the cluster at place `k`. -/
def InPlace (fs : ExfatFs) (offset size total k : ℕ) (skip : Fin fs.bytesPerCluster) : Prop :=
  total < size → offset + total = fs.bytesPerCluster * k + if total = 0 then skip.val else 0

/-- What a round transfers, and that the next round is in place. -/
theorem InPlace.round {total : ℕ} (h : InPlace fs offset size total k skip) (hlt : total < size)
    (hk : k < ch.clusters.length) : ∃ start copy, (if total = 0 then skip.val else 0) = start ∧
      (if size - total < fs.bytesPerCluster - start then size - total else fs.bytesPerCluster - start) = copy ∧
      offset + total = fs.bytesPerCluster * k + start ∧ start + copy ≤ fs.bytesPerCluster ∧ 0 < copy ∧
      copy ≤ min (size - total) (ch.size - (offset + total)) ∧
      InPlace fs offset size (total + copy) (k + 1) skip := by
  have hplace := h hlt
  have hskip := skip.isLt
  have hpos := fs.bytesPerCluster_pos
  have hstart : (if total = 0 then skip.val else 0) < fs.bytesPerCluster := by split_ifs <;> omega
  generalize (if total = 0 then skip.val else 0) = start at hplace hstart
  have hmul := Nat.mul_le_mul_left fs.bytesPerCluster (Nat.succ_le_of_lt hk)
  rw [Nat.mul_succ] at hmul
  have hsize : ch.size = fs.bytesPerCluster * ch.clusters.length := Nat.mul_comm _ _
  refine ⟨start, _, rfl, rfl, hplace, ?_, ?_, ?_, ?_⟩
  · split_ifs <;> omega
  · split_ifs <;> omega
  · split_ifs <;> omega
  · intro hless
    rw [Nat.mul_succ]
    split_ifs at hless ⊢ <;> omega

/-- The end of the chain is reached exactly at its last byte. -/
theorem InPlace.at_end {total : ℕ} (h : InPlace fs offset size total k skip) (hk : ch.clusters.length ≤ k) :
    min (size - total) (ch.size - (offset + total)) = 0 := by
  by_cases hlt : total < size
  · have hplace := h hlt
    have hmul := Nat.mul_le_mul_left fs.bytesPerCluster hk
    have hsize : ch.size = fs.bytesPerCluster * ch.clusters.length := Nat.mul_comm _ _
    omega
  · omega

theorem Chain.stops (ch : Chain fs) (hk : ch.clusters.length ≤ k) {P : Prop} :
    ¬(P ∧ ch.at k ≥ 2 ∧ ch.at k ≠ exfatClusterEnd) := fun hall => hall.2.2 (ch.at_end hk)

/-- What a round takes out of its cluster. -/
theorem Chain.read_round (ch : Chain fs) (h : fs.Fits) (disk tmp : Mem) {copy total : ℕ} (hk : k < ch.clusters.length)
    (hplace : offset + total = fs.bytesPerCluster * k + start) (hcopy : start + copy ≤ fs.bytesPerCluster) :
    ((List.range copy).map fun i => exfatReadCluster fs disk (ch.at k) tmp (start + i)) =
      (List.range copy).map fun i => ch.contents disk (offset + (total + i)) := by
  obtain ⟨hlow, hhigh⟩ := ch.inHeap _ (ch.at_mem hk)
  apply List.map_congr_left
  intro i hi
  have hi := List.mem_range.mp hi
  have hcopied := copy_get (m := tmp) (a := 0) (s := disk) (b := clusterStart fs (ch.at k))
    (show start + i < fs.bytesPerCluster by omega)
  rw [Nat.zero_add] at hcopied
  rw [exfatReadCluster_eq h hlow hhigh, hcopied, ← Nat.add_assoc offset, hplace, Nat.add_assoc,
    ch.contents_at disk hk (by omega)]

/-- What a round leaves. -/
theorem min_sub_round {s z o t c : ℕ} : min (s - (t + c)) (z - (o + (t + c))) = min (s - t) (z - (o + t)) - c := by
  rw [← Nat.add_assoc, Nat.sub_add_eq, Nat.sub_add_eq z, Nat.sub_min_sub_right]

theorem range_map_add {α : Type} (f : ℕ → α) {a b : ℕ} (h : a ≤ b) :
    (List.range b).map f = (List.range a).map f ++ (List.range (b - a)).map fun i => f (a + i) := by
  obtain ⟨d, rfl⟩ := Nat.exists_eq_add_of_le h
  rw [List.range_add, List.map_append, List.map_map, Nat.add_sub_cancel_left]
  rfl

theorem Chain.readLoop_eq (ch : Chain fs) (h : fs.Fits) (disk : Mem) (hk : k ≤ ch.clusters.length)
    (hplace : InPlace fs offset size out.length k skip) :
    readLoop fs disk size skip out (ch.at k) tmp = out ++
      (List.range (min (size - out.length) (ch.size - (offset + out.length)))).map fun i =>
        ch.contents disk (offset + (out.length + i)) := by
  -- on the clusters that are left
  induction hleft : ch.clusters.length - k generalizing k out tmp with
  | zero =>
    have hk : ch.clusters.length ≤ k := by omega
    rw [readLoop, dif_neg (ch.stops hk), hplace.at_end hk]
    exact (List.append_nil out).symm
  | succ left ih =>
    have hk : k < ch.clusters.length := by omega
    rw [readLoop]
    by_cases hlt : out.length < size
    · obtain ⟨start, copy, hstart, hcopy, hat, hfits, -, hle, hnext⟩ := hplace.round hlt hk
      rw [dif_pos ⟨hlt, ch.at_valid h hk⟩, ch.next h hk]
      simp only [hstart, hcopy]
      rw [ch.read_round h disk tmp hk hat hfits]
      have hlength : (out ++ (List.range copy).map fun i => ch.contents disk (offset + (out.length + i))).length =
          out.length + copy := by
        rw [List.length_append, List.length_map, List.length_range]
      rw [ih hk (by rwa [hlength]) (by omega), hlength, range_map_add _ hle, List.append_assoc]
      rw [min_sub_round]
      simp only [Nat.add_assoc]
    · rw [dif_neg fun hall => hlt hall.1, Nat.sub_eq_zero_of_le (Nat.not_lt.mp hlt), Nat.zero_min]
      exact (List.append_nil out).symm

theorem Chain.writeLoop_eq (ch : Chain fs) (h : fs.Fits) (disk tmp : Mem) {total : ℕ} (hk : k ≤ ch.clusters.length)
    (hplace : InPlace fs offset data.length total k skip) :
    (writeLoop fs data skip total disk (ch.at k) tmp).1 =
        total + min (data.length - total) (ch.size - (offset + total)) ∧
      ch.contents (writeLoop fs data skip total disk (ch.at k) tmp).2 = write (ch.contents disk) (offset + total)
        ((data.drop total).take (ch.size - (offset + total))) ∧
      ch.KeepsOthers disk (writeLoop fs data skip total disk (ch.at k) tmp).2 := by
  -- on the clusters that are left
  induction hleft : ch.clusters.length - k generalizing k total disk tmp with
  | zero =>
    have hk : ch.clusters.length ≤ k := by omega
    have hnone := hplace.at_end hk
    have hempty : (data.drop total).take (ch.size - (offset + total)) = [] := by
      rw [← List.length_eq_zero_iff, List.length_take, List.length_drop, Nat.min_comm, hnone]
    rw [writeLoop, dif_neg (ch.stops hk), hnone, hempty]
    exact ⟨rfl, rfl, fun a _ => rfl⟩
  | succ left ih =>
    have hk : k < ch.clusters.length := by omega
    rw [writeLoop]
    by_cases hlt : total < data.length
    · obtain ⟨start, copy, hstart, hcopy, hat, hfits, -, hle, hnext⟩ := hplace.round hlt hk
      rw [dif_pos ⟨hlt, ch.at_valid h hk⟩, ch.next h hk]
      simp only [hstart, hcopy]
      have hlength : ((data.drop total).take copy).length = copy := by
        rw [List.length_take, List.length_drop, Nat.min_eq_left (hle.trans (Nat.min_le_left ..))]
      obtain ⟨htotal, hcontents, hothers⟩ := ih (exfatWriteCluster fs disk (ch.at k)
        (write (exfatReadCluster fs disk (ch.at k) tmp) start ((data.drop total).take copy)))
        (write (exfatReadCluster fs disk (ch.at k) tmp) start ((data.drop total).take copy)) hk hnext (by omega)
      have hsum : total + copy + min (data.length - (total + copy)) (ch.size - (offset + (total + copy))) =
          total + min (data.length - total) (ch.size - (offset + total)) := by
        rw [min_sub_round, Nat.add_assoc, Nat.add_sub_cancel' hle]
      refine ⟨htotal.trans hsum, ?_, (ch.keepsOthers_write h disk _ hk).trans hothers⟩
      have htake : (data.drop total).take copy ++
          (data.drop (total + copy)).take (ch.size - (offset + (total + copy))) =
            (data.drop total).take (ch.size - (offset + total)) := by
        rw [← List.drop_drop, ← List.take_add, ← Nat.add_assoc offset, Nat.sub_add_eq,
          Nat.add_sub_cancel' (hle.trans (Nat.min_le_right ..))]
      rw [hcontents, ch.contents_write h disk tmp hk (by rw [hlength]; exact hfits), ← hat, ← htake, ← write_append,
        hlength, Nat.add_assoc]
    · have hempty : data.drop total = [] := List.drop_eq_nil_of_le (Nat.not_lt.mp hlt)
      rw [dif_neg fun hall => hlt hall.1, hempty, List.take_nil, Nat.sub_eq_zero_of_le (Nat.not_lt.mp hlt),
        Nat.zero_min]
      exact ⟨rfl, rfl, fun a _ => rfl⟩

/-! ## The calls -/

theorem Chain.first_eq (ch : Chain fs) : ch.first = ch.at 0 := ch.getD_eq ch.length_pos

/-- Where the loop of a call starts. -/
theorem start_place (fs : ExfatFs) (offset : UInt64) (size : ℕ) :
    InPlace fs offset.toNat size 0 (splitOffset fs offset).1 (splitOffset fs offset).2 := by
  intro _
  rw [if_pos rfl]
  exact (Nat.div_add_mod offset.toNat fs.bytesPerCluster).symm

theorem Chain.skip_first (ch : Chain fs) (h : fs.Fits) (offset : UInt64) :
    skipClusters fs (splitOffset fs offset).1 ch.first =
      if offset.toNat < ch.size then some (ch.at (splitOffset fs offset).1) else none := by
  have hiff : offset.toNat / fs.bytesPerCluster < ch.clusters.length ↔ offset.toNat < ch.size :=
    Nat.div_lt_iff_lt_mul fs.bytesPerCluster_pos
  rw [ch.first_eq, ch.skip h 0 ch.length_pos, Nat.zero_add]
  unfold splitOffset
  simp only [hiff]

/-- A call is the call on the array. -/
theorem Chain.fileCall_eq (ch : Chain fs) (h : fs.Fits) (disk : Mem) (call : Call) (hbuf : call.HasBuffer) :
    arrayCall ch.size (ch.contents disk) call =
        ((fileCall fs ch.first disk call).1, ch.contents (fileCall fs ch.first disk call).2) ∧
      ch.KeepsOthers disk (fileCall fs ch.first disk call).2 := by
  have hlow : ¬ch.first < 2 := by
    rw [ch.first_eq]
    exact UInt32.not_lt.mpr (ch.at_valid h ch.length_pos).1
  cases call with
  | read offset size tmp =>
    obtain ⟨tmp, rfl⟩ := Option.isSome_iff_exists.mp hbuf
    refine ⟨?_, fun a _ => rfl⟩
    dsimp only [fileCall, arrayCall]
    unfold exfatReadFile
    rw [if_neg hlow, ch.skip_first h]
    by_cases hlt : offset.toNat < ch.size
    · have hk : (splitOffset fs offset).1 < ch.clusters.length :=
        (Nat.div_lt_iff_lt_mul fs.bytesPerCluster_pos).mpr hlt
      rw [if_pos hlt, if_pos hlt]
      simp only
      rw [ch.readLoop_eq h disk hk.le (start_place fs offset size.toNat)]
      simp only [List.length_nil, List.nil_append, Nat.sub_zero, Nat.add_zero, Nat.zero_add]
    · rw [if_neg hlt, if_neg hlt]
  | write offset data tmp =>
    obtain ⟨tmp, rfl⟩ := Option.isSome_iff_exists.mp hbuf
    dsimp only [fileCall, arrayCall]
    unfold exfatWriteFile
    rw [if_neg hlow, ch.skip_first h]
    by_cases hlt : offset.toNat < ch.size
    · have hk : (splitOffset fs offset).1 < ch.clusters.length :=
        (Nat.div_lt_iff_lt_mul fs.bytesPerCluster_pos).mpr hlt
      obtain ⟨htotal, hcontents, hothers⟩ := ch.writeLoop_eq h disk tmp hk.le
        (start_place fs offset data.length)
      rw [Nat.zero_add, Nat.add_zero, Nat.sub_zero] at htotal
      rw [Nat.add_zero, List.drop_zero] at hcontents
      rw [if_pos hlt, if_pos hlt]
      simp only
      refine ⟨?_, hothers⟩
      rw [htotal, hcontents, List.length_take, Nat.min_comm, List.take_eq_take_min (i := ch.size - offset.toNat),
        Nat.min_comm]
    · rw [if_neg hlt, if_neg hlt]
      exact ⟨rfl, fun a _ => rfl⟩

/-- On a volume whose sectors are those of the disk a chain of clusters is an array of bytes. -/
theorem chain_acts_as_array (ch : Chain fs) (hfits : fs.Fits) (disk : Mem) (calls : List Call)
    (hbuf : ∀ call ∈ calls, call.HasBuffer) : ch.ActsAsArray disk calls := by
  refine ⟨?_, ?_⟩
  · exact outputs_simulates (fun d call hcall => (ch.fileCall_eq hfits d call hcall).1) hbuf disk
  · exact outputs_invariant (I := ch.KeepsOthers disk)
      (fun d call hcall hd => hd.trans (ch.fileCall_eq hfits d call hcall).2) hbuf fun a _ => rfl

/-- A volume of one cluster, which is one sector. -/
def oneSector (shift : ℕ) (hlow : 9 ≤ shift) (hhigh : shift ≤ 12) : ExfatFs where
  bytesPerSector := 2 ^ shift
  sectorsPerCluster := 1
  bytesPerCluster := 2 ^ shift
  clusterHeapStart := 0
  totalClusters := 1
  fatTable _ := exfatClusterEnd
  mounted := ⟨shift, 0, hlow, hhigh, by omega, rfl, rfl, (Nat.mul_one _).symm⟩

def oneCluster (shift : ℕ) (hlow : 9 ≤ shift) (hhigh : shift ≤ 12) : Chain (oneSector shift hlow hhigh) where
  clusters := [2]
  ne := List.cons_ne_nil _ _
  nodup := List.nodup_singleton 2
  inHeap := List.forall_mem_singleton.mpr
    (show 2 ≤ (2 : UInt32).toNat ∧ (2 : UInt32).toNat < (1 : UInt32).toNat + 2 by decide)
  linked k hk := by
    obtain rfl : k = 0 := Nat.lt_one_iff.mp hk
    rfl

theorem chain_acts_as_array_small : (oneCluster 9 (by decide) (by decide)).ActsAsArray (fun _ => 0)
    [.write 510 [1, 2, 3] (some fun _ => 7), .read 509 5 (some fun _ => 8)] :=
  chain_acts_as_array (oneCluster 9 (by decide) (by decide)) ⟨rfl, by decide, by decide⟩ (fun _ => 0)
    [.write 510 [1, 2, 3] (some fun _ => 7), .read 509 5 (some fun _ => 8)]
    (List.forall_mem_cons.mpr ⟨rfl, List.forall_mem_singleton.mpr rfl⟩)

/-- The second half of a sector of 1024 bytes is what the buffer held. -/
theorem big_sector_read (disk tmp : Mem) :
    (exfatReadFile (oneSector 10 (by decide) (by decide)) disk 2 512 1 (some tmp)).data = [tmp 512] := by
  have hcluster : exfatReadCluster (oneSector 10 (by decide) (by decide)) disk 2 tmp 512 = tmp 512 := by
    unfold exfatReadCluster readSectors
    exact copy_other (.inr (Nat.le_refl (0 * 1024 + 512)))
  have hskip : skipClusters (oneSector 10 (by decide) (by decide))
      (splitOffset (oneSector 10 (by decide) (by decide)) 512).1 2 = some 2 := rfl
  unfold exfatReadFile
  rw [if_neg (by decide), hskip]
  dsimp only
  rw [readLoop, dif_pos (by decide), readLoop, dif_neg fun hall => Nat.lt_irrefl 1 hall.1]
  exact congrArg (fun x => [x]) hcluster

/-- What is written to a sector of 1024 bytes is not read back. -/
theorem big_sector_lost : ¬(oneCluster 10 (by decide) (by decide)).ActsAsArray (fun _ => 0)
    [.write 0 (List.replicate 1024 5) (some fun _ => 0), .read 512 1 (some fun _ => 0)] := by
  rintro ⟨hcalls, -⟩
  have hanswers := congrArg (fun r => (r.1.map Transfer.data)[1]?) hcalls
  have hfile : ∀ f : Mem, write f 0 (List.replicate 1024 5) 512 = 5 := by
    intro f
    have hget := write_get (m := f) (a := 0) (l := List.replicate 1024 5) (i := 512)
      (by rw [List.length_replicate]; decide)
    rwa [List.getElem_replicate, Nat.zero_add] at hget
  have hread : ∀ d, (exfatReadFile (oneSector 10 (by decide) (by decide)) d
      (oneCluster 10 (by decide) (by decide)).first 512 1 (some fun _ => 0)).data = [0] :=
    fun d => big_sector_read d fun _ => 0
  have harray : ∀ f, (arrayCall (oneCluster 10 (by decide) (by decide)).size f (.read 512 1 (some fun _ => 0))).1.data =
      [f 512] := fun _ => rfl
  have hwritten : ∀ f, (arrayCall (oneCluster 10 (by decide) (by decide)).size f
      (.write 0 (List.replicate 1024 5) (some fun _ => 0))).2 512 = 5 := by
    intro f
    have htake : (List.replicate 1024 (5 : UInt8)).take ((oneCluster 10 (by decide) (by decide)).size - 0) =
        List.replicate 1024 5 := List.take_of_length_le (by rw [List.length_replicate]; decide)
    have hlt : 0 < (oneCluster 10 (by decide) (by decide)).size := by decide
    unfold arrayCall
    simp only [UInt64.toNat_zero, if_pos hlt]
    rw [htake]
    exact hfile f
  simp only [outputs, List.map_cons, fileCall, hread, harray, hwritten, List.getElem?_cons_succ,
    List.getElem?_cons_zero] at hanswers
  exact absurd hanswers (by decide)

end Exfat
