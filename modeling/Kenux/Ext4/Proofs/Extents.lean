import Kenux.Ext3.Proofs.Blocks
import Kenux.Ext4.Model

/-!
# `ext4_extent_map`

The end of an extent is computed with 32 bits, so an extent that ends at or beyond 2^32 is never hit. What an index
entry of the root leads to is taken for a leaf.
-/

namespace Ext4

open Memory Scan

variable {fs : Ext4Fs} {disk node content inodeBuf blockBuf : Mem} {inode : Option Mem} {ino : UInt32} {pos i c : ℕ}
  {logicalBlock : UInt64} {area : Area} {reads : List (Area × ℕ)} {missing : ℤ}

/-! ## Entries -/

theorem toNat_load2 (m : Mem) (a : ℕ) : (UInt16.ofNat (load m a 2)).toNat = load m a 2 :=
  UInt16.toNat_ofNat_of_lt' (load_lt m a 2)

theorem toNat_load4 (m : Mem) (a : ℕ) : (UInt32.ofNat (load m a 4)).toNat = load m a 4 :=
  UInt32.toNat_ofNat_of_lt' (load_lt m a 4)

/-- A number of 48 bits in two parts. -/
theorem toNat_parts (hi : UInt16) (lo : UInt32) :
    ((hi.toUInt64 <<< 32) ||| lo.toUInt64).toNat = hi.toNat * 2 ^ 32 + lo.toNat := by
  have hhi := hi.toNat_lt
  have hlo := lo.toNat_lt
  have hshift : (hi.toUInt64 <<< 32).toNat = hi.toNat * 2 ^ 32 := by
    rw [UInt64.toNat_shiftLeft, UInt16.toNat_toUInt64, Nat.shiftLeft_eq]
    exact Nat.mod_eq_of_lt (by show hi.toNat * 2 ^ 32 < 2 ^ 64; omega)
  rw [UInt64.toNat_or, hshift, UInt32.toNat_toUInt64, ← Nat.shiftLeft_eq]
  exact (Nat.shiftLeft_add_eq_or_of_lt hlo _).symm

theorem key_lt (node : Mem) (pos i : ℕ) : key node pos i < 2 ^ 32 := load_lt _ _ 4

theorem eeBlock_toNat (node : Mem) (pos i : ℕ) : (extent node pos i).eeBlock.toNat = key node pos i := toNat_load4 _ _

theorem extLen_toNat (node : Mem) (pos i : ℕ) : (extent node pos i).extLen.toNat = (leafExtent node pos i).len := by
  have hlen : (extent node pos i).eeLen.toUInt32.toNat = load node (entryPos pos i + 4) 2 := toNat_load2 _ _
  have hmax : ext4ExtentInitMaxLen.toNat = 0x8000 := rfl
  unfold Extent.extLen leafExtent
  dsimp only
  by_cases hlong : (extent node pos i).eeLen.toUInt32 > ext4ExtentInitMaxLen
  · have hnat := UInt32.lt_iff_toNat_lt.mp hlong
    rw [hlen, hmax] at hnat
    rw [if_pos hlong, if_pos hnat, UInt32.toNat_sub_of_le _ _ (UInt32.le_of_lt hlong), hlen, hmax]
  · have hnat := mt UInt32.lt_iff_toNat_lt.mpr hlong
    rw [hlen, hmax] at hnat
    rw [if_neg hlong, if_neg hnat, hlen]

theorem leafExtent_len_le (node : Mem) (pos i : ℕ) : (leafExtent node pos i).len ≤ 0x8000 := by
  have hraw : load node (entryPos pos i + 4) 2 < 256 ^ 2 := load_lt _ _ 2
  unfold leafExtent
  dsimp only
  split_ifs <;> omega

theorem start_toNat (node : Mem) (pos i : ℕ) : (extent node pos i).start.toNat = (leafExtent node pos i).start := by
  unfold Extent.start
  rw [toNat_parts]
  exact congrArg₂ (fun a b => a * 2 ^ 32 + b) (toNat_load2 _ _) (toNat_load4 _ _)

theorem childBlock_toNat (node : Mem) (pos i : ℕ) : (extentIdx node pos i).childBlock.toNat = childNumber node pos i := by
  unfold ExtentIdx.childBlock
  rw [toNat_parts]
  exact congrArg₂ (fun a b => a * 2 ^ 32 + b) (toNat_load2 _ _) (toNat_load4 _ _)

theorem entries_toNat (node : Mem) (pos : ℕ) : (header node pos).ehEntries.toNat = entries node pos := toNat_load2 _ _

/-- An extent is hit if it covers the block and its end does not wrap around. -/
theorem hit_iff : (extent node pos i).hit logicalBlock = true ↔
    (leafExtent node pos i).Covers logicalBlock.toNat ∧
      (leafExtent node pos i).block + (leafExtent node pos i).len < 2 ^ 32 := by
  have hkey := key_lt node pos i
  have hlen := leafExtent_len_le node pos i
  have hblock : (leafExtent node pos i).block = key node pos i := rfl
  have hlow : logicalBlock ≥ (extent node pos i).eeBlock.toUInt64 ↔ key node pos i ≤ logicalBlock.toNat := by
    rw [ge_iff_le, UInt64.le_iff_toNat_le, UInt32.toNat_toUInt64, eeBlock_toNat]
  have hend : logicalBlock < ((extent node pos i).eeBlock + (extent node pos i).extLen).toUInt64 ↔
      logicalBlock.toNat < (key node pos i + (leafExtent node pos i).len) % 2 ^ 32 := by
    rw [UInt64.lt_iff_toNat_lt, UInt32.toNat_toUInt64, UInt32.toNat_add, eeBlock_toNat, extLen_toNat]
  unfold Extent.hit FileExtent.Covers
  rw [decide_eq_true_iff, hlow, hend, hblock]
  omega

/-- What a hit puts out. -/
theorem mapped_spec (h : (extent node pos i).hit logicalBlock = true) :
    ((extent node pos i).mapped logicalBlock).1.toNat =
        (leafExtent node pos i).start + (logicalBlock.toNat - (leafExtent node pos i).block) ∧
      ((extent node pos i).mapped logicalBlock).2.toNat =
        (leafExtent node pos i).len - (logicalBlock.toNat - (leafExtent node pos i).block) := by
  obtain ⟨⟨hlow, hhigh⟩, hend⟩ := hit_iff.mp h
  have hblock : (extent node pos i).eeBlock.toUInt64.toNat = (leafExtent node pos i).block := eeBlock_toNat node pos i
  have hle : (extent node pos i).eeBlock.toUInt64 ≤ logicalBlock := by rwa [UInt64.le_iff_toNat_le, hblock]
  have hrel : (logicalBlock - (extent node pos i).eeBlock.toUInt64).toNat =
      logicalBlock.toNat - (leafExtent node pos i).block := by
    rw [UInt64.toNat_sub_of_le _ _ hle, hblock]
  have hrel32 : (logicalBlock - (extent node pos i).eeBlock.toUInt64).toUInt32.toNat =
      logicalBlock.toNat - (leafExtent node pos i).block := by
    rw [UInt64.toNat_toUInt32, hrel]
    exact Nat.mod_eq_of_lt (by omega)
  have hstart : (leafExtent node pos i).start < 2 ^ 48 := by
    have hhi : load node (entryPos pos i + 6) 2 < 2 ^ 16 := load_lt _ _ 2
    have hlo : load node (entryPos pos i + 8) 4 < 2 ^ 32 := load_lt _ _ 4
    unfold leafExtent
    dsimp only
    omega
  constructor
  · show ((extent node pos i).start + (logicalBlock - (extent node pos i).eeBlock.toUInt64)).toNat = _
    rw [UInt64.toNat_add, start_toNat, hrel]
    exact Nat.mod_eq_of_lt (by omega)
  · show ((extent node pos i).extLen - (logicalBlock - (extent node pos i).eeBlock.toUInt64).toUInt32).toNat = _
    have hsub : (logicalBlock - (extent node pos i).eeBlock.toUInt64).toUInt32 ≤ (extent node pos i).extLen := by
      rw [UInt32.le_iff_toNat_le, hrel32, extLen_toNat]
      omega
    rw [UInt32.toNat_sub_of_le _ _ hsub, hrel32, extLen_toNat]

/-! ## A leaf -/

theorem mapExtents_reads : (mapExtents area node pos logicalBlock reads missing).reads =
    reads ++ (scan (fun i => (extent node pos i).hit logicalBlock) (entries node pos) 0 []).2.map
      fun i => (area, i) := by
  unfold mapExtents
  rw [entries_toNat]
  dsimp only
  split <;> rfl

/-- The entries that are read of a leaf are inside if the loop stops there. -/
theorem mapExtents_inside (node : Mem) (pos : ℕ) (logicalBlock : UInt64) (reads : List (Area × ℕ)) (missing : ℤ) {b : ℕ}
    (hb : ∀ i, EntryInside (area, i) ↔ i < b) :
    (∀ r ∈ (mapExtents area node pos logicalBlock reads missing).reads, EntryInside r) ↔
      (∀ r ∈ reads, EntryInside r) ∧
        (entries node pos ≤ b ∨ ∃ i < b, (extent node pos i).hit logicalBlock = true) := by
  rw [mapExtents_reads, List.forall_mem_append, List.forall_mem_map]
  refine and_congr_right fun _ => ?_
  simp only [hb]
  exact log_below_iff

/-- The extents of a leaf are in order. -/
def LeafSorted (node : Mem) (pos : ℕ) : Prop :=
  ∀ i j, i < j → j < entries node pos →
    (leafExtent node pos i).block + (leafExtent node pos i).len ≤ (leafExtent node pos j).block

/-- At most one extent of a leaf covers a block. -/
theorem LeafSorted.unique (h : LeafSorted node pos) {i j l : ℕ} (hi : i < entries node pos) (hj : j < entries node pos)
    (hil : (leafExtent node pos i).Covers l) (hjl : (leafExtent node pos j).Covers l) : i = j := by
  obtain ⟨hil, hil'⟩ := hil
  obtain ⟨hjl, hjl'⟩ := hjl
  rcases Nat.lt_trichotomy i j with hij | hij | hij
  · have := h i j hij hj
    omega
  · exact hij
  · have := h j i hij hi
    omega

/-- The leaf is mapped as its extents say unless the one that covers the block ends too high. -/
theorem mapExtents_correct (area : Area) (reads : List (Area × ℕ)) (logicalBlock : UInt64) (hsorted : LeafSorted node pos) (hmissing : missing ≠ 0) :
    Correct ((List.range (entries node pos)).map (leafExtent node pos)) logicalBlock.toNat
        (mapExtents area node pos logicalBlock reads missing) ↔
      EndsFit ((List.range (entries node pos)).map (leafExtent node pos)) logicalBlock.toNat := by
  unfold mapExtents
  rw [entries_toNat]
  dsimp only
  cases hscan : (scan (fun i => (extent node pos i).hit logicalBlock) (entries node pos) 0 []).1 with
  | none =>
    have hnone : ∀ i < entries node pos, ¬(extent node pos i).hit logicalBlock = true := fun i hi =>
      Bool.eq_false_iff.mp (scan_none hscan i (Nat.zero_le i) (by omega))
    constructor
    · rintro ⟨hcovered, -⟩ e he hcov
      exact absurd (hcovered e he hcov).1 hmissing
    · intro hends
      refine ⟨fun e he hcov => ?_, fun _ => hmissing⟩
      obtain ⟨i, hi, rfl⟩ := List.mem_map.mp he
      exact absurd (hit_iff.mpr ⟨hcov, hends _ he hcov⟩) (hnone i (List.mem_range.mp hi))
  | some k =>
    obtain ⟨-, hk, hhit, -⟩ := scan_some hscan
    rw [Nat.zero_add] at hk
    obtain ⟨hcov, hend⟩ := hit_iff.mp hhit
    -- the extent that is hit is the only one that covers the block
    have honly : ∀ e ∈ (List.range (entries node pos)).map (leafExtent node pos), e.Covers logicalBlock.toNat →
        e = leafExtent node pos k := by
      intro e he hcov'
      obtain ⟨j, hj, rfl⟩ := List.mem_map.mp he
      rw [hsorted.unique (List.mem_range.mp hj) hk hcov' hcov]
    refine ⟨fun _ e he hcov' => honly e he hcov' ▸ hend, fun _ => ⟨fun e he hcov' => ?_, fun hnone => ?_⟩⟩
    · rw [honly e he hcov']
      exact ⟨rfl, _, rfl, mapped_spec hhit⟩
    · exact absurd hcov (hnone _ (List.mem_map.mpr ⟨k, List.mem_range.mpr hk, rfl⟩))

/-! ## The same node at two places -/

/-- The first `n` bytes of two nodes are the same. -/
def Same (node : Mem) (pos : ℕ) (node' : Mem) (pos' n : ℕ) : Prop := ∀ k < n, node (pos + k) = node' (pos' + k)

section

variable {node' : Mem} {pos' n : ℕ} (h : Same node pos node' pos' n)

include h

theorem Same.load {a m : ℕ} (ham : a + m ≤ n) : Memory.load node (pos + a) m = Memory.load node' (pos' + a) m :=
  load_shift fun k hk => by
    rw [Nat.add_assoc, Nat.add_assoc]
    exact h (a + k) (by omega)

theorem Same.entry {a m : ℕ} (ham : 12 + 12 * i + a + m ≤ n) :
    Memory.load node (entryPos pos i + a) m = Memory.load node' (entryPos pos' i + a) m := by
  unfold entryPos
  rw [Nat.add_assoc, Nat.add_assoc, Nat.add_assoc, Nat.add_assoc]
  exact h.load (by omega)

theorem Same.header (hn : 12 ≤ n) : header node pos = Ext4.header node' pos' := by
  have hmagic : Memory.load node pos 2 = Memory.load node' pos' 2 := h.load (a := 0) (by omega)
  unfold Ext4.header
  rw [hmagic, h.load (by omega), h.load (by omega)]

theorem Same.entries (hn : 12 ≤ n) : entries node pos = Ext4.entries node' pos' := h.load (by omega)

theorem Same.key (hi : 24 + 12 * i ≤ n) : key node pos i = Ext4.key node' pos' i := h.entry (a := 0) (by omega)

theorem Same.extent (hi : 24 + 12 * i ≤ n) : extent node pos i = Ext4.extent node' pos' i := by
  have hblock : Memory.load node (entryPos pos i) 4 = Memory.load node' (entryPos pos' i) 4 := h.key hi
  unfold Ext4.extent
  rw [hblock, h.entry (by omega), h.entry (by omega), h.entry (by omega)]

theorem Same.extentIdx (hi : 24 + 12 * i ≤ n) : extentIdx node pos i = Ext4.extentIdx node' pos' i := by
  have hblock : Memory.load node (entryPos pos i) 4 = Memory.load node' (entryPos pos' i) 4 := h.key hi
  unfold Ext4.extentIdx
  rw [hblock, h.entry (by omega), h.entry (by omega)]

theorem Same.leafExtent (hi : 24 + 12 * i ≤ n) : leafExtent node pos i = Ext4.leafExtent node' pos' i := by
  unfold Ext4.leafExtent
  rw [h.key hi, h.entry (by omega), h.entry (by omega), h.entry (by omega)]

theorem Same.leafExtents (hcap : 12 + 12 * Ext4.entries node' pos' ≤ n) :
    (List.range (Ext4.entries node pos)).map (Ext4.leafExtent node pos) =
      (List.range (Ext4.entries node' pos')).map (Ext4.leafExtent node' pos') := by
  rw [h.entries (by omega)]
  refine List.map_congr_left fun i hi => h.leafExtent ?_
  have := List.mem_range.mp hi
  omega

theorem Same.leafSorted (hcap : 12 + 12 * Ext4.entries node' pos' ≤ n) (hsorted : LeafSorted node' pos') :
    LeafSorted node pos := by
  intro i j hij hj
  rw [h.entries (by omega)] at hj
  rw [h.leafExtent (by omega), h.leafExtent (by omega)]
  exact hsorted i j hij hj

end

/-! ## The index of the root -/

/-- What the inode's buffer holds. -/
def root (content inodeBuf : Mem) : Mem := fun k => if k < inodeSize then content k else inodeBuf k

theorem read_root : ext4ReadInode (some content) inodeBuf = some (root content inodeBuf) := rfl

theorem root_same (content inodeBuf : Mem) : Same (root content inodeBuf) extentArea content extentArea 88 :=
  fun k hk => if_pos (by unfold extentArea inodeSize; omega)

theorem entryInside_inode : EntryInside (.inode, i) ↔ i < 4 := by
  show extentArea + 12 + 12 * i + 12 ≤ extentArea + 60 ↔ i < 4
  omega

theorem entryInside_child : EntryInside (.child, i) ↔ i < 340 := by
  show 0 + 12 + 12 * i + 12 ≤ 4096 ↔ i < 340
  omega

theorem LeadsTo.unique {l c' : ℕ} (h : LeadsTo node pos l c) (h' : LeadsTo node pos l c') : c = c' := by
  obtain ⟨hc, hle, hnext⟩ := h
  obtain ⟨hc', hle', hnext'⟩ := h'
  by_contra hne
  rcases Nat.lt_or_gt_of_ne hne with hlt | hlt
  · exact absurd (hle' (c + 1) hlt) (Nat.not_le.mpr (hnext (by omega)))
  · exact absurd (hle (c' + 1) hlt) (Nat.not_le.mpr (hnext' (by omega)))

/-- The test of the loop over the index entries. -/
def above (node : Mem) (logicalBlock : UInt64) (i : ℕ) : Bool :=
  logicalBlock < (extentIdx node extentArea i).eiBlock.toUInt64

theorem above_iff : above node logicalBlock i = true ↔ logicalBlock.toNat < key node extentArea i := by
  have hkey : (extentIdx node extentArea i).eiBlock.toUInt64.toNat = key node extentArea i := toNat_load4 _ _
  unfold above
  rw [decide_eq_true_iff, UInt64.lt_iff_toNat_lt, hkey]

theorem root_above (hi : i < 4) : above (root content inodeBuf) logicalBlock i = above content logicalBlock i := by
  unfold above
  rw [(root_same content inodeBuf).extentIdx (by omega)]

/-- The loop over the index entries of the root. -/
def aboveScan (content inodeBuf : Mem) (logicalBlock : UInt64) : Option ℕ × List ℕ :=
  scan (above (root content inodeBuf) logicalBlock) (entries content extentArea) 0 []

theorem extent_map_leaf (hx : Extents fs inode ino content) (hdepth : load content (extentArea + 6) 2 = 0) :
    ext4ExtentMap fs disk inode inodeBuf blockBuf ino logicalBlock =
      some (mapExtents .inode (root content inodeBuf) extentArea logicalBlock [] (-5)) := by
  have hheader : header (root content inodeBuf) extentArea = header content extentArea :=
    (root_same content inodeBuf).header (by omega)
  have hzero : (header content extentArea).ehDepth = 0 := UInt16.toNat_inj.mp ((toNat_load2 _ _).trans hdepth)
  unfold ext4ExtentMap
  rw [if_neg hx.ino, if_neg (not_not.mpr hx.hasExtents), hx.inode, read_root]
  dsimp only
  rw [hheader, if_neg (not_not.mpr hx.magic), if_pos hzero]

theorem extent_map_index (hx : Extents fs inode ino content) (hdepth : load content (extentArea + 6) 2 ≠ 0) :
    ext4ExtentMap fs disk inode inodeBuf blockBuf ino logicalBlock =
      match (aboveScan content inodeBuf logicalBlock).1 with
      | some i =>
        if i = 0 then some ⟨-2, none, (aboveScan content inodeBuf logicalBlock).2.map fun i => (.inode, i)⟩
        else mapChild fs disk blockBuf (root content inodeBuf) logicalBlock
          ((aboveScan content inodeBuf logicalBlock).2.map fun i => (.inode, i)) (i - 1) (-4)
      | none =>
        if 0 < entries content extentArea then
          mapChild fs disk blockBuf (root content inodeBuf) logicalBlock
            ((aboveScan content inodeBuf logicalBlock).2.map fun i => (.inode, i)) (entries content extentArea - 1) (-5)
        else some ⟨-5, none, (aboveScan content inodeBuf logicalBlock).2.map fun i => (.inode, i)⟩ := by
  have hheader : header (root content inodeBuf) extentArea = header content extentArea :=
    (root_same content inodeBuf).header (by omega)
  have hzero : ¬(header content extentArea).ehDepth = 0 := fun hzero =>
    hdepth ((toNat_load2 _ _).symm.trans (congrArg UInt16.toNat hzero))
  have hpos : (header content extentArea).ehEntries > 0 ↔ 0 < entries content extentArea := by
    rw [gt_iff_lt, UInt16.lt_iff_toNat_lt, entries_toNat]
    rfl
  unfold ext4ExtentMap
  rw [if_neg hx.ino, if_neg (not_not.mpr hx.hasExtents), hx.inode, read_root]
  dsimp only
  rw [hheader, if_neg (not_not.mpr hx.magic), if_neg hzero, entries_toNat]
  simp only [hpos]
  rfl

/-- The loop over the index entries stops inside of the inode. -/
theorem aboveScan_inside (content inodeBuf : Mem) (logicalBlock : UInt64) :
    (∀ r ∈ (aboveScan content inodeBuf logicalBlock).2.map (fun i => (Area.inode, i)), EntryInside r) ↔
      entries content extentArea ≤ 4 ∨ ∃ i < 4, logicalBlock.toNat < key content extentArea i := by
  rw [List.forall_mem_map]
  simp only [entryInside_inode]
  unfold aboveScan
  rw [log_below_iff]
  refine or_congr_right (exists_congr fun i => and_congr_right fun hi => ?_)
  rw [root_above hi, above_iff]

/-- A call on an index node either goes to the block of the entry that leads to the logical block or finds none. -/
theorem index_cases (disk inodeBuf blockBuf : Mem) (hx : Extents fs inode ino content) (hdepth : load content (extentArea + 6) 2 ≠ 0)
    (hbound : entries content extentArea ≤ 4 ∨ ∃ i < 4, logicalBlock.toNat < key content extentArea i) :
    ∃ reads, (∀ r ∈ reads, EntryInside r) ∧
      ((∃ c < 4, LeadsTo content extentArea logicalBlock.toNat c ∧ ∃ missing ≠ 0,
          ext4ExtentMap fs disk inode inodeBuf blockBuf ino logicalBlock =
            mapChild fs disk blockBuf (root content inodeBuf) logicalBlock reads c missing) ∨
        (∀ c, ¬LeadsTo content extentArea logicalBlock.toNat c) ∧ ∃ ret ≠ 0,
          ext4ExtentMap fs disk inode inodeBuf blockBuf ino logicalBlock = some ⟨ret, none, reads⟩) := by
  refine ⟨_, (aboveScan_inside content inodeBuf logicalBlock).mpr hbound, ?_⟩
  rw [extent_map_index hx hdepth]
  cases hscan : (aboveScan content inodeBuf logicalBlock).1 with
  | some i =>
    obtain ⟨-, hi, hpass, hbefore⟩ := scan_some hscan
    have hi4 : i < 4 := by
      rcases hbound with hcap | ⟨j, hj, hkey⟩
      · omega
      · by_contra hge
        have hfalse := hbefore j (Nat.zero_le j) (by omega)
        rw [root_above hj, above_iff.mpr hkey] at hfalse
        cases hfalse
    rw [root_above hi4, above_iff] at hpass
    have hle : ∀ j < i, key content extentArea j ≤ logicalBlock.toNat := by
      intro j hj
      have hfalse := hbefore j (Nat.zero_le j) hj
      rw [root_above (by omega)] at hfalse
      exact Nat.not_lt.mp fun hlt => absurd (above_iff.mpr hlt) (by rw [hfalse]; decide)
    dsimp only
    by_cases hzero : i = 0
    · subst hzero
      rw [if_pos rfl]
      exact .inr ⟨fun c hc => absurd (hc.2.1 0 (Nat.zero_le c)) (Nat.not_le.mpr hpass), -2, by decide, rfl⟩
    · rw [if_neg hzero]
      refine .inl ⟨i - 1, by omega, ⟨by omega, fun j hj => hle j (by omega), fun _ => ?_⟩, -4, by decide, rfl⟩
      rwa [show i - 1 + 1 = i by omega]
  | none =>
    have hnone := scan_none hscan
    have hcap : entries content extentArea ≤ 4 := by
      rcases hbound with hcap | ⟨j, hj, hkey⟩
      · exact hcap
      · by_contra hge
        have hfalse := hnone j (Nat.zero_le j) (by omega)
        rw [root_above hj, above_iff.mpr hkey] at hfalse
        cases hfalse
    have hle : ∀ j < entries content extentArea, key content extentArea j ≤ logicalBlock.toNat := by
      intro j hj
      have hfalse := hnone j (Nat.zero_le j) (by omega)
      rw [root_above (by omega)] at hfalse
      exact Nat.not_lt.mp fun hlt => absurd (above_iff.mpr hlt) (by rw [hfalse]; decide)
    dsimp only
    by_cases hpos : 0 < entries content extentArea
    · rw [if_pos hpos]
      exact .inl ⟨entries content extentArea - 1, by omega,
        ⟨by omega, fun j hj => hle j (by omega), fun hnext => absurd hnext (by omega)⟩, -5, by decide, rfl⟩
    · rw [if_neg hpos]
      exact .inr ⟨fun c hc => hpos (Nat.lt_of_le_of_lt (Nat.zero_le c) hc.1), -5, by decide, rfl⟩

/-! ## The block of an entry -/

theorem mapChild_small (hsize : fs.base.blockSize ≤ 4096) (hc : c < 4) :
    mapChild fs disk blockBuf (root content inodeBuf) logicalBlock reads c missing =
      if (header (childBuf fs disk blockBuf content c) 0).ehMagic ≠ ext4ExtMagic then
        some ⟨-3, none, reads ++ [(.inode, c)]⟩
      else some (mapExtents .child (childBuf fs disk blockBuf content c) 0 logicalBlock (reads ++ [(.inode, c)]) missing) := by
  have hidx : extentIdx (root content inodeBuf) extentArea c = extentIdx content extentArea c :=
    (root_same content inodeBuf).extentIdx (by omega)
  unfold mapChild
  dsimp only
  rw [if_neg (UInt32.not_lt.mpr hsize), hidx]
  rfl

theorem mapChild_large (hsize : ¬fs.base.blockSize ≤ 4096) :
    mapChild fs disk blockBuf node logicalBlock reads c missing = none := by
  unfold mapChild
  dsimp only
  rw [if_pos (UInt32.not_le.mp hsize)]

/-- What was read before stays in the log. -/
theorem mapChild_reads {o : Outcome} (h : mapChild fs disk blockBuf node logicalBlock reads c missing = some o) :
    ∀ r ∈ reads, r ∈ o.reads := by
  intro r hr
  unfold mapChild at h
  dsimp only at h
  split_ifs at h with hsize hmagic
  · cases h
    exact List.mem_append_left _ hr
  · cases h
    rw [mapExtents_reads]
    exact List.mem_append_left _ (List.mem_append_left _ hr)

theorem mapChild_inside (hreads : ∀ r ∈ reads, EntryInside r) (hc : c < 4) :
    (∃ o, mapChild fs disk blockBuf (root content inodeBuf) logicalBlock reads c missing = some o ∧
        ∀ r ∈ o.reads, EntryInside r) ↔
      fs.base.blockSize ≤ 4096 ∧
        ((header (childBuf fs disk blockBuf content c) 0).ehMagic = ext4ExtMagic →
          entries (childBuf fs disk blockBuf content c) 0 ≤ 340 ∨
            ∃ i < 340, (extent (childBuf fs disk blockBuf content c) 0 i).hit logicalBlock = true) := by
  have hreads' : ∀ r ∈ reads ++ [(Area.inode, c)], EntryInside r := by
    intro r hr
    rcases List.mem_append.mp hr with hr | hr
    · exact hreads r hr
    · rw [List.mem_singleton.mp hr]
      exact entryInside_inode.mpr hc
  by_cases hsize : fs.base.blockSize ≤ 4096
  · rw [mapChild_small hsize hc]
    by_cases hmagic : (header (childBuf fs disk blockBuf content c) 0).ehMagic = ext4ExtMagic
    · rw [if_neg (not_not.mpr hmagic)]
      have hinside := mapExtents_inside (childBuf fs disk blockBuf content c) 0 logicalBlock (reads ++ [(.inode, c)]) missing
        fun i => entryInside_child (i := i)
      constructor
      · rintro ⟨o, ho, hall⟩
        cases ho
        exact ⟨hsize, fun _ => (hinside.mp hall).2⟩
      · rintro ⟨-, hhit⟩
        exact ⟨_, rfl, hinside.mpr ⟨hreads', hhit hmagic⟩⟩
    · rw [if_pos hmagic]
      exact ⟨fun _ => ⟨hsize, fun h => absurd h hmagic⟩, fun _ => ⟨_, rfl, hreads'⟩⟩
  · rw [mapChild_large hsize]
    constructor
    · rintro ⟨o, ho, -⟩
      cases ho
    · rintro ⟨hle, -⟩
      exact absurd hle hsize

/-- The entries that a call reads are inside in exactly these cases. -/
theorem extent_map_inside (hx : Extents fs inode ino content) :
    (∃ o, ext4ExtentMap fs disk inode inodeBuf blockBuf ino logicalBlock = some o ∧ ∀ r ∈ o.reads, EntryInside r) ↔
      InBounds fs disk blockBuf content logicalBlock := by
  by_cases hdepth : load content (extentArea + 6) 2 = 0
  · have hsame := root_same content inodeBuf
    rw [extent_map_leaf hx hdepth]
    have hinside := mapExtents_inside (root content inodeBuf) extentArea logicalBlock [] (-5)
      fun i => entryInside_inode (i := i)
    have hhits : (∃ i < 4, (extent (root content inodeBuf) extentArea i).hit logicalBlock = true) ↔
        ∃ i < 4, (extent content extentArea i).hit logicalBlock = true :=
      exists_congr fun i => and_congr_right fun hi => by rw [hsame.extent (by omega)]
    rw [hsame.entries (by omega), hhits] at hinside
    constructor
    · rintro ⟨o, ho, hall⟩
      cases ho
      exact ⟨fun _ => (hinside.mp hall).2, fun h => absurd hdepth h, fun h => absurd hdepth h⟩
    · intro hbounds
      exact ⟨_, rfl, hinside.mpr ⟨fun r hr => absurd hr List.not_mem_nil, hbounds.leaf hdepth⟩⟩
  · have hindex : (∃ o, ext4ExtentMap fs disk inode inodeBuf blockBuf ino logicalBlock = some o ∧
        ∀ r ∈ o.reads, EntryInside r) →
        entries content extentArea ≤ 4 ∨ ∃ i < 4, logicalBlock.toNat < key content extentArea i := by
      rintro ⟨o, ho, hall⟩
      rw [← aboveScan_inside content inodeBuf logicalBlock]
      intro r hr
      refine hall r ?_
      rw [extent_map_index hx hdepth] at ho
      cases hscan : (aboveScan content inodeBuf logicalBlock).1 with
      | some i =>
        rw [hscan] at ho
        dsimp only at ho
        split_ifs at ho with hzero
        · cases ho
          exact hr
        · exact mapChild_reads ho r hr
      | none =>
        rw [hscan] at ho
        dsimp only at ho
        split_ifs at ho with hpos
        · exact mapChild_reads ho r hr
        · cases ho
          exact hr
    constructor
    · intro h
      have hbound := hindex h
      refine ⟨fun hzero => absurd hzero hdepth, fun _ => hbound, fun _ c hleads => ?_⟩
      obtain ⟨reads, hreads, ⟨c', hc', hleads', missing, -, hmap⟩ | ⟨hnone, -⟩⟩ :=
        index_cases disk inodeBuf blockBuf hx hdepth hbound
      · rw [hmap, mapChild_inside hreads hc', hleads'.unique hleads] at h
        exact h
      · exact absurd hleads (hnone c)
    · intro hbounds
      obtain ⟨reads, hreads, ⟨c, hc, hleads, missing, -, hmap⟩ | ⟨hnone, ret, -, hmap⟩⟩ :=
        index_cases disk inodeBuf blockBuf hx hdepth (hbounds.index hdepth)
      · rw [hmap, mapChild_inside hreads hc]
        exact hbounds.child hdepth c hleads
      · exact ⟨_, hmap, hreads⟩

/-! ## The tree below the root -/

theorem WellFormed.isNode {blockSize depth cap : ℕ} (h : WellFormed blockSize disk depth node pos cap) :
    IsNode node pos depth cap := by
  cases depth with
  | zero => exact h.1
  | succ depth => exact h.1

section

variable {blockSize depth cap l : ℕ} {e : FileExtent}

/-- If some key is not above the block, then some entry leads to it. -/
theorem exists_leads (hsorted : ∀ i j, i < j → j < entries node pos → key node pos i < key node pos j)
    (i : ℕ) (hi : i < entries node pos) (hkey : key node pos i ≤ l) : ∃ c, LeadsTo node pos l c ∧ i ≤ c := by
  by_cases hnext : i + 1 < entries node pos ∧ key node pos (i + 1) ≤ l
  · obtain ⟨c, hleads, hle⟩ := exists_leads hsorted (i + 1) hnext.1 hnext.2
    exact ⟨c, hleads, by omega⟩
  · refine ⟨i, ⟨hi, fun j hj => ?_, fun hlt => Nat.not_le.mp fun hle => hnext ⟨hlt, hle⟩⟩, Nat.le_refl i⟩
    rcases Nat.eq_or_lt_of_le hj with heq | hlt
    · rwa [heq]
    · exact Nat.le_trans (Nat.le_of_lt (hsorted j i hlt hi)) hkey
  termination_by entries node pos - i

/-- An extent that covers the block is below the entry that leads to it. -/
theorem WellFormed.below (h : WellFormed blockSize disk (depth + 1) node pos cap)
    (he : e ∈ extentsOf blockSize disk (depth + 1) node pos) (hcov : e.Covers l) :
    ∃ c, LeadsTo node pos l c ∧ e ∈ extentsOf blockSize disk depth disk (childNumber node pos c * blockSize) := by
  obtain ⟨-, hsorted, hchildren⟩ := h
  obtain ⟨i, hi, hmem⟩ := List.mem_flatMap.mp he
  have hlt : i < entries node pos := List.mem_range.mp hi
  obtain ⟨hlow, hhigh⟩ := (hchildren i hlt).2 e hmem
  obtain ⟨c, hleads, hic⟩ := exists_leads hsorted i hlt (Nat.le_trans hlow hcov.1)
  rcases Nat.eq_or_lt_of_le hic with heq | hbefore
  · exact ⟨c, hleads, heq ▸ hmem⟩
  · have hend := hhigh c hbefore hleads.1
    have hkey := hleads.2.1 c (Nat.le_refl c)
    exact absurd hcov.2 (by omega)

theorem mem_below (hc : c < entries node pos)
    (he : e ∈ extentsOf blockSize disk depth disk (childNumber node pos c * blockSize)) :
    e ∈ extentsOf blockSize disk (depth + 1) node pos :=
  List.mem_flatMap.mpr ⟨c, List.mem_range.mpr hc, he⟩

end

/-- For the block, the tree says what the node says that the root leads to. -/
theorem correct_below {es es' : List FileExtent} {l : ℕ} {o : Outcome} (hsub : ∀ e ∈ es', e ∈ es)
    (hcov : ∀ e ∈ es, e.Covers l → e ∈ es') : (Correct es l o ↔ Correct es' l o) ∧ (EndsFit es l ↔ EndsFit es' l) := by
  refine ⟨⟨fun h => ⟨fun e he => h.covered e (hsub e he), fun hnone => ?_⟩,
    fun h => ⟨fun e he hc => h.covered e (hcov e he hc) hc, fun hnone => ?_⟩⟩,
    ⟨fun h e he => h e (hsub e he), fun h e he hc => h e (hcov e he hc) hc⟩⟩
  · exact h.missing fun e he hc => hnone e (hcov e he hc) hc
  · exact h.missing fun e he => hnone e (hsub e he)

/-- Without an extent that covers the block, an error is correct. -/
theorem correct_none {es : List FileExtent} {l : ℕ} {o : Outcome} (hnone : ∀ e ∈ es, ¬e.Covers l) (hret : o.ret ≠ 0) :
    Correct es l o ↔ EndsFit es l :=
  ⟨fun _ e he hc => absurd hc (hnone e he), fun _ => ⟨fun e he hc => absurd hc (hnone e he), fun _ => hret⟩⟩

/-- The buffer holds the block that the entry leads to. -/
theorem childBuf_same (disk blockBuf : Mem) {k : ℕ} (hsize : fs.base.blockSize.toNat = 1024 * 2 ^ k) (hsmall : fs.base.blockSize ≤ 4096)
    (hnum : childNumber content extentArea c < 2 ^ 32) :
    Same (childBuf fs disk blockBuf content c) 0 disk (childNumber content extentArea c * fs.base.blockSize.toNat)
      fs.base.blockSize.toNat := by
  have hle : fs.base.blockSize.toNat ≤ 4096 := UInt32.le_iff_toNat_le.mp hsmall
  have hsectors : fs.base.blockSize.toNat = 512 * (2 * 2 ^ k) := by omega
  have hblock : (extentIdx content extentArea c).childBlock.toUInt32.toNat = childNumber content extentArea c := by
    rw [UInt64.toNat_toUInt32, childBlock_toNat]
    exact Nat.mod_eq_of_lt hnum
  intro i hi
  rw [Nat.zero_add, ← hblock]
  exact Ext3.ext3ReadBlock_spec hsectors (by omega) _ (by omega)

/-- Where the code gets to the leaf, it is right unless the extent that covers the block ends too high. -/
theorem extent_map_correct {depth : ℕ} {o : Outcome} (hx : Extents fs inode ino content)
    (hbounds : InBounds fs disk blockBuf content logicalBlock) (htree : HasTree fs disk content depth)
    (hdirect : Direct content depth logicalBlock.toNat)
    (ho : ext4ExtentMap fs disk inode inodeBuf blockBuf ino logicalBlock = some o) :
    Correct (extentsOf fs.base.blockSize.toNat disk depth content extentArea) logicalBlock.toNat o ↔
      EndsFit (extentsOf fs.base.blockSize.toNat disk depth content extentArea) logicalBlock.toNat := by
  have hnode := htree.wellFormed.isNode
  cases depth with
  | zero =>
    have hsame := root_same content inodeBuf
    have hsorted : LeafSorted content extentArea := htree.wellFormed.2
    have hcap := hnode.cap
    rw [extent_map_leaf hx hnode.depth] at ho
    cases ho
    have hleaf := mapExtents_correct .inode [] logicalBlock
      (hsame.leafSorted (by omega) hsorted) (show (-5 : ℤ) ≠ 0 by decide)
    rwa [hsame.leafExtents (by omega)] at hleaf
  | succ depth =>
    have hdepth : load content (extentArea + 6) 2 ≠ 0 := by
      rw [hnode.depth]
      exact Nat.succ_ne_zero depth
    obtain ⟨reads, -, ⟨c, hc, hleads, missing, hmissing, hmap⟩ | ⟨hnone, ret, hret, hmap⟩⟩ :=
      index_cases disk inodeBuf blockBuf hx hdepth (hbounds.index hdepth)
    · rcases hdirect with hzero | hdirect
      · cases hzero
      obtain ⟨hone, hnum⟩ := hdirect c hleads
      obtain rfl : depth = 0 := Nat.succ_inj.mp hone
      obtain ⟨hwell, -⟩ := htree.wellFormed.2.2 c hleads.1
      obtain ⟨k, hsize⟩ := htree.blockSize
      have hsmall := (hbounds.child hdepth c hleads).1
      have hsame := childBuf_same disk blockBuf hsize hsmall hnum
      have hle := Nat.le_mul_of_pos_right 1024 (Nat.two_pow_pos k)
      have hcap := hwell.isNode.cap
      have hroom : 12 + 12 * entries disk (childNumber content extentArea c * fs.base.blockSize.toNat) ≤
          fs.base.blockSize.toNat := by omega
      have hmagic : (header (childBuf fs disk blockBuf content c) 0).ehMagic = ext4ExtMagic := by
        rw [hsame.header (by omega)]
        exact UInt16.toNat_inj.mp ((toNat_load2 _ _).trans hwell.isNode.magic)
      rw [hmap, mapChild_small hsmall hc, if_neg (not_not.mpr hmagic)] at ho
      cases ho
      have hsorted : LeafSorted disk (childNumber content extentArea c * fs.base.blockSize.toNat) := hwell.2
      have hleaf := mapExtents_correct .child (reads ++ [(.inode, c)]) logicalBlock
        (hsame.leafSorted hroom hsorted) hmissing
      rw [hsame.leafExtents hroom] at hleaf
      have hbelow := correct_below (o := mapExtents .child (childBuf fs disk blockBuf content c) 0 logicalBlock
        (reads ++ [(.inode, c)]) missing) (fun e he => mem_below hleads.1 he) fun e he hcov => by
          obtain ⟨c', hleads', hmem⟩ := htree.wellFormed.below he hcov
          rwa [hleads'.unique hleads] at hmem
      rw [hbelow.1, hbelow.2]
      exact hleaf
    · rw [hmap] at ho
      cases ho
      refine correct_none (fun e he hcov => ?_) hret
      obtain ⟨c, hleads, -⟩ := htree.wellFormed.below he hcov
      exact hnone c hleads

theorem HasTree.extents {depth : ℕ} (htree : HasTree fs disk content depth) (hino : ino ≠ 0)
    (hextents : fs.hasExtents = true) (hinode : inode = some content) : Extents fs inode ino content :=
  ⟨hino, hextents, hinode, UInt16.toNat_inj.mp ((toNat_load2 _ _).trans htree.wellFormed.isNode.magic)⟩

/-- A call that does not get to the extents reads none. -/
theorem extent_map_other (disk inodeBuf blockBuf : Mem) (logicalBlock : UInt64) (h : ∀ content, ¬Extents fs inode ino content) :
    ∃ o, ext4ExtentMap fs disk inode inodeBuf blockBuf ino logicalBlock = some o ∧ o.reads = [] := by
  unfold ext4ExtentMap
  by_cases hino : ino = 0
  · exact ⟨_, if_pos hino, rfl⟩
  rw [if_neg hino]
  by_cases hextents : fs.hasExtents = true
  · rw [if_neg (not_not.mpr hextents)]
    cases inode with
    | none => exact ⟨_, rfl, rfl⟩
    | some content =>
      have hmagic : (header (root content inodeBuf) extentArea).ehMagic ≠ ext4ExtMagic := by
        rw [(root_same content inodeBuf).header (by omega)]
        exact fun hmagic => h content ⟨hino, hextents, rfl, hmagic⟩
      rw [read_root]
      exact ⟨_, if_pos hmagic, rfl⟩
  · exact ⟨_, if_pos hextents, rfl⟩

/-- A call does what is claimed if its loops stop inside, the node that the root leads to is a leaf with a number of
32 bits, and the extent ends below 2^32. The first is necessary, and so is the last where the leaf is reached; where
it is not, an index node or another block is taken for it. -/
theorem extent_map_meets (fs : Ext4Fs) (disk : Mem) (inode : Option Mem) (inodeBuf blockBuf : Mem) (ino : UInt32)
    (logicalBlock : UInt64) :
    ((∀ content, Extents fs inode ino content → InBounds fs disk blockBuf content logicalBlock ∧
        ∀ depth, HasTree fs disk content depth → Direct content depth logicalBlock.toNat ∧
          EndsFit (extentsOf fs.base.blockSize.toNat disk depth content extentArea) logicalBlock.toNat) →
      Meets fs disk inode inodeBuf blockBuf ino logicalBlock) ∧
    (Meets fs disk inode inodeBuf blockBuf ino logicalBlock →
      ∀ content, Extents fs inode ino content → InBounds fs disk blockBuf content logicalBlock ∧
        ∀ depth, HasTree fs disk content depth → Direct content depth logicalBlock.toNat →
          EndsFit (extentsOf fs.base.blockSize.toNat disk depth content extentArea) logicalBlock.toNat) := by
  constructor
  · intro hholds
    by_cases hx : ∃ content, Extents fs inode ino content
    · obtain ⟨content, hx⟩ := hx
      obtain ⟨hbounds, htrees⟩ := hholds content hx
      obtain ⟨o, ho, hinside⟩ := (extent_map_inside hx).mpr hbounds
      refine ⟨o, ho, hinside, fun content' depth _ _ hinode htree => ?_⟩
      obtain rfl : content = content' := Option.some.inj (hx.inode.symm.trans hinode)
      obtain ⟨hdirect, hends⟩ := htrees depth htree
      exact (extent_map_correct hx hbounds htree hdirect ho).mpr hends
    · obtain ⟨o, ho, hreads⟩ := extent_map_other disk inodeBuf blockBuf logicalBlock
        (not_exists.mp hx)
      refine ⟨o, ho, fun r hr => ?_, fun content depth hino hextents hinode htree => ?_⟩
      · rw [hreads] at hr
        exact absurd hr List.not_mem_nil
      · exact absurd ⟨content, htree.extents hino hextents hinode⟩ hx
  · rintro ⟨o, ho, hinside, hcorrect⟩ content hx
    have hbounds := (extent_map_inside hx).mp ⟨o, ho, hinside⟩
    refine ⟨hbounds, fun depth htree hdirect => ?_⟩
    exact (extent_map_correct hx hbounds htree hdirect ho).mp (hcorrect content depth hx.ino hx.hasExtents hx.inode htree)

/-- A volume with blocks of 1024 bytes and extents. -/
def smallVolume : Ext4Fs := ⟨⟨fun _ => ⟨0, 0⟩, 1024, 8192, 1, 1⟩, true⟩

/-- A root with five entries of length zero. -/
def fiveEntries : Mem := fun k => if k = 0x28 then 0x0A else if k = 0x29 then 0xA3 else if k = 0x2A then 5 else 0

/-- A root that leads to block 1. -/
def deepRoot : Mem := fun k =>
  if k = 0x28 then 0x0A else if k = 0x29 then 0xA3 else if k = 0x2A then 1 else if k = 0x2E then 2
  else if k = 0x38 then 1 else 0

/-- An index node in block 1 that leads to block 2, with a leaf that maps block 0 to block 7. -/
def deepDisk : Mem := fun k =>
  if k = 1024 then 0x0A else if k = 1025 then 0xA3 else if k = 1026 then 1 else if k = 1030 then 1
  else if k = 1040 then 2
  else if k = 2048 then 0x0A else if k = 2049 then 0xA3 else if k = 2050 then 1
  else if k = 2064 then 1 else if k = 2068 then 7
  else 0

/-- A node with one entry. -/
theorem WellFormed.single {blockSize depth cap at' : ℕ} (hnode : IsNode node pos (depth + 1) cap)
    (hone : entries node pos = 1) (hat : childNumber node pos 0 * blockSize = at')
    (hchild : WellFormed blockSize disk depth disk at' ((blockSize - 12) / 12))
    (hkeys : ∀ e ∈ extentsOf blockSize disk depth disk at', key node pos 0 ≤ e.block) :
    WellFormed blockSize disk (depth + 1) node pos cap := by
  refine ⟨hnode, fun i j hij hj => by omega, fun i hi => ?_⟩
  obtain rfl : i = 0 := by omega
  rw [hat]
  exact ⟨hchild, fun e he => ⟨hkeys e he, fun j hj hj' => by omega⟩⟩

theorem deep_tree : HasTree smallVolume deepDisk deepRoot 2 := by
  have hleaf : WellFormed 1024 deepDisk 0 deepDisk 2048 84 := by
    refine ⟨⟨rfl, rfl, by decide⟩, fun i j hij hj => ?_⟩
    have hone : entries deepDisk 2048 = 1 := by decide
    omega
  have hindex : WellFormed 1024 deepDisk 1 deepDisk 1024 84 :=
    .single ⟨rfl, rfl, by decide⟩ (by decide) (by decide) hleaf fun e _ => Nat.zero_le e.block
  exact ⟨by decide, ⟨0, rfl⟩, .single ⟨rfl, rfl, by decide⟩ (by decide) (by decide) hindex fun e _ => Nat.zero_le e.block⟩

/-- An entry behind the inode's area is read, and an index node is taken for a leaf. -/
theorem extents_misread :
    ¬Meets smallVolume (fun _ => 0) (some fiveEntries) (fun _ => 0) (fun _ => 0) 12 0 ∧
      ¬Meets smallVolume deepDisk (some deepRoot) (fun _ => 0) (fun _ => 0) 12 0 := by
  constructor
  · rintro ⟨o, ho, hinside, -⟩
    have hx : Extents smallVolume (some fiveEntries) 12 fiveEntries := ⟨by decide, rfl, rfl, by decide⟩
    rcases ((extent_map_inside hx).mp ⟨o, ho, hinside⟩).leaf (by decide) with hcap | hhit
    · exact absurd hcap (by decide)
    · exact absurd hhit (by decide)
  · rintro ⟨o, ho, -, hcorrect⟩
    have hout : (ext4ExtentMap smallVolume deepDisk (some deepRoot) (fun _ => 0) (fun _ => 0) 12 0).map (·.out) =
        some (some (0, 2)) := by decide
    rw [ho] at hout
    have hmem : leafExtent deepDisk 2048 0 ∈ extentsOf 1024 deepDisk 2 deepRoot extentArea := by
      refine mem_below (c := 0) (by decide) (mem_below (c := 0) (by decide) ?_)
      exact List.mem_map.mpr ⟨0, by decide, rfl⟩
    obtain ⟨-, out, hsome, hphysical, -⟩ :=
      (hcorrect deepRoot 2 (by decide) rfl rfl deep_tree).covered _ hmem ⟨by decide, by decide⟩
    obtain rfl : out = (0, 2) := Option.some.inj (hsome.symm.trans (Option.some.inj hout))
    exact absurd hphysical (by decide)

end Ext4
