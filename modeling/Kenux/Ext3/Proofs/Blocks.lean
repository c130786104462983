import Kenux.Ext3.Model

/-!
# `ext3_get_block_from_inode`

The three levels of the code are the descents into the trees of height one, two and three. The numbers of entries
are powers of two of which the third fits into 32 bits.
-/

namespace Ext3

open Memory

variable {fs : Ext3Fs} {disk : Mem} {buf : Buffer} {inode : Inode}

theorem readDiskBlock_spec (disk : Mem) (lba : UInt64) (buf : Buffer) (n k : ℕ) (hlba : lba.toNat + n ≤ 2 ^ 64)
    (hk : k < 512 * n) : readDiskBlock disk lba buf n k = disk (512 * lba.toNat + k) := by
  induction n with
  | zero => omega
  | succ n ih =>
    show (if 512 * n ≤ k ∧ k < 512 * n + 512 then _ else readDiskBlock disk lba buf n k) = _
    by_cases hlast : 512 * n ≤ k
    · have hn : (UInt64.ofNat n).toNat = n := UInt64.toNat_ofNat_of_lt' (by show n < 2 ^ 64; omega)
      rw [if_pos ⟨hlast, by omega⟩]
      unfold readSector
      rw [UInt64.toNat_add, hn, Nat.mod_eq_of_lt (by omega)]
      congr 1
      omega
    · rw [if_neg fun h => hlast h.1]
      exact ih (by omega) (by omega)

/-- A block is read as its bytes on the disk. -/
theorem ext3ReadBlock_spec {size : ℕ} (hsize : fs.blockSize.toNat = 512 * size) (hsmall : size ≤ 8) (block : UInt32)
    {k : ℕ} (hk : k < 512 * size) :
    ext3ReadBlock fs disk block buf k = disk (block.toNat * fs.blockSize.toNat + k) := by
  have h512 : (512 : UInt32).toNat = 512 := rfl
  have hsectors : (fs.blockSize / 512).toNat = size := by
    rw [UInt32.toNat_div, hsize, h512]
    omega
  have hblock := block.toNat_lt
  have hmul : block.toNat * size ≤ block.toNat * 8 := Nat.mul_le_mul_left _ hsmall
  have hlba : (block.toUInt64 * (fs.blockSize / 512).toUInt64).toNat = block.toNat * size := by
    rw [UInt64.toNat_mul, UInt32.toNat_toUInt64, UInt32.toNat_toUInt64, hsectors, Nat.mod_eq_of_lt (by omega)]
  unfold ext3ReadBlock
  rw [hsectors, readDiskBlock_spec _ _ _ _ _ (by omega) hk, hlba, hsize]
  rw [Nat.mul_left_comm]

/-- Pointer by pointer. -/
theorem word_read (disk : Mem) (buf : Buffer) {size : ℕ} (hsize : fs.blockSize.toNat = 512 * size) (hsmall : size ≤ 8) (block i : UInt32)
    (hi : i.toNat < 128 * size) :
    (word (ext3ReadBlock fs disk block buf) i).toNat = diskEntry fs.blockSize.toNat disk block.toNat i.toNat := by
  have hload : load (ext3ReadBlock fs disk block buf) (4 * i.toNat) 4 =
      diskEntry fs.blockSize.toNat disk block.toNat i.toNat := by
    refine load_shift fun j hj => ?_
    rw [ext3ReadBlock_spec hsize hsmall block (by omega), Nat.add_assoc]
  unfold word
  rw [hload]
  exact UInt32.toNat_ofNat_of_lt' (load_lt ..)

/-! ## The three trees -/

variable {entry : ℕ → ℕ → ℕ} {e node pos : ℕ}

theorem descend_one : descend entry e 1 node pos = if node = 0 then 0 else entry node pos := by
  show (if node = 0 then 0 else entry node (pos / e ^ 0)) = _
  rw [Nat.pow_zero, Nat.div_one]

theorem descend_two : descend entry e 2 node pos =
    if node = 0 then 0 else if entry node (pos / e) = 0 then 0 else entry (entry node (pos / e)) (pos % e) := by
  show (if node = 0 then 0 else descend entry e 1 (entry node (pos / e ^ 1)) (pos % e ^ 1)) = _
  rw [descend_one, Nat.pow_one]

theorem descend_three : descend entry e 3 node pos =
    if node = 0 then 0
    else if entry node (pos / (e * e)) = 0 then 0
    else if entry (entry node (pos / (e * e))) (pos % (e * e) / e) = 0 then 0
    else entry (entry (entry node (pos / (e * e))) (pos % (e * e) / e)) (pos % (e * e) % e) := by
  show (if node = 0 then 0 else descend entry e 2 (entry node (pos / e ^ 2)) (pos % e ^ 2)) = _
  rw [descend_two, Nat.pow_two]

theorem lookup_eq (root : ℕ → ℕ) : lookup entry e root 3 1 pos =
    if pos < e then descend entry e 1 (root 1) pos
    else if pos - e < e * e then descend entry e 2 (root 2) (pos - e)
    else if pos - e - e * e < e * (e * e) then descend entry e 3 (root 3) (pos - e - e * e)
    else 0 := by
  have hcube : e ^ 3 = e * (e * e) := by rw [Nat.pow_succ, Nat.pow_two, Nat.mul_comm]
  show (if pos < e ^ 1 then _ else if pos - e ^ 1 < e ^ 2 then _ else if pos - e ^ 1 - e ^ 2 < e ^ 3 then _ else 0) = _
  rw [Nat.pow_one, Nat.pow_two, hcube]

theorem eq_zero_iff {x : UInt32} : x = 0 ↔ x.toNat = 0 := UInt32.toNat_inj.symm

/-! ## The code -/

section

variable {size : ℕ} (hsize : fs.blockSize.toNat = 512 * size) (hsmall : size ≤ 8)

include hsize hsmall

/-- The numbers of blocks below a pointer of each height; none of them wraps around. -/
theorem counts : (fs.blockSize / 4).toNat = 128 * size ∧
    (fs.blockSize / 4 * (fs.blockSize / 4)).toNat = 128 * size * (128 * size) ∧
    (fs.blockSize / 4 * (fs.blockSize / 4 * (fs.blockSize / 4))).toNat = 128 * size * (128 * size * (128 * size)) := by
  have h4 : (4 : UInt32).toNat = 4 := rfl
  have he : (fs.blockSize / 4).toNat = 128 * size := by
    rw [UInt32.toNat_div, hsize, h4]
    omega
  have hsq : 128 * size * (128 * size) ≤ 1024 * 1024 := Nat.mul_le_mul (by omega) (by omega)
  have hcube : 128 * size * (128 * size * (128 * size)) ≤ 1024 * (1024 * 1024) := Nat.mul_le_mul (by omega) hsq
  have hd : (fs.blockSize / 4 * (fs.blockSize / 4)).toNat = 128 * size * (128 * size) := by
    rw [UInt32.toNat_mul, he, Nat.mod_eq_of_lt (by omega)]
  refine ⟨he, hd, ?_⟩
  rw [UInt32.toNat_mul, hd, he, Nat.mod_eq_of_lt (by omega)]

theorem get_indirect (disk : Mem) (buf : Buffer) (ptr i : UInt32) (hi : i.toNat < 128 * size) :
    (if ptr = 0 then 0 else word (ext3ReadBlock fs disk ptr buf) i).toNat =
      descend (diskEntry fs.blockSize.toNat disk) (128 * size) 1 ptr.toNat i.toNat := by
  rw [descend_one]
  by_cases hhole : ptr = 0
  · rw [if_pos hhole, if_pos (eq_zero_iff.mp hhole)]
    rfl
  · rw [if_neg hhole, if_neg (mt eq_zero_iff.mpr hhole), word_read disk buf hsize hsmall ptr i hi]

theorem get_double (disk : Mem) (buf : Buffer) (ptr i : UInt32) (hi : i.toNat < 128 * size * (128 * size)) :
    (if ptr = 0 then 0
      else if word (ext3ReadBlock fs disk ptr buf) (i / (fs.blockSize / 4)) = 0 then 0
      else word (ext3ReadBlock fs disk (word (ext3ReadBlock fs disk ptr buf) (i / (fs.blockSize / 4)))
        (ext3ReadBlock fs disk ptr buf)) (i % (fs.blockSize / 4))).toNat =
      descend (diskEntry fs.blockSize.toNat disk) (128 * size) 2 ptr.toNat i.toNat := by
  obtain ⟨he, -, -⟩ := counts hsize hsmall
  have hpos : 0 < 128 * size := by
    by_contra hnot
    rw [Nat.eq_zero_of_not_pos hnot] at hi
    omega
  have hdiv : (i / (fs.blockSize / 4)).toNat = i.toNat / (128 * size) := by rw [UInt32.toNat_div, he]
  have hmod : (i % (fs.blockSize / 4)).toNat = i.toNat % (128 * size) := by rw [UInt32.toNat_mod, he]
  have hread := word_read disk buf hsize hsmall ptr (i / (fs.blockSize / 4))
    (by rw [hdiv]; exact Nat.div_lt_of_lt_mul hi)
  rw [hdiv] at hread
  rw [descend_two]
  by_cases hhole : ptr = 0
  · rw [if_pos hhole, if_pos (eq_zero_iff.mp hhole)]
    rfl
  rw [if_neg hhole, if_neg (mt eq_zero_iff.mpr hhole)]
  have hlast := get_indirect hsize hsmall disk (ext3ReadBlock fs disk ptr buf)
    (word (ext3ReadBlock fs disk ptr buf) (i / (fs.blockSize / 4))) (i % (fs.blockSize / 4))
    (by rw [hmod]; exact Nat.mod_lt _ hpos)
  rw [hlast, descend_one, hread, hmod]

theorem get_triple (disk : Mem) (buf : Buffer) (ptr i : UInt32)
    (hi : i.toNat < 128 * size * (128 * size * (128 * size))) :
    (if ptr = 0 then 0
      else
        let d := fs.blockSize / 4 * (fs.blockSize / 4)
        let buf := ext3ReadBlock fs disk ptr buf
        let dind := word buf (i / d)
        if dind = 0 then 0
        else
          let buf := ext3ReadBlock fs disk dind buf
          let ind := word buf ((i % d) / (fs.blockSize / 4))
          if ind = 0 then 0
          else
            let buf := ext3ReadBlock fs disk ind buf
            word buf ((i % d) % (fs.blockSize / 4))).toNat =
      descend (diskEntry fs.blockSize.toNat disk) (128 * size) 3 ptr.toNat i.toNat := by
  obtain ⟨he, hd, -⟩ := counts hsize hsmall
  have hpos : 0 < 128 * size * (128 * size) := by
    by_contra hnot
    rw [Nat.eq_zero_of_not_pos hnot, Nat.mul_zero] at hi
    omega
  have hdiv : (i / (fs.blockSize / 4 * (fs.blockSize / 4))).toNat = i.toNat / (128 * size * (128 * size)) := by
    rw [UInt32.toNat_div, hd]
  have hmod : (i % (fs.blockSize / 4 * (fs.blockSize / 4))).toNat = i.toNat % (128 * size * (128 * size)) := by
    rw [UInt32.toNat_mod, hd]
  have hread := word_read disk buf hsize hsmall ptr (i / (fs.blockSize / 4 * (fs.blockSize / 4)))
    (by rw [hdiv]; exact Nat.div_lt_of_lt_mul (by rwa [Nat.mul_comm] at hi))
  rw [hdiv] at hread
  by_cases hhole : ptr = 0
  · rw [if_pos hhole, descend_three, if_pos (eq_zero_iff.mp hhole)]
    rfl
  -- what is below the first pointer is a tree of height two
  have htree : descend (diskEntry fs.blockSize.toNat disk) (128 * size) 3 ptr.toNat i.toNat =
      descend (diskEntry fs.blockSize.toNat disk) (128 * size) 2
        (diskEntry fs.blockSize.toNat disk ptr.toNat (i.toNat / (128 * size * (128 * size))))
        (i.toNat % (128 * size * (128 * size))) := by
    show (if ptr.toNat = 0 then 0 else descend _ _ 2 (diskEntry _ _ _ (i.toNat / (128 * size) ^ 2))
      (i.toNat % (128 * size) ^ 2)) = _
    rw [if_neg (mt eq_zero_iff.mpr hhole), Nat.pow_two]
  rw [if_neg hhole, htree, ← hread, ← hmod]
  exact get_double hsize hsmall disk (ext3ReadBlock fs disk ptr buf) _ _ (by rw [hmod]; exact Nat.mod_lt _ hpos)

/-- The first three levels are found by comparison with the numbers of blocks below. -/
theorem get_block_spec (disk : Mem) (alloc : Bool) (buf : Buffer) (inode : Inode) (logicalBlock : UInt32) :
    (ext3GetBlockFromInode fs disk alloc buf inode logicalBlock).toNat =
      if logicalBlock.toNat < 12 ∨ alloc = true then
        classicBlock fs.blockSize.toNat disk inode logicalBlock.toNat
      else 0 := by
  obtain ⟨he, hd, ht⟩ := counts hsize hsmall
  have h12 : (12 : UInt32).toNat = 12 := rfl
  unfold ext3GetBlockFromInode classicBlock
  by_cases hdirect : logicalBlock.toNat < 12
  · rw [dif_pos hdirect, if_pos (.inl hdirect), dif_pos hdirect]
  rw [dif_neg hdirect, dif_neg hdirect]
  dsimp only
  cases alloc with
  | false =>
    have hneither : ¬(logicalBlock.toNat < 12 ∨ false = true) := by simp [hdirect]
    rw [if_neg hneither]
    split_ifs <;> first | rfl | contradiction
  | true =>
    have hle : (12 : UInt32) ≤ logicalBlock := UInt32.le_iff_toNat_le.mpr (by omega)
    have hrel : (logicalBlock - 12).toNat = logicalBlock.toNat - 12 := by
      rw [UInt32.toNat_sub_of_le _ _ hle, h12]
    have hdivSize : fs.blockSize.toNat / 4 = 128 * size := by omega
    have hor : logicalBlock.toNat < 12 ∨ true = true := .inr rfl
    rw [if_pos hor, lookup_eq, hdivSize, ← hrel]
    simp only [not_true, if_false]
    generalize logicalBlock - 12 = rel
    by_cases hone : rel < fs.blockSize / 4
    · have hnat : rel.toNat < 128 * size := he ▸ UInt32.lt_iff_toNat_lt.mp hone
      rw [if_pos hone, if_pos hnat]
      exact get_indirect hsize hsmall disk buf _ rel hnat
    have hge : 128 * size ≤ rel.toNat := he ▸ UInt32.le_iff_toNat_le.mp (UInt32.not_lt.mp hone)
    rw [if_neg hone, if_neg (Nat.not_lt.mpr hge)]
    have hrel2 : (rel - fs.blockSize / 4).toNat = rel.toNat - 128 * size := by
      rw [UInt32.toNat_sub_of_le _ _ (UInt32.not_lt.mp hone), he]
    rw [← hrel2]
    generalize rel - fs.blockSize / 4 = rel2
    by_cases htwo : rel2 < fs.blockSize / 4 * (fs.blockSize / 4)
    · have hnat : rel2.toNat < 128 * size * (128 * size) := hd ▸ UInt32.lt_iff_toNat_lt.mp htwo
      rw [if_pos htwo, if_pos hnat]
      exact get_double hsize hsmall disk buf _ rel2 hnat
    have hge2 : 128 * size * (128 * size) ≤ rel2.toNat := hd ▸ UInt32.le_iff_toNat_le.mp (UInt32.not_lt.mp htwo)
    rw [if_neg htwo, if_neg (Nat.not_lt.mpr hge2)]
    have hrel3 : (rel2 - fs.blockSize / 4 * (fs.blockSize / 4)).toNat = rel2.toNat - 128 * size * (128 * size) := by
      rw [UInt32.toNat_sub_of_le _ _ (UInt32.not_lt.mp htwo), hd]
    rw [← hrel3]
    generalize rel2 - fs.blockSize / 4 * (fs.blockSize / 4) = rel3
    by_cases hthree : rel3 < fs.blockSize / 4 * (fs.blockSize / 4 * (fs.blockSize / 4))
    · have hnat : rel3.toNat < 128 * size * (128 * size * (128 * size)) := ht ▸ UInt32.lt_iff_toNat_lt.mp hthree
      rw [if_pos hthree, if_pos hnat]
      exact get_triple hsize hsmall disk buf _ rel3 hnat
    · have hge3 : 128 * size * (128 * size * (128 * size)) ≤ rel3.toNat :=
        ht ▸ UInt32.le_iff_toNat_le.mp (UInt32.not_lt.mp hthree)
      rw [if_neg hthree, if_neg (Nat.not_lt.mpr hge3)]
      rfl

end

/-- For the three block sizes, a logical block gets the block that belongs to it; without a buffer only the first
twelve are found. -/
theorem get_block_from_inode (fs : Ext3Fs) (disk : Mem) (alloc : Bool) (buf : Buffer) (inode : Inode)
    (logicalBlock : UInt32) (hsize : fs.blockSize = 1024 ∨ fs.blockSize = 2048 ∨ fs.blockSize = 4096) :
    (ext3GetBlockFromInode fs disk alloc buf inode logicalBlock).toNat =
      if logicalBlock.toNat < 12 ∨ alloc = true then
        classicBlock fs.blockSize.toNat disk inode logicalBlock.toNat
      else 0 := by
  rcases hsize with hsize | hsize | hsize
  · have hnat : fs.blockSize.toNat = 512 * 2 := congrArg UInt32.toNat hsize
    exact get_block_spec hnat (by decide) disk alloc buf inode logicalBlock
  · have hnat : fs.blockSize.toNat = 512 * 4 := congrArg UInt32.toNat hsize
    exact get_block_spec hnat (by decide) disk alloc buf inode logicalBlock
  · have hnat : fs.blockSize.toNat = 512 * 8 := congrArg UInt32.toNat hsize
    exact get_block_spec hnat (by decide) disk alloc buf inode logicalBlock

/-- A volume with blocks of 1024 bytes. -/
def smallBlocks : Ext3Fs := ⟨fun _ => ⟨0, 0⟩, 1024, 8192, 1, 1⟩

theorem get_block_from_inode_single : (ext3GetBlockFromInode smallBlocks (fun _ => 1) true (fun _ => 0) ⟨fun _ => 7⟩ 100).toNat =
    classicBlock 1024 (fun _ => 1) ⟨fun _ => 7⟩ 100 :=
  get_block_from_inode smallBlocks (fun _ => 1) true (fun _ => 0) ⟨fun _ => 7⟩ 100 (.inl rfl)

end Ext3
