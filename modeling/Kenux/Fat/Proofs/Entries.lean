import Kenux.Fat.Model
import Kenux.Lib.Word

/-!
# Entries of the table

An entry is read as its field of bits, and a write changes the bits of this field and no others, for all three
types. Fields of different clusters do not meet.
-/

namespace Fat

open Memory

variable {fs : FatFs} {c d v : UInt32}

theorem FatType.width_le (t : FatType) : t.width ≤ t.stride := by
  cases t <;> decide

/-! ## The range of the clusters -/

theorem Roomy.small (h : Roomy fs) : fs.totalClusters.toNat + 2 < 2 ^ 32 := by
  obtain ⟨hblock, hroom⟩ := h
  have hstride : 12 ≤ fs.type.stride := by cases fs.type <;> decide
  have hmul := Nat.mul_le_mul_left (fs.totalClusters.toNat + 2) hstride
  omega

theorem Roomy.end_eq (h : Roomy fs) : (fs.totalClusters + 2).toNat = fs.totalClusters.toNat + 2 := by
  have htwo : (2 : UInt32).toNat = 2 := rfl
  rw [UInt32.toNat_add, htwo, Nat.mod_eq_of_lt h.small]

theorem Roomy.rejects (h : Roomy fs) : c < 2 ∨ c ≥ fs.totalClusters + 2 ↔ ¬IsCluster fs c := by
  have htwo : (2 : UInt32).toNat = 2 := rfl
  unfold IsCluster
  rw [UInt32.lt_iff_toNat_lt, ge_iff_le, UInt32.le_iff_toNat_le, h.end_eq, htwo]
  omega

/-- The number of the first bit of an entry of 12 bits, by bytes. -/
theorem offset12 (h : c.toNat < 2863311531) : (c + c / 2).toNat = c.toNat + c.toNat / 2 := by
  have htwo : (2 : UInt32).toNat = 2 := rfl
  rw [UInt32.toNat_add, UInt32.toNat_div, htwo, Nat.mod_eq_of_lt (by omega)]

theorem Roomy.offset12 (h : Roomy fs) (htype : fs.type = .fat12) (hc : IsCluster fs c) :
    (c + c / 2).toNat = c.toNat + c.toNat / 2 := by
  obtain ⟨hblock, hroom⟩ := h
  rw [htype] at hroom
  have hroom : (fs.totalClusters.toNat + 2) * 12 ≤ 8 * (4 * fs.fatCacheSize.toNat) := hroom
  exact Fat.offset12 (by have := hc.2; omega)

theorem and_one_ne_zero : c &&& 1 ≠ 0 ↔ c.toNat % 2 = 1 := by
  have hone : (1 : UInt32).toNat = 1 := rfl
  have hzero : (0 : UInt32).toNat = 0 := rfl
  rw [Ne, ← UInt32.toNat_inj, UInt32.toNat_and, hone, hzero, Nat.and_one_is_mod]
  omega

/-! ## An entry is a field of bits -/

/-- The field of a cluster. -/
def entry (fs : FatFs) (c : ℕ) : ℕ := field fs.fatCache (fs.type.stride * c) fs.type.width

theorem entry_lt (fs : FatFs) (c : ℕ) : entry fs c < 2 ^ fs.type.width := Nat.mod_lt _ (Nat.two_pow_pos _)

theorem testBit_entry {c j : ℕ} : (entry fs c).testBit j =
    (decide (j < fs.type.width) && bit fs.fatCache (fs.type.stride * c + j)) := testBit_field

theorem toNat_ofNat_bits {w x : ℕ} (hw : w ≤ 32) (hx : x < 2 ^ w) : (UInt32.ofNat x).toNat = x :=
  UInt32.toNat_ofNat_of_lt' (Nat.lt_of_lt_of_le hx (Nat.pow_le_pow_right (by omega) hw))

theorem get_cluster (h : Roomy fs) (hc : IsCluster fs c) :
    (fatGetNextCluster fs c).toNat = entry fs c.toNat := by
  have hin : ¬(c < 2 ∨ c ≥ fs.totalClusters + 2) := fun hout => h.rejects.mp hout hc
  unfold fatGetNextCluster
  rw [if_neg hin]
  cases htype : fs.type with
  | fat12 =>
    dsimp only
    rw [h.offset12 htype hc]
    -- the bits of the number that is read are those of the field
    have hbits : (if c &&& 1 ≠ 0 then load fs.fatCache (c.toNat + c.toNat / 2) 2 >>> 4
        else load fs.fatCache (c.toNat + c.toNat / 2) 2 &&& 0x0FFF) = entry fs c.toNat := by
      have hmask : (0x0FFF : ℕ) = 2 ^ 12 - 1 := rfl
      refine Nat.eq_of_testBit_eq fun j => ?_
      rw [testBit_entry, htype]
      show _ = (decide (j < 12) && bit fs.fatCache (12 * c.toNat + j))
      split_ifs with hodd
      · have hodd := and_one_ne_zero.mp hodd
        have hpos : 8 * (c.toNat + c.toNat / 2) + (4 + j) = 12 * c.toNat + j := by omega
        rw [Nat.testBit_shiftRight, testBit_load, hpos]
        congr 1
        exact decide_eq_decide.mpr (by omega)
      · have heven := mt and_one_ne_zero.mpr hodd
        have hpos : 8 * (c.toNat + c.toNat / 2) + j = 12 * c.toNat + j := by omega
        rw [hmask, Nat.and_two_pow_sub_one_eq_mod, Nat.testBit_mod_two_pow, testBit_load, hpos]
        by_cases hj : j < 12
        · rw [decide_eq_true hj, decide_eq_true (p := j < 8 * 2) (by omega), Bool.true_and]
        · rw [decide_eq_false hj, Bool.false_and, Bool.false_and]
    have hlt := entry_lt fs c.toNat
    rw [htype] at hlt
    rw [hbits, toNat_ofNat_bits (by decide) hlt]
  | fat16 =>
    dsimp only
    have hbits : load fs.fatCache (2 * c.toNat) 2 = entry fs c.toNat := by
      refine Nat.eq_of_testBit_eq fun j => ?_
      have hpos : 8 * (2 * c.toNat) + j = 16 * c.toNat + j := by omega
      rw [testBit_entry, htype, testBit_load, hpos]
      rfl
    have hlt := entry_lt fs c.toNat
    rw [htype] at hlt
    rw [hbits, toNat_ofNat_bits (by decide) hlt]
  | fat32 =>
    dsimp only
    have hbits : load fs.fatCache (4 * c.toNat) 4 &&& 0x0FFFFFFF = entry fs c.toNat := by
      have hmask : (0x0FFFFFFF : ℕ) = 2 ^ 28 - 1 := rfl
      refine Nat.eq_of_testBit_eq fun j => ?_
      have hpos : 8 * (4 * c.toNat) + j = 32 * c.toNat + j := by omega
      rw [testBit_entry, htype, hmask, Nat.and_two_pow_sub_one_eq_mod, Nat.testBit_mod_two_pow, testBit_load, hpos]
      show _ = (decide (j < 28) && bit fs.fatCache (32 * c.toNat + j))
      by_cases hj : j < 28
      · rw [decide_eq_true (p := j < 8 * 4) (by omega), Bool.true_and]
      · rw [decide_eq_false hj, Bool.false_and, Bool.false_and]
    have hlt := entry_lt fs c.toNat
    rw [htype] at hlt
    rw [hbits, toNat_ofNat_bits (by decide) hlt]

/-! ## A write changes the bits of its field -/

/-- The volume after a write: the table has changed in one field, and nothing else has. -/
structure Written (fs fs' : FatFs) (c v : UInt32) : Prop where
  type : fs'.type = fs.type
  totalClusters : fs'.totalClusters = fs.totalClusters
  fatCacheSize : fs'.fatCacheSize = fs.fatCacheSize
  bits : ∀ i, bit fs'.fatCache i =
    if fs.type.stride * c.toNat ≤ i ∧ i < fs.type.stride * c.toNat + fs.type.width then
      v.toNat.testBit (i - fs.type.stride * c.toNat)
    else bit fs.fatCache i

theorem set_written (h : Roomy fs) (hc : IsCluster fs c) :
    (fatSetNextCluster fs c v).1 = 0 ∧ Written fs (fatSetNextCluster fs c v).2 c v := by
  have hin : ¬(c < 2 ∨ c ≥ fs.totalClusters + 2) := fun hout => h.rejects.mp hout hc
  unfold fatSetNextCluster
  rw [if_neg hin]
  cases htype : fs.type with
  | fat12 =>
    refine ⟨rfl, htype.symm, rfl, rfl, fun i => ?_⟩
    rw [htype]
    show bit (store fs.fatCache (c + c / 2).toNat (if c &&& 1 ≠ 0 then _ else _) 2) i =
      if 12 * c.toNat ≤ i ∧ i < 12 * c.toNat + 12 then v.toNat.testBit (i - 12 * c.toNat) else _
    rw [h.offset12 htype hc]
    by_cases hodd : c &&& 1 ≠ 0
    · have hpar := and_one_ne_zero.mp hodd
      have hpos : 8 * (c.toNat + c.toNat / 2) + 4 = 12 * c.toNat := by omega
      rw [if_pos hodd, ← hpos]
      exact bit_store_replaced (by decide) (replaces_high 4 12)
    · have hpar := mt and_one_ne_zero.mpr hodd
      have hpos : 8 * (c.toNat + c.toNat / 2) + 0 = 12 * c.toNat := by omega
      rw [if_neg hodd, ← hpos]
      exact bit_store_replaced (by decide) (replaces_low 12 16)
  | fat16 =>
    refine ⟨rfl, htype.symm, rfl, rfl, fun i => ?_⟩
    rw [htype]
    have hpos : 8 * (2 * c.toNat) + 0 = 16 * c.toNat := by omega
    show bit (store fs.fatCache (2 * c.toNat) v.toNat 2) i =
      if 16 * c.toNat ≤ i ∧ i < 16 * c.toNat + 16 then v.toNat.testBit (i - 16 * c.toNat) else _
    rw [← hpos]
    exact bit_store_replaced (by decide) (replaces_all 16)
  | fat32 =>
    refine ⟨rfl, htype.symm, rfl, rfl, fun i => ?_⟩
    rw [htype]
    have hpos : 8 * (4 * c.toNat) + 0 = 32 * c.toNat := by omega
    show bit (store fs.fatCache (4 * c.toNat) _ 4) i =
      if 32 * c.toNat ≤ i ∧ i < 32 * c.toNat + 28 then v.toNat.testBit (i - 32 * c.toNat) else _
    rw [← hpos]
    exact bit_store_replaced (by decide) (replaces_low 28 32)

section

variable {fs' : FatFs} (h : Written fs fs' c v)

include h

theorem Written.entry_self : entry fs' c.toNat = v.toNat % 2 ^ fs.type.width := by
  unfold entry
  rw [h.type]
  refine field_eq_mod fun j hj => ?_
  rw [h.bits, if_pos ⟨Nat.le_add_right .., Nat.add_lt_add_left hj _⟩, Nat.add_sub_cancel_left]

/-- The fields of two clusters have no bit in common. -/
theorem Written.entry_other (hd : d ≠ c) : entry fs' d.toNat = entry fs d.toNat := by
  unfold entry
  rw [h.type]
  refine field_congr fun j hj => ?_
  have hne : d.toNat ≠ c.toNat := fun heq => hd (UInt32.toNat_inj.mp heq)
  have hw := fs.type.width_le
  rw [h.bits, if_neg]
  rintro ⟨hle, hlt⟩
  rcases Nat.lt_or_gt_of_ne hne with hbefore | hafter
  · have hmul := Nat.mul_le_mul_left fs.type.stride (Nat.succ_le_of_lt hbefore)
    rw [Nat.mul_succ] at hmul
    omega
  · have hmul := Nat.mul_le_mul_left fs.type.stride (Nat.succ_le_of_lt hafter)
    rw [Nat.mul_succ] at hmul
    omega

theorem Written.topBits (htype : fs.type = .fat32) : topBits fs' c = topBits fs c := by
  unfold Fat.topBits
  refine Nat.eq_of_testBit_eq fun j => ?_
  have hpos : 8 * (4 * c.toNat) + (j + 28) = 32 * c.toNat + 28 + j := by omega
  have hbits := h.bits (32 * c.toNat + 28 + j)
  rw [htype] at hbits
  have hout : ¬(32 * c.toNat ≤ 32 * c.toNat + 28 + j ∧ 32 * c.toNat + 28 + j < 32 * c.toNat + 28) := by omega
  rw [Nat.testBit_div_two_pow, Nat.testBit_div_two_pow, testBit_load, testBit_load, hpos, hbits]
  exact congrArg _ (if_neg hout)

theorem Written.isCluster : IsCluster fs' d ↔ IsCluster fs d := by
  unfold IsCluster
  rw [h.totalClusters]

theorem Written.roomy (hroom : Roomy fs) : Roomy fs' := by
  constructor
  · rw [h.fatCacheSize]
    exact hroom.block
  · rw [h.totalClusters, h.type, h.fatCacheSize]
    exact hroom.room

theorem Written.get_self (hroom : Roomy fs) (hc : IsCluster fs c) :
    (fatGetNextCluster fs' c).toNat = v.toNat % 2 ^ fs.type.width := by
  rw [get_cluster (h.roomy hroom) (h.isCluster.mpr hc), h.entry_self]

theorem Written.get_other (hroom : Roomy fs) (hd : IsCluster fs d) (hne : d ≠ c) :
    fatGetNextCluster fs' d = fatGetNextCluster fs d := by
  apply UInt32.toNat_inj.mp
  rw [get_cluster (h.roomy hroom) (h.isCluster.mpr hd), h.entry_other hne, get_cluster hroom hd]

end

theorem set_ok (hroom : Roomy fs) (hc : IsCluster fs c) (v : UInt32) : SetOk fs c v := by
  obtain ⟨hres, hwritten⟩ := set_written (v := v) hroom hc
  exact ⟨hres, hwritten.get_self hroom hc, fun d hd hne => hwritten.get_other hroom hd hne, hwritten.topBits⟩

/-! ## Allocation -/

/-- The search finds the first free cluster from `i` on. -/
theorem allocLoop_spec (fs : FatFs) (n : ℕ) (i : UInt32) (hend : i.toNat + n < 2 ^ 32) :
    (∃ k < n, fatGetNextCluster fs (i + UInt32.ofNat k) = 0 ∧
        allocLoop fs n i = (i + UInt32.ofNat k, (fatSetNextCluster fs (i + UInt32.ofNat k) fs.type.eoc).2)) ∨
      (∀ k < n, fatGetNextCluster fs (i + UInt32.ofNat k) ≠ 0) ∧ allocLoop fs n i = (0, fs) := by
  induction n generalizing i with
  | zero => exact .inr ⟨fun k hk => absurd hk (Nat.not_lt_zero k), rfl⟩
  | succ n ih =>
    have hzero : i + UInt32.ofNat 0 = i := UInt32.add_zero i
    have hone : (1 : UInt32).toNat = 1 := rfl
    have hstep : ∀ k, i + 1 + UInt32.ofNat k = i + UInt32.ofNat (k + 1) := by
      intro k
      rw [UInt32.ofNat_add, UInt32.add_assoc, UInt32.add_comm 1]
      rfl
    unfold allocLoop
    by_cases hfree : fatGetNextCluster fs i = 0
    · rw [if_pos hfree]
      refine .inl ⟨0, Nat.succ_pos n, ?_⟩
      rw [hzero]
      exact ⟨hfree, rfl⟩
    · rw [if_neg hfree]
      have hnext : (i + 1).toNat + n < 2 ^ 32 := by
        rw [UInt32.toNat_add, hone]
        omega
      rcases ih (i + 1) hnext with ⟨k, hk, hget, heq⟩ | ⟨hall, heq⟩
      · rw [hstep] at hget heq
        exact .inl ⟨k + 1, Nat.succ_lt_succ hk, hget, heq⟩
      · refine .inr ⟨fun k hk => ?_, heq⟩
        cases k with
        | zero => rwa [hzero]
        | succ k =>
          rw [← hstep]
          exact hall k (Nat.lt_of_succ_lt_succ hk)

theorem eoc_cut (t : FatType) : t.eoc.toNat % 2 ^ t.width = t.eoc.toNat := by
  cases t <;> rfl

theorem alloc_ok (hroom : Roomy fs) : AllocOk fs := by
  have hsmall := hroom.small
  have htwo : (2 : UInt32).toNat = 2 := rfl
  have hcount : (fs.totalClusters + 2).toNat - 2 = fs.totalClusters.toNat := by
    rw [hroom.end_eq]
    omega
  have hval : ∀ k < fs.totalClusters.toNat, (2 + UInt32.ofNat k).toNat = 2 + k := by
    intro k hk
    have hk32 : (UInt32.ofNat k).toNat = k := UInt32.toNat_ofNat_of_lt' (by show k < 2 ^ 32; omega)
    rw [UInt32.toNat_add, htwo, hk32, Nat.mod_eq_of_lt (by omega)]
  have hin : ∀ k < fs.totalClusters.toNat, IsCluster fs (2 + UInt32.ofNat k) := by
    intro k hk
    unfold IsCluster
    rw [hval k hk]
    omega
  unfold AllocOk fatAllocCluster
  rw [hcount]
  rcases allocLoop_spec fs fs.totalClusters.toNat 2 (by rw [htwo]; omega) with
    ⟨k, hk, hget, heq⟩ | ⟨hall, heq⟩
  · rw [heq]
    have hc := hin k hk
    have hne : 2 + UInt32.ofNat k ≠ 0 := by
      intro hzero
      have hnat := congrArg UInt32.toNat hzero
      rw [hval k hk] at hnat
      exact absurd hnat (by have h0 : (0 : UInt32).toNat = 0 := rfl; omega)
    obtain ⟨-, hself, hother, -⟩ := set_ok hroom hc fs.type.eoc
    refine ⟨iff_of_false hne fun hfull => hfull _ hc hget, fun hzero => absurd hzero hne, fun _ => ⟨hc, hget, ?_, hother⟩⟩
    apply UInt32.toNat_inj.mp
    rw [hself, eoc_cut]
  · rw [heq]
    refine ⟨iff_of_true rfl fun d hd => ?_, fun _ => rfl, fun hne => absurd rfl hne⟩
    have hk : d.toNat - 2 < fs.totalClusters.toNat := by
      have hlow := hd.1
      have hhigh := hd.2
      omega
    have hd2 : d = 2 + UInt32.ofNat (d.toNat - 2) := by
      apply UInt32.toNat_inj.mp
      have hlow := hd.1
      rw [hval _ hk]
      omega
    rw [hd2]
    exact hall _ hk

/-- Entries of the table hold what is put into them and are apart from each other, and allocation finds a free
cluster and marks only that. -/
theorem fat_entries (fs : FatFs) (hroom : Roomy fs) :
    (∀ c v, IsCluster fs c → SetOk fs c v) ∧ AllocOk fs :=
  ⟨fun _ v hc => set_ok hroom hc v, alloc_ok hroom⟩

/-- A FAT12 volume with 300 clusters, all of them free. -/
def freeVolume : FatFs := ⟨.fat12, zeroBpb, 1000, 1, 0, 8, 300, 0, 512, fun _ => 0, 128⟩

theorem fat_entries_free : SetOk freeVolume 3 0xABC ∧ AllocOk freeVolume :=
  have h := fat_entries freeVolume ⟨by decide, by decide⟩
  ⟨h.1 3 0xABC ⟨by decide, by decide⟩, h.2⟩

end Fat
