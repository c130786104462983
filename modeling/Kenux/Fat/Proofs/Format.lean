import Kenux.Fat.Model

/-!
# Formatting

The formatter gives a FAT16 table a sector for 65525 pairs of sectors and a FAT32 table one for 262144, so a table is
about as many times too small as a sector has entries.
-/

namespace Fat

open Memory

variable {label : Option (List UInt8)} {totalSectors : UInt32} {bpb : Bpb} {fatCache : Mem}

theorem mount_valid (hbytes : bpb.bytesPerSector = 512) (hpow : bpb.sectorsPerCluster = 4 ∨ bpb.sectorsPerCluster = 8) :
    fatMount bpb true (some fatCache) = (0, some (layout bpb fatCache)) := by
  have hspc : ¬(bpb.sectorsPerCluster = 0 ∨ bpb.sectorsPerCluster &&& (bpb.sectorsPerCluster - 1) ≠ 0) := by
    rcases hpow with h | h <;> rw [h] <;> decide
  unfold fatMount
  rw [if_neg fun h => h.1 hbytes, if_neg hspc, if_neg (by decide)]

/-- A volume whose table fits has an entry for its last cluster. -/
theorem FitsCache.last {fs : FatFs} (h : FitsCache fs) (hsome : 0 < fs.totalClusters.toNat)
    (hend : fs.totalClusters.toNat + 1 < 2 ^ 32) :
    fs.type.accessEnd (fs.totalClusters.toNat + 1) ≤ 4 * fs.fatCacheSize.toNat := by
  have hval : (UInt32.ofNat (fs.totalClusters.toNat + 1)).toNat = fs.totalClusters.toNat + 1 :=
    UInt32.toNat_ofNat_of_lt' hend
  have hc : IsCluster fs (UInt32.ofNat (fs.totalClusters.toNat + 1)) := by
    unfold IsCluster
    omega
  have hle := h _ hc
  rwa [hval] at hle

/-! ## FAT16 -/

/-- What `fat_format` makes for FAT16. -/
def bpb16 (totalSectors : UInt32) (ext : Mem) : Bpb :=
  { formatBpb totalSectors with
    sectorsPerCluster := 4
    reservedSectors := 1
    rootEntryCount := 512
    sectorsPerFat16 := (totalSectors / 2 / 65525 + 1).toUInt16
    ext }

theorem format16 : ∃ ext, fatFormat .fat16 label totalSectors = (0, some (bpb16 totalSectors ext)) := ⟨_, rfl⟩

theorem spf16 (ext : Mem) :
    (bpb16 totalSectors ext).sectorsPerFat16.toUInt32.toNat = totalSectors.toNat / 131050 + 1 := by
  have hlt := totalSectors.toNat_lt
  have h2 : (2 : UInt32).toNat = 2 := rfl
  have h65525 : (65525 : UInt32).toNat = 65525 := rfl
  have h1 : (1 : UInt32).toNat = 1 := rfl
  show ((totalSectors / 2 / 65525 + 1).toUInt16).toUInt32.toNat = _
  rw [UInt16.toNat_toUInt32, UInt32.toNat_toUInt16, UInt32.toNat_add, UInt32.toNat_div, UInt32.toNat_div, h2, h65525, h1]
  omega

/-- Either the volume is not taken for FAT16, or its table is too small. -/
theorem not_fits16 (ext fatCache : Mem) (htype : fatDetectType (bpb16 totalSectors ext) = .fat16) :
    ¬FitsCache (layout (bpb16 totalSectors ext) fatCache) := by
  intro hfits
  have hlt := totalSectors.toNat_lt
  have hspf : (bpb16 totalSectors ext).sectorsPerFat16.toUInt32.toNat = totalSectors.toNat / 131050 + 1 := spf16 ext
  generalize hspfEq : (bpb16 totalSectors ext).sectorsPerFat16.toUInt32 = spf at hspf
  have h4 : (4 : UInt32).toNat = 4 := rfl
  have h1 : (1 : UInt32).toNat = 1 := rfl
  have h2 : (2 : UInt32).toNat = 2 := rfl
  have h32 : (32 : UInt32).toNat = 32 := rfl
  have h512 : (512 : UInt32).toNat = 512 := rfl
  have hroot : (bpb16 totalSectors ext).rootSectors = 32 := by
    show ((512 : UInt16).toUInt32 * 32 + ((512 : UInt16).toUInt32 - 1)) / (512 : UInt16).toUInt32 = 32
    decide
  have hassoc : totalSectors - 1 - 2 * spf - 32 = totalSectors - (1 + 2 * spf + 32) := by
    simp only [UInt32.sub_eq_add_neg, UInt32.neg_add, UInt32.add_assoc]
  -- the number of clusters decides on the type
  have hclusters : ¬(totalSectors - (1 + 2 * spf + 32)) / 4 < 4085 ∧ (totalSectors - (1 + 2 * spf + 32)) / 4 < 65525 := by
    have hdetect : fatDetectType (bpb16 totalSectors ext) =
        if (totalSectors - 1 - 2 * spf - 32) / 4 < 4085 then FatType.fat12
        else if (totalSectors - 1 - 2 * spf - 32) / 4 < 65525 then .fat16 else .fat32 := by
      unfold fatDetectType
      rw [hroot, hspfEq]
      rfl
    rw [htype, hassoc] at hdetect
    split_ifs at hdetect with hlow hhigh
    exact ⟨hlow, hhigh⟩
  have h4085 : (4085 : UInt32).toNat = 4085 := rfl
  have h65525 : (65525 : UInt32).toNat = 65525 := rfl
  have hmany : 4085 ≤ ((totalSectors - (1 + 2 * spf + 32)) / 4).toNat := by
    rw [← h4085]
    exact UInt32.le_iff_toNat_le.mp (UInt32.not_lt.mp hclusters.1)
  have hfew : ((totalSectors - (1 + 2 * spf + 32)) / 4).toNat < 65525 := by
    rw [← h65525]
    exact UInt32.lt_iff_toNat_lt.mp hclusters.2
  have hlast := hfits.last
  have hcount : (layout (bpb16 totalSectors ext) fatCache).totalClusters = (totalSectors - (1 + 2 * spf + 32)) / 4 := by
    unfold layout
    rw [htype, ← hspfEq, ← hroot]
    rfl
  have hsize : (layout (bpb16 totalSectors ext) fatCache).fatCacheSize = spf * 512 / 4 := by
    unfold layout
    rw [htype, ← hspfEq]
    rfl
  have htype' : (layout (bpb16 totalSectors ext) fatCache).type = .fat16 := htype
  rw [hcount, hsize, htype'] at hlast
  have hlast : 0 < ((totalSectors - (1 + 2 * spf + 32)) / 4).toNat →
      ((totalSectors - (1 + 2 * spf + 32)) / 4).toNat + 1 < 2 ^ 32 →
      2 * (((totalSectors - (1 + 2 * spf + 32)) / 4).toNat + 1) + 2 ≤ 4 * (spf * 512 / 4).toNat := hlast
  have hsizeNat : (spf * 512 / 4).toNat = spf.toNat * 128 := by
    rw [UInt32.toNat_div, UInt32.toNat_mul, h512, h4]
    omega
  have hfirst : (1 + 2 * spf + 32 : UInt32).toNat = 33 + 2 * spf.toNat := by
    simp only [UInt32.toNat_add, UInt32.toNat_mul, h1, h2, h32]
    omega
  -- so large a table is one of a volume that has too many clusters
  have hroom := hlast (by omega) (by omega)
  rw [hsizeNat] at hroom
  have hlarge : 15 ≤ totalSectors.toNat / 131050 := by omega
  have hle : (1 + 2 * spf + 32 : UInt32) ≤ totalSectors := UInt32.le_iff_toNat_le.mpr (by omega)
  rw [UInt32.toNat_div, UInt32.toNat_sub_of_le _ _ hle, hfirst, h4] at hfew
  omega

/-! ## FAT32 -/

/-- What `fat_format` makes for FAT32. -/
def bpb32 (totalSectors : UInt32) (ext : Mem) : Bpb :=
  { formatBpb totalSectors with
    sectorsPerCluster := 8
    reservedSectors := 32
    rootEntryCount := 0
    ext }

theorem format32 : ∃ ext, fatFormat .fat32 label totalSectors = (0, some (bpb32 totalSectors ext)) ∧
    load ext 0 4 = totalSectors.toNat / 524288 + 1 := by
  refine ⟨_, rfl, ?_⟩
  have hlt := totalSectors.toNat_lt
  have h2 : (2 : UInt32).toNat = 2 := rfl
  have h262144 : (262144 : UInt32).toNat = 262144 := rfl
  have h1 : (1 : UInt32).toNat = 1 := rfl
  have hval : (totalSectors / 2 / 262144 + 1).toNat = totalSectors.toNat / 524288 + 1 := by
    rw [UInt32.toNat_add, UInt32.toNat_div, UInt32.toNat_div, h2, h262144, h1]
    omega
  -- what is written after the number of sectors lies behind it
  have hkept : ∀ (m : Mem) (a n : ℕ) (src : ℕ → UInt8), 4 ≤ a → load (copyTo m a n src) 0 4 = load m 0 4 :=
    fun m a n src ha => load_congr fun i hi => if_neg (by omega)
  have hupdate : ∀ (m : Mem) (a : ℕ) (v : UInt8), 4 ≤ a → load (Function.update m a v) 0 4 = load m 0 4 :=
    fun m a v ha => load_congr fun i hi => Function.update_of_ne (by omega) ..
  have hbase : load (copyTo (Function.update (store (store (formatBpb totalSectors).ext 0
      (totalSectors / 2 / 262144 + 1).toNat 4) 8 2 4) bootSig32 0x29) fsType32 8
      fun i => (fsTypeText 0x33 0x32).getD i 0) 0 4 = totalSectors.toNat / 524288 + 1 := by
    rw [hkept _ _ _ _ (by decide), hupdate _ _ _ (by decide), load_store_apart (.inl (by decide)), hval]
    exact load_store_of_lt (by omega)
  cases label with
  | none => exact hbase
  | some label => exact (hkept _ _ _ _ (by decide)).trans hbase

/-- Either the volume is not taken for FAT32, or its clusters do not begin inside it, or its table is too small. -/
theorem not_fits32 (ext fatCache : Mem) (hext : load ext 0 4 = totalSectors.toNat / 524288 + 1)
    (htype : fatDetectType (bpb32 totalSectors ext) = .fat32) (hlaid : LaidOut (layout (bpb32 totalSectors ext) fatCache)) :
    ¬FitsCache (layout (bpb32 totalSectors ext) fatCache) := by
  intro hfits
  have hlt := totalSectors.toNat_lt
  obtain ⟨spf, hspfEq⟩ : ∃ spf, spf = (bpb32 totalSectors ext).sectorsPerFat32 := ⟨_, rfl⟩
  have hspf : spf.toNat = totalSectors.toNat / 524288 + 1 := by
    rw [hspfEq]
    show (UInt32.ofNat (load ext 0 4)).toNat = _
    rw [hext]
    exact UInt32.toNat_ofNat_of_lt' (by show _ < 2 ^ 32; omega)
  have h8 : (8 : UInt32).toNat = 8 := rfl
  have h2 : (2 : UInt32).toNat = 2 := rfl
  have h0 : (0 : UInt32).toNat = 0 := rfl
  have h4 : (4 : UInt32).toNat = 4 := rfl
  have h32 : (32 : UInt32).toNat = 32 := rfl
  have h512 : (512 : UInt32).toNat = 512 := rfl
  have hroot : (bpb32 totalSectors ext).rootSectors = 0 := by
    show ((0 : UInt16).toUInt32 * 32 + ((512 : UInt16).toUInt32 - 1)) / (512 : UInt16).toUInt32 = 0
    decide
  have hclusters : ¬(totalSectors - 32 - 2 * 0 - 0) / 8 < 65525 := by
    intro hfew
    have hdetect : fatDetectType (bpb32 totalSectors ext) =
        if (totalSectors - 32 - 2 * 0 - 0) / 8 < 4085 then FatType.fat12
        else if (totalSectors - 32 - 2 * 0 - 0) / 8 < 65525 then .fat16 else .fat32 := by
      unfold fatDetectType
      rw [hroot]
      rfl
    rw [htype] at hdetect
    split_ifs at hdetect
  have hlast := hfits.last
  have hfirst : (layout (bpb32 totalSectors ext) fatCache).firstDataSector = 32 + 2 * spf + 0 := by
    unfold layout
    rw [htype, hspfEq]
    rfl
  have hcount : (layout (bpb32 totalSectors ext) fatCache).totalClusters = (totalSectors - (32 + 2 * spf + 0)) / 8 := by
    unfold layout
    rw [htype, hspfEq]
    rfl
  have hsize : (layout (bpb32 totalSectors ext) fatCache).fatCacheSize = spf * 512 / 4 := by
    unfold layout
    rw [htype, hspfEq]
    rfl
  have htype' : (layout (bpb32 totalSectors ext) fatCache).type = .fat32 := htype
  have hle : (32 + 2 * spf + 0 : UInt32).toNat ≤ totalSectors.toNat := by
    rw [← hfirst]
    exact UInt32.le_iff_toNat_le.mp hlaid.2.1
  rw [hcount, hsize, htype'] at hlast
  have hlast : 0 < ((totalSectors - (32 + 2 * spf + 0)) / 8).toNat →
      ((totalSectors - (32 + 2 * spf + 0)) / 8).toNat + 1 < 2 ^ 32 →
      4 * (((totalSectors - (32 + 2 * spf + 0)) / 8).toNat + 1) + 4 ≤ 4 * (spf * 512 / 4).toNat := hlast
  have h65525 : (65525 : UInt32).toNat = 65525 := rfl
  have hmany : 65525 ≤ ((totalSectors - 32 - 2 * 0 - 0) / 8).toNat := by
    rw [← h65525]
    exact UInt32.le_iff_toNat_le.mp (UInt32.not_lt.mp hclusters)
  have hfirstNat : (32 + 2 * spf + 0 : UInt32).toNat = 32 + 2 * spf.toNat := by
    simp only [UInt32.toNat_add, UInt32.toNat_mul, h0, h2, h32]
    omega
  have hcountNat : ((totalSectors - (32 + 2 * spf + 0)) / 8).toNat = (totalSectors.toNat - (32 + 2 * spf.toNat)) / 8 := by
    rw [UInt32.toNat_div, UInt32.toNat_sub_of_le _ _ (UInt32.le_iff_toNat_le.mpr hle), hfirstNat, h8]
  have hsizeNat : (spf * 512 / 4).toNat = spf.toNat * 128 := by
    rw [UInt32.toNat_div, UInt32.toNat_mul, h512, h4]
    omega
  have hmanyNat : ((totalSectors - 32 - 2 * 0 - 0) / 8).toNat = (totalSectors.toNat - 32) / 8 := by
    simp only [UInt32.toNat_div, UInt32.toNat_sub, UInt32.toNat_mul, h0, h2, h8, h32]
    omega
  rw [hcountNat, hsizeNat] at hlast
  omega

theorem FormatOk.mounted16 (h : FormatOk .fat16 label totalSectors) :
    ∃ ext, fatDetectType (bpb16 totalSectors ext) = .fat16 ∧ FitsCache (layout (bpb16 totalSectors ext) fun _ => 0) := by
  obtain ⟨bpb, hformat, hmounts⟩ := h
  obtain ⟨fs, hmount, htype, -, -, hfits⟩ := hmounts fun _ => 0
  have hbuilt : ∃ ext, fatFormat .fat16 label totalSectors = (0, some (bpb16 totalSectors ext)) := format16
  obtain ⟨ext, hbpb⟩ := hbuilt
  obtain rfl := Option.some.inj (congrArg Prod.snd (hformat.symm.trans hbpb))
  rw [mount_valid rfl (.inl rfl)] at hmount
  obtain rfl := Option.some.inj (congrArg Prod.snd hmount)
  exact ⟨ext, htype, hfits⟩

/-- No volume of either type is mounted as it was formatted, with a table that is large enough. -/
theorem format_never_ok (type : FatType) (label : Option (List UInt8)) (totalSectors : UInt32) :
    ¬FormatOk type label totalSectors := by
  intro hok
  cases type with
  | fat12 =>
    obtain ⟨bpb, hformat, -⟩ := hok
    exact nomatch congrArg Prod.snd hformat
  | fat16 =>
    obtain ⟨ext, htype, hfits⟩ := hok.mounted16
    exact not_fits16 ext _ htype hfits
  | fat32 =>
    obtain ⟨bpb, hformat, hmounts⟩ := hok
    obtain ⟨fs, hmount, htype, -, hlaid, hfits⟩ := hmounts fun _ => 0
    have hbuilt : ∃ ext, fatFormat .fat32 label totalSectors = (0, some (bpb32 totalSectors ext)) ∧
      load ext 0 4 = totalSectors.toNat / 524288 + 1 := format32
    obtain ⟨ext, hbpb, hext⟩ := hbuilt
    obtain rfl := Option.some.inj (congrArg Prod.snd (hformat.symm.trans hbpb))
    rw [mount_valid rfl (.inr rfl)] at hmount
    obtain rfl := Option.some.inj (congrArg Prod.snd hmount)
    exact not_fits32 ext _ hext htype hlaid hfits

/-- With 20480 sectors the type is right, and the table has 512 bytes for 5111 clusters. -/
theorem format_small_table : ¬∀ (type : FatType) (label : Option (List UInt8)) (totalSectors : UInt32),
    type ≠ .fat12 → FormatOk type label totalSectors := by
  intro h
  obtain ⟨ext, htype, hfits⟩ := (h .fat16 none 20480 (by decide)).mounted16
  exact not_fits16 ext _ htype hfits

end Fat
