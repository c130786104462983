import Kenux.Fat.Proofs.Entries

/-!
# Files and directories

`fat_read_file` goes along the chain, but the mark at its end counts as one cluster more. Its rounds each copy
something, so it ends for any table; `fat_read_dir` may take nothing from a cluster, and goes round in a cycle.
-/

namespace Fat

open Memory

variable {fs : FatFs} {c mark start offset skipBytes size totalRead : UInt32} {cs : List UInt32} {tmp : Buffer}

/-! ## Mounted volumes -/

/-- A volume is mounted with a valid geometry, as it is laid out. -/
theorem mount_some {bpb : Bpb} {alloc : Bool} {allocCache : Option Mem}
    (h : fatMount bpb alloc allocCache = (0, some fs)) :
    512 ∣ bpb.bytesPerSector.toNat ∧ 0 < bpb.bytesPerSector.toNat ∧ bpb.bytesPerSector.toNat ≤ 4096 ∧
      0 < bpb.sectorsPerCluster.toNat ∧ ∃ fatCache, fs = layout bpb fatCache := by
  have hnone : ∀ r : ℤ, ((r, none) : ℤ × Option FatFs) ≠ (0, some fs) := fun r hr => nomatch congrArg Prod.snd hr
  unfold fatMount at h
  split_ifs at h with hbytes hpow halloc
  · exact absurd h (hnone _)
  · exact absurd h (hnone _)
  · cases allocCache with
    | none => exact absurd h (hnone _)
    | some fatCache =>
      obtain ⟨hzero, -⟩ := not_or.mp hpow
      have hspc : bpb.sectorsPerCluster.toNat ≠ 0 := fun h0 => hzero (UInt8.toNat_inj.mp h0)
      have hbps : bpb.bytesPerSector.toNat = 512 ∨ bpb.bytesPerSector.toNat = 1024 ∨
          bpb.bytesPerSector.toNat = 2048 ∨ bpb.bytesPerSector.toNat = 4096 := by
        by_contra hnot
        obtain ⟨h1, hnot⟩ := not_or.mp hnot
        obtain ⟨h2, hnot⟩ := not_or.mp hnot
        obtain ⟨h3, h4⟩ := not_or.mp hnot
        exact hbytes ⟨fun heq => h1 (congrArg UInt16.toNat heq), fun heq => h2 (congrArg UInt16.toNat heq),
          fun heq => h3 (congrArg UInt16.toNat heq), fun heq => h4 (congrArg UInt16.toNat heq)⟩
      exact ⟨by omega, by omega, by omega, by omega, fatCache, (Option.some.inj (congrArg Prod.snd h)).symm⟩
  · exact absurd h (hnone _)

/-- Clusters are not empty, and they consist of sectors. -/
theorem mounted_bytes (h : Mounted fs) : 0 < fs.clusterBytes ∧ 512 ∣ fs.clusterBytes := by
  obtain ⟨bpb, alloc, allocCache, hmount⟩ := h
  obtain ⟨hdvd, hlow, hhigh, hspc, fatCache, rfl⟩ := mount_some hmount
  have hlt := bpb.sectorsPerCluster.toNat_lt
  have hbound : bpb.bytesPerSector.toNat * bpb.sectorsPerCluster.toNat ≤ 4096 * 256 :=
    Nat.mul_le_mul hhigh (Nat.le_of_lt hlt)
  have hval : (layout bpb fatCache).clusterBytes = bpb.bytesPerSector.toNat * bpb.sectorsPerCluster.toNat := by
    show (bpb.bytesPerSector.toUInt32 * bpb.sectorsPerCluster.toUInt32).toNat = _
    rw [UInt32.toNat_mul, UInt16.toNat_toUInt32, UInt8.toNat_toUInt32, Nat.mod_eq_of_lt (by omega)]
  rw [hval]
  exact ⟨Nat.mul_pos hlow hspc, Nat.dvd_mul_right_of_dvd hdvd _⟩

/-! ## Along the chain -/

/-- What is no cluster has no next one. -/
theorem get_outside (hc : ¬IsCluster fs c) : fatGetNextCluster fs c = 0 := by
  refine if_pos ?_
  have htwo : (2 : UInt32).toNat = 2 := rfl
  by_cases hlow : c.toNat < 2
  · exact .inl (UInt32.lt_iff_toNat_lt.mpr hlow)
  · right
    have hhigh : fs.totalClusters.toNat + 2 ≤ c.toNat := by
      by_contra hnot
      exact hc ⟨by omega, by omega⟩
    have hlt := c.toNat_lt
    rw [ge_iff_le, UInt32.le_iff_toNat_le, UInt32.toNat_add, htwo, Nat.mod_eq_of_lt (by omega)]
    exact hhigh

theorem lt_two : c < 2 ↔ c.toNat < 2 := UInt32.lt_iff_toNat_lt

theorem EndMark.two_le (h : EndMark fs mark) : 2 ≤ mark.toNat := by
  have hmin : 2 ≤ fs.type.eocMin := by cases fs.type <;> decide
  exact Nat.le_trans hmin h.1

/-- The numbers on the way are all large enough to count as clusters. -/
theorem Linked.two_le (h : Linked fs mark c cs) (hmark : EndMark fs mark) : 2 ≤ c.toNat := by
  cases cs with
  | nil =>
    obtain rfl : c = mark := h
    exact hmark.two_le
  | cons d cs => exact h.2.1.1

theorem skipLoop_linked (hmark : EndMark fs mark) (k : ℕ) (h : Linked fs mark c cs) :
    if k ≤ cs.length then ∃ d, skipLoop fs k c = some d ∧ Linked fs mark d (cs.drop k) else skipLoop fs k c = none := by
  induction k generalizing c cs with
  | zero => exact ⟨c, rfl, h⟩
  | succ k ih =>
    cases cs with
    | nil =>
      obtain rfl : c = mark := h
      have hk : ¬k + 1 ≤ ([] : List UInt32).length := Nat.not_succ_le_zero k
      rw [if_neg hk]
      have hnext := get_outside hmark.2
      show (if fatGetNextCluster fs c < 2 then none else _) = none
      rw [hnext]
      rfl
    | cons d cs =>
      obtain ⟨rfl, -, hrest⟩ := h
      have hge : ¬fatGetNextCluster fs c < 2 := fun hlt => absurd (hrest.two_le hmark) (Nat.not_le.mpr (lt_two.mp hlt))
      have hskip : skipLoop fs (k + 1) c = skipLoop fs k (fatGetNextCluster fs c) := if_neg hge
      rw [hskip]
      have hih := ih hrest
      by_cases hk : k ≤ cs.length
      · rw [if_pos hk] at hih
        rw [if_pos (by rw [List.length_cons]; omega)]
        exact hih
      · rw [if_neg hk] at hih
        rw [if_neg (by rw [List.length_cons]; omega)]
        exact hih

/-! ## The rounds of `fat_read_file` -/

/-- Where a round begins in its cluster. -/
def startOf (skipBytes totalRead : UInt32) : ℕ := if totalRead = 0 then skipBytes.toNat else 0

theorem readLoop_stop (fuel : ℕ) (h : ¬(totalRead < size ∧ c ≥ 2)) :
    readLoop fs tmp skipBytes size (fuel + 1) c totalRead = some ([], totalRead) := if_neg h

/-- A round copies what is wanted, or what its cluster has. -/
theorem readLoop_round (tmp : Buffer) (fuel : ℕ) (hskip : skipBytes.toNat < fs.clusterBytes) (hlt : totalRead.toNat < size.toNat)
    (hc : 2 ≤ c.toNat) : ∃ p next, p.cluster = c ∧ p.start = startOf skipBytes totalRead ∧
      p.count = min (size.toNat - totalRead.toNat) (fs.clusterBytes - startOf skipBytes totalRead) ∧
      next.toNat = totalRead.toNat + p.count ∧
      readLoop fs tmp skipBytes size (fuel + 1) c totalRead =
        (readLoop fs tmp skipBytes size fuel (fatGetNextCluster fs c) next).map fun r => (p :: r.1, r.2) := by
  have hc2 : ¬c < 2 := fun h => absurd hc (Nat.not_le.mpr (lt_two.mp h))
  have hcond : totalRead < size ∧ c ≥ 2 := ⟨UInt32.lt_iff_toNat_lt.mpr hlt, UInt32.not_lt.mp hc2⟩
  have hbuf : (fatReadCluster fs c tmp).2 = tmp := by
    unfold fatReadCluster
    rw [if_neg hc2]
  obtain ⟨start, hstart⟩ : ∃ start : UInt32, start = if totalRead = 0 then skipBytes else 0 := ⟨_, rfl⟩
  obtain ⟨copy, hcopy⟩ : ∃ copy : UInt32, copy = if size - totalRead < fs.bytesPerCluster - start then size - totalRead
    else fs.bytesPerCluster - start := ⟨_, rfl⟩
  have hround : readLoop fs tmp skipBytes size (fuel + 1) c totalRead =
      (readLoop fs (fatReadCluster fs c tmp).2 skipBytes size fuel (fatGetNextCluster fs c) (totalRead + copy)).map
        fun r => (⟨c, start.toNat, copy.toNat, slice (fatReadCluster fs c tmp).2 start.toNat copy.toNat⟩ :: r.1, r.2) := by
    rw [hcopy, hstart]
    exact if_pos hcond
  rw [hbuf] at hround
  have hstartNat : start.toNat = startOf skipBytes totalRead := by
    unfold startOf
    rw [hstart]
    split_ifs <;> rfl
  have hle : start.toNat ≤ fs.bytesPerCluster.toNat := by
    rw [hstartNat]
    unfold startOf
    split_ifs
    · exact Nat.le_of_lt hskip
    · exact Nat.zero_le _
  have havail : (fs.bytesPerCluster - start).toNat = fs.clusterBytes - startOf skipBytes totalRead := by
    rw [UInt32.toNat_sub_of_le _ _ (UInt32.le_iff_toNat_le.mpr hle), hstartNat]
    rfl
  have hwant : (size - totalRead).toNat = size.toNat - totalRead.toNat :=
    UInt32.toNat_sub_of_le _ _ (UInt32.le_iff_toNat_le.mpr (Nat.le_of_lt hlt))
  have hcopyNat : copy.toNat = min (size.toNat - totalRead.toNat) (fs.clusterBytes - startOf skipBytes totalRead) := by
    rw [hcopy, ← hwant, ← havail]
    split_ifs with hsmall
    · exact (Nat.min_eq_left (Nat.le_of_lt (UInt32.lt_iff_toNat_lt.mp hsmall))).symm
    · exact (Nat.min_eq_right (UInt32.le_iff_toNat_le.mp (UInt32.not_lt.mp hsmall))).symm
  refine ⟨⟨c, start.toNat, copy.toNat, slice tmp start.toNat copy.toNat⟩, totalRead + copy, rfl, hstartNat, hcopyNat, ?_,
    hround⟩
  have hsize := size.toNat_lt
  have hcopyLe : copy.toNat ≤ size.toNat - totalRead.toNat := by
    rw [hcopyNat]
    exact Nat.min_le_left ..
  rw [UInt32.toNat_add, Nat.mod_eq_of_lt (by omega)]

theorem startOf_lt (totalRead : UInt32) (hskip : skipBytes.toNat < fs.clusterBytes) : startOf skipBytes totalRead < fs.clusterBytes := by
  unfold startOf
  split_ifs
  · exact hskip
  · exact Nat.lt_of_le_of_lt (Nat.zero_le _) hskip

theorem startOf_pos (h : 0 < totalRead.toNat) : startOf skipBytes totalRead = 0 := by
  refine if_neg fun hzero => ?_
  rw [hzero] at h
  exact absurd h (Nat.lt_irrefl 0)

/-- Another bound on the rounds changes nothing about a result. -/
theorem readLoop_unique {fuel fuel' : ℕ} {r r' : List Piece × UInt32}
    (h : readLoop fs tmp skipBytes size fuel c totalRead = some r)
    (h' : readLoop fs tmp skipBytes size fuel' c totalRead = some r') : r = r' := by
  induction fuel generalizing fuel' c totalRead r r' tmp with
  | zero => cases h
  | succ fuel ih =>
    cases fuel' with
    | zero => cases h'
    | succ fuel' =>
      unfold readLoop at h h'
      by_cases hcond : totalRead < size ∧ c ≥ 2
      · rw [if_pos hcond] at h h'
        obtain ⟨q, hq, rfl⟩ := Option.map_eq_some_iff.mp h
        obtain ⟨q', hq', rfl⟩ := Option.map_eq_some_iff.mp h'
        rw [ih hq hq']
      · rw [if_neg hcond] at h h'
        exact Option.some.inj (h.symm.trans h')

theorem fatReadFile_unique {fuel fuel' : ℕ} {r r' : ℤ × List Piece}
    (h : fatReadFile fuel fs tmp start offset size = some r) (h' : fatReadFile fuel' fs tmp start offset size = some r') :
    r = r' := by
  unfold fatReadFile at h h'
  dsimp only at h h'
  cases hskip : skipLoop fs (offset / fs.bytesPerCluster).toNat start with
  | none =>
    rw [hskip] at h h'
    exact Option.some.inj (h.symm.trans h')
  | some d =>
    rw [hskip] at h h'
    obtain ⟨q, hq, rfl⟩ := Option.map_eq_some_iff.mp h
    obtain ⟨q', hq', rfl⟩ := Option.map_eq_some_iff.mp h'
    rw [readLoop_unique hq hq']

/-! ## Reading a chain -/

/-- What a round leaves of `w` bytes, against the `m` bytes of the clusters behind. -/
theorem round_left {w b s m : ℕ} (hs : s < b) :
    min w (b - s) + min (w - min w (b - s)) m = min w (m + b - s) ∧ (w + s ≤ m + b → w - min w (b - s) ≤ m) ∧
      (m + b < w + s → m < w - min w (b - s)) :=
  ⟨by omega, by omega, by omega⟩

/-- From a cluster of the chain on, what is left of the chain and one cluster more can be read. -/
theorem readLoop_linked (tmp : Buffer) (size : UInt32) (hmark : EndMark fs mark) (hskip : skipBytes.toNat < fs.clusterBytes) (cs : List UInt32)
    (c totalRead : UInt32) (fuel : ℕ) (h : Linked fs mark c cs) (hle : totalRead.toNat ≤ size.toNat)
    (hfuel : cs.length + 1 < fuel) : ∃ pieces total,
      readLoop fs tmp skipBytes size fuel c totalRead = some (pieces, total) ∧
      total.toNat = totalRead.toNat + min (size.toNat - totalRead.toNat)
        ((cs.length + 1) * fs.clusterBytes - startOf skipBytes totalRead) ∧
      (size.toNat - totalRead.toNat + startOf skipBytes totalRead ≤ cs.length * fs.clusterBytes ∨
        size.toNat = totalRead.toNat → pieces.map Piece.cluster <+: cs) ∧
      (cs.length * fs.clusterBytes < size.toNat - totalRead.toNat + startOf skipBytes totalRead →
        totalRead.toNat < size.toNat → mark ∈ pieces.map Piece.cluster) := by
  have hstart := startOf_lt totalRead hskip
  induction cs generalizing c totalRead fuel with
  | nil =>
    obtain rfl : c = mark := h
    obtain ⟨fuel, rfl⟩ := Nat.exists_eq_succ_of_ne_zero (Nat.ne_of_gt (Nat.lt_of_le_of_lt (Nat.zero_le _) hfuel))
    by_cases hlt : totalRead.toNat < size.toNat
    · obtain ⟨fuel, rfl⟩ := Nat.exists_eq_succ_of_ne_zero (show fuel ≠ 0 by simp at hfuel; omega)
      obtain ⟨p, next, hcluster, -, hcount, hnext, hround⟩ :=
        readLoop_round tmp (fuel + 1) hskip hlt hmark.two_le
      have hzero : ¬(next < size ∧ fatGetNextCluster fs c ≥ 2) := by
        rw [get_outside hmark.2]
        exact fun hc => absurd hc.2 (by decide)
      rw [hround, readLoop_stop fuel hzero]
      refine ⟨[p], next, rfl, ?_, fun hor => ?_, fun _ _ => ?_⟩
      · rw [hnext, hcount, List.length_nil, Nat.zero_add, Nat.one_mul]
      · rw [List.length_nil, Nat.zero_mul] at hor
        omega
      · rw [List.map_singleton, hcluster]
        exact List.mem_singleton_self c
    · have hstop : ¬(totalRead < size ∧ c ≥ 2) := fun hc => hlt (UInt32.lt_iff_toNat_lt.mp hc.1)
      rw [readLoop_stop fuel hstop]
      refine ⟨[], totalRead, rfl, by omega, fun _ => List.nil_prefix, fun _ hlt' => absurd hlt' hlt⟩
  | cons d cs ih =>
    have hc2 := h.two_le hmark
    obtain ⟨rfl, -, hrest⟩ := h
    obtain ⟨fuel, rfl⟩ := Nat.exists_eq_succ_of_ne_zero (Nat.ne_of_gt (Nat.lt_of_le_of_lt (Nat.zero_le _) hfuel))
    rw [List.length_cons] at hfuel
    by_cases hlt : totalRead.toNat < size.toNat
    · obtain ⟨p, next, hcluster, -, hcount, hnext, hround⟩ := readLoop_round tmp fuel hskip hlt hc2
      -- the next round begins at the start of its cluster
      have hpos : 0 < p.count := by
        rw [hcount]
        exact Nat.lt_min.mpr ⟨Nat.sub_pos_of_lt hlt, Nat.sub_pos_of_lt hstart⟩
      have hnext0 : startOf skipBytes next = 0 := startOf_pos (hnext ▸ Nat.lt_of_lt_of_le hpos (Nat.le_add_left ..))
      have hleft : size.toNat - next.toNat = size.toNat - totalRead.toNat - p.count := by rw [hnext, Nat.sub_add_eq]
      have hnextLe : next.toNat ≤ size.toNat := by
        have hcountLe : p.count ≤ size.toNat - totalRead.toNat := hcount ▸ Nat.min_le_left ..
        rw [hnext]
        omega
      obtain ⟨pieces, total, hcall, htotal, hinit, hmem⟩ := ih (fatGetNextCluster fs c) next fuel hrest hnextLe
        (Nat.lt_of_succ_lt_succ hfuel) (startOf_lt next hskip)
      rw [hround, hcall]
      rw [hnext0] at htotal hinit hmem
      rw [hleft, hcount] at htotal hinit hmem
      refine ⟨p :: pieces, total, rfl, ?_, fun hor => ?_, fun hbeyond _ => ?_⟩
      · rw [List.length_cons, htotal, hnext, hcount, Nat.succ_mul (cs.length + 1), Nat.sub_zero, Nat.add_assoc,
          (round_left hstart).1]
      · rw [List.length_cons, Nat.succ_mul] at hor
        rw [List.map_cons, hcluster]
        refine List.cons_prefix_cons.mpr ⟨rfl, hinit (.inl ((round_left hstart).2.1 (hor.resolve_right ?_)))⟩
        exact Nat.ne_of_gt hlt
      · rw [List.length_cons, Nat.succ_mul] at hbeyond
        rw [List.map_cons]
        have hmore := (round_left hstart).2.2 hbeyond
        exact List.mem_cons_of_mem _ (hmem hmore (by omega))
    · have hstop : ¬(totalRead < size ∧ c ≥ 2) := fun hc => hlt (UInt32.lt_iff_toNat_lt.mp hc.1)
      rw [readLoop_stop fuel hstop]
      refine ⟨[], totalRead, rfl, by omega, fun _ => List.nil_prefix, fun _ hlt' => absurd hlt' hlt⟩

theorem div_mod_offset (fs : FatFs) (offset : UInt32) :
    (offset / fs.bytesPerCluster).toNat = offset.toNat / fs.clusterBytes ∧
      (offset % fs.bytesPerCluster).toNat = offset.toNat % fs.clusterBytes :=
  ⟨UInt32.toNat_div .., UInt32.toNat_mod ..⟩

/-- An `int` of a small number is the number, and else it is negative. -/
theorem toInt_spec (x : UInt32) : (x.toNat < 2 ^ 31 → x.toInt32.toInt = x.toNat) ∧
    (2 ^ 31 ≤ x.toNat → x.toInt32.toInt < 0) := by
  have hlt := x.toNat_lt
  have hval : x.toInt32.toInt = if 2 * x.toNat < 2 ^ 32 then (x.toNat : ℤ) else x.toNat - (2 ^ 32 : ℕ) :=
    BitVec.toInt_eq_toNat_cond x.toBitVec
  rw [hval]
  constructor
  · intro hsmall
    rw [if_pos (by omega)]
  · intro hbig
    rw [if_neg (by omega)]
    omega

theorem Linked.isCluster (h : Linked fs mark c cs) {d : UInt32} (hd : d ∈ cs) : IsCluster fs d := by
  induction cs generalizing c with
  | nil => exact absurd hd List.not_mem_nil
  | cons e cs ih =>
    obtain ⟨rfl, hc, hnext⟩ := h
    rcases List.mem_cons.mp hd with rfl | hd
    · exact hc
    · exact ih hnext hd

theorem offset_split (fs : FatFs) (offset : UInt32) :
    offset.toNat / fs.clusterBytes * fs.clusterBytes + offset.toNat % fs.clusterBytes = offset.toNat := by
  rw [Nat.mul_comm]
  exact Nat.div_add_mod ..

/-- Up to the end of the chain, and in the cluster after it, as much is read as the chain and one cluster have. -/
theorem fatReadFile_near (size : UInt32) (hbytes : 0 < fs.clusterBytes) (hmark : EndMark fs mark) (h : Linked fs mark start cs)
    (hnear : offset.toNat / fs.clusterBytes ≤ cs.length) (tmp : Buffer) : ∃ (fuel : ℕ) (pieces : List Piece) (total : UInt32),
      fatReadFile fuel fs tmp start offset size = some (total.toInt32.toInt, pieces) ∧
      total.toNat = min size.toNat ((cs.length + 1) * fs.clusterBytes - offset.toNat) ∧
      (offset.toNat + size.toNat ≤ cs.length * fs.clusterBytes ∨ size = 0 →
        pieces.map Piece.cluster <+: cs.drop (offset.toNat / fs.clusterBytes)) ∧
      (cs.length * fs.clusterBytes < offset.toNat + size.toNat → size ≠ 0 → mark ∈ pieces.map Piece.cluster) := by
  obtain ⟨hq, ho⟩ := div_mod_offset fs offset
  have hsplit := offset_split fs offset
  have hskip := skipLoop_linked hmark (offset.toNat / fs.clusterBytes) h
  rw [if_pos hnear] at hskip
  obtain ⟨d, hd, hrest⟩ := hskip
  have hlen : (cs.drop (offset.toNat / fs.clusterBytes)).length = cs.length - offset.toNat / fs.clusterBytes :=
    List.length_drop
  have hzero : startOf (offset % fs.bytesPerCluster) 0 = offset.toNat % fs.clusterBytes := by
    unfold startOf
    rw [if_pos rfl, ho]
  have hmod : (offset % fs.bytesPerCluster).toNat < fs.clusterBytes := ho ▸ Nat.mod_lt _ hbytes
  obtain ⟨pieces, total, hloop, htotal, hinit, hmem⟩ := readLoop_linked tmp size hmark hmod _ d 0
    ((cs.drop (offset.toNat / fs.clusterBytes)).length + 2) hrest (Nat.zero_le _) (Nat.lt_succ_self _)
  have h0 : (0 : UInt32).toNat = 0 := rfl
  rw [hlen, hzero, h0] at htotal hinit hmem
  -- what is left of the chain, in bytes
  have hleft : (cs.length - offset.toNat / fs.clusterBytes) * fs.clusterBytes =
      cs.length * fs.clusterBytes - offset.toNat / fs.clusterBytes * fs.clusterBytes := Nat.sub_mul ..
  have hmul : offset.toNat / fs.clusterBytes * fs.clusterBytes ≤ cs.length * fs.clusterBytes :=
    Nat.mul_le_mul_right _ hnear
  have hsucc : (cs.length - offset.toNat / fs.clusterBytes + 1) * fs.clusterBytes =
      (cs.length - offset.toNat / fs.clusterBytes) * fs.clusterBytes + fs.clusterBytes := Nat.succ_mul ..
  have hsucc' : (cs.length + 1) * fs.clusterBytes = cs.length * fs.clusterBytes + fs.clusterBytes := Nat.succ_mul ..
  refine ⟨(cs.drop (offset.toNat / fs.clusterBytes)).length + 2, pieces, total, ?_, by omega, fun hor => hinit ?_,
    fun hbeyond hne => hmem (by omega) ?_⟩
  · unfold fatReadFile
    dsimp only
    rw [hq, hd]
    dsimp only
    rw [hloop]
    rfl
  · rcases hor with hwithin | hsize
    · exact .inl (by omega)
    · exact .inr (congrArg UInt32.toNat hsize)
  · exact Nat.pos_of_ne_zero fun hc => hne (UInt32.toNat_inj.mp hc)

theorem fatReadFile_far (hmark : EndMark fs mark) (h : Linked fs mark start cs)
    (hfar : ¬offset.toNat / fs.clusterBytes ≤ cs.length) (fuel : ℕ) (tmp : Buffer) :
    fatReadFile fuel fs tmp start offset size = some (-2, []) := by
  have hskip := skipLoop_linked hmark (offset.toNat / fs.clusterBytes) h
  rw [if_neg hfar] at hskip
  unfold fatReadFile
  dsimp only
  rw [(div_mod_offset fs offset).1, hskip]

theorem read_ok_iff (hbytes : 0 < fs.clusterBytes) (hchain : ChainOf fs start cs) (offset size : UInt32) :
    ReadOk fs start cs offset size ↔ ReadWhen fs cs offset size := by
  obtain ⟨mark, hmark, hlinked⟩ := hchain
  have hsplit := offset_split fs offset
  have hmod : offset.toNat % fs.clusterBytes < fs.clusterBytes := Nat.mod_lt _ hbytes
  have hsucc : (cs.length + 1) * fs.clusterBytes = cs.length * fs.clusterBytes + fs.clusterBytes := Nat.succ_mul ..
  by_cases hnear : offset.toNat / fs.clusterBytes ≤ cs.length
  · have hle : (offset.toNat / fs.clusterBytes) * fs.clusterBytes ≤ cs.length * fs.clusterBytes :=
      Nat.mul_le_mul_right _ hnear
    constructor
    · intro hok
      obtain ⟨fuel, r, pieces, hres, hinit, hval⟩ := hok fun _ => 0
      obtain ⟨fuel', pieces', total, hcall, htotal, -, hmem⟩ :=
        fatReadFile_near size hbytes hmark hlinked hnear fun _ => 0
      obtain ⟨rfl, rfl⟩ := Prod.mk.inj (fatReadFile_unique hres hcall)
      by_cases hzero : size = 0
      · exact .inl hzero
      have hpos : 0 < size.toNat := Nat.pos_of_ne_zero fun hc => hzero (UInt32.toNat_inj.mp hc)
      -- beyond the end the mark is read, and it is no cluster of the chain
      have hwithin : offset.toNat + size.toNat ≤ cs.length * fs.clusterBytes := by
        by_contra hbeyond
        have hin := hinit.subset (hmem (by omega) hzero)
        exact hmark.2 (hlinked.isCluster (List.mem_of_mem_drop hin))
      refine .inr (.inl ⟨hwithin, ?_⟩)
      rw [if_pos (by omega)] at hval
      by_contra hbig
      have hneg := (toInt_spec total).2 (by omega)
      rw [hval] at hneg
      omega
    · intro hwhen tmp
      obtain ⟨fuel, pieces, total, hcall, htotal, hinit, -⟩ :=
        fatReadFile_near size hbytes hmark hlinked hnear tmp
      refine ⟨fuel, _, pieces, hcall, ?_⟩
      rcases hwhen with hzero | ⟨hwithin, hsmall⟩ | hfar
      · have hnat : size.toNat = 0 := congrArg UInt32.toNat hzero
        refine ⟨hinit (.inr hzero), ?_⟩
        rw [(toInt_spec total).1 (by omega)]
        split_ifs <;> omega
      · refine ⟨hinit (.inl hwithin), ?_⟩
        rw [(toInt_spec total).1 (by omega)]
        split_ifs <;> omega
      · omega
  · have hmul : (cs.length + 1) * fs.clusterBytes ≤ offset.toNat / fs.clusterBytes * fs.clusterBytes :=
      Nat.mul_le_mul_right _ (by omega)
    refine iff_of_true (fun tmp => ⟨0, -2, [], fatReadFile_far hmark hlinked hnear 0 tmp, List.nil_prefix, ?_⟩)
      (.inr (.inr (by omega)))
    rw [if_neg (by omega)]
    decide

end Fat
