import Kenux.Fat.Proofs.Files

/-!
# The buffers of 4096 bytes

A round uses as much of its buffer as a cluster has bytes, or as it is asked for. Since a buffer is not filled, an
entry of a directory is whatever the stack held.
-/

namespace Fat

open Memory

variable {fs : FatFs} {c start offset skipBytes size totalRead dirCluster : UInt32} {tmp : Buffer} {max : ℤ}

/-! ## Files -/

/-- For any table the rounds end; a piece goes no further than its cluster and than what is wanted, and the first one
goes as far. -/
theorem readLoop_bounds (tmp : Buffer) (size : UInt32) (hskip : skipBytes.toNat < fs.clusterBytes) (fuel : ℕ) (c totalRead : UInt32)
    (hle : totalRead.toNat ≤ size.toNat) (hfuel : size.toNat - totalRead.toNat < fuel) : ∃ pieces total,
      readLoop fs tmp skipBytes size fuel c totalRead = some (pieces, total) ∧
      (∀ p ∈ pieces, p.start + p.count ≤ min fs.clusterBytes
        (startOf skipBytes totalRead + (size.toNat - totalRead.toNat))) ∧
      (totalRead.toNat = size.toNat ∨ c < 2 → pieces = []) ∧
      (totalRead.toNat < size.toNat → ¬c < 2 → ∃ p ∈ pieces, p.start + p.count = min fs.clusterBytes
        (startOf skipBytes totalRead + (size.toNat - totalRead.toNat))) := by
  induction fuel generalizing c totalRead with
  | zero => omega
  | succ fuel ih =>
    by_cases hgo : totalRead.toNat < size.toNat ∧ ¬c < 2
    · obtain ⟨hlt, hc⟩ := hgo
      have hc2 : 2 ≤ c.toNat := Nat.not_lt.mp fun hlow => hc (lt_two.mpr hlow)
      have hstart := startOf_lt totalRead hskip
      obtain ⟨p, next, -, hpstart, hcount, hnext, hround⟩ := readLoop_round tmp fuel hskip hlt hc2
      have hnext0 : startOf skipBytes next = 0 := startOf_pos (by omega)
      obtain ⟨pieces, total, hcall, hall, -, -⟩ := ih (fatGetNextCluster fs c) next (by omega) (by omega)
      rw [hnext0] at hall
      rw [hround, hcall]
      refine ⟨p :: pieces, total, rfl, fun q hq => ?_, fun hor => ?_, fun _ _ => ⟨p, List.mem_cons_self, by omega⟩⟩
      · rcases List.mem_cons.mp hq with rfl | hq
        · omega
        · have hrest := hall q hq
          omega
      · rcases hor with heq | hlow
        · omega
        · exact absurd hlow hc
    · have hstop : ¬(totalRead < size ∧ c ≥ 2) := fun hcond =>
        hgo ⟨UInt32.lt_iff_toNat_lt.mp hcond.1, UInt32.not_lt.mpr hcond.2⟩
      rw [readLoop_stop fuel hstop]
      exact ⟨[], totalRead, rfl, fun _ hp => absurd hp List.not_mem_nil, fun _ => rfl,
        fun hlt hc => absurd ⟨hlt, hc⟩ hgo⟩

theorem file_in_buffer_iff (hbytes : 0 < fs.clusterBytes) (start offset size : UInt32) :
    FileInBuffer fs start offset size ↔ FileWhen fs start offset size := by
  obtain ⟨hq, ho⟩ := div_mod_offset fs offset
  have hmod : (offset % fs.bytesPerCluster).toNat < fs.clusterBytes := ho ▸ Nat.mod_lt _ hbytes
  have h0 : (0 : UInt32).toNat = 0 := rfl
  have hzero : startOf (offset % fs.bytesPerCluster) 0 = offset.toNat % fs.clusterBytes := by
    unfold startOf
    rw [if_pos rfl, ho]
  unfold FileInBuffer FileWhen
  cases hskip : skipLoop fs (offset.toNat / fs.clusterBytes) start with
  | none =>
    refine iff_of_true (fun tmp => ⟨0, -2, [], ?_, fun p hp => absurd hp List.not_mem_nil⟩)
      (.inr (.inr (.inr fun c hc => nomatch hc)))
    unfold fatReadFile
    dsimp only
    rw [hq, hskip]
  | some d =>
    have hbounds := fun tmp : Buffer => readLoop_bounds tmp size hmod (size.toNat + 1) d 0
      (Nat.zero_le _) (Nat.lt_succ_of_le (Nat.sub_le ..))
    rw [hzero, h0, Nat.sub_zero] at hbounds
    have hcall : ∀ tmp fuel, fatReadFile fuel fs tmp start offset size =
        (readLoop fs tmp (offset % fs.bytesPerCluster) size fuel d 0).map fun r => (r.2.toInt32.toInt, r.1) := by
      intro tmp fuel
      unfold fatReadFile
      dsimp only
      rw [hq, hskip]
    constructor
    · intro hin
      by_contra hnot
      obtain ⟨hbig, hnot⟩ := not_or.mp hnot
      obtain ⟨hsize, hnot⟩ := not_or.mp hnot
      obtain ⟨hfar, hcluster⟩ := not_or.mp hnot
      have hd : ¬d < 2 := fun hlow => hcluster fun c hc => by
        obtain rfl := Option.some.inj hc
        exact hlow
      obtain ⟨fuel, r, pieces, hres, hall⟩ := hin fun _ => 0
      obtain ⟨pieces', total, hloop, -, -, hfirst⟩ := hbounds fun _ => 0
      rw [hcall] at hres
      obtain ⟨q, hq', hpair⟩ := Option.map_eq_some_iff.mp hres
      obtain rfl := readLoop_unique hq' hloop
      obtain ⟨-, rfl⟩ := Prod.mk.inj hpair
      obtain ⟨p, hp, heq⟩ := hfirst (Nat.pos_of_ne_zero fun hc => hsize (UInt32.toNat_inj.mp hc)) hd
      have hle := hall p hp
      omega
    · intro hwhen tmp
      obtain ⟨pieces, total, hloop, hall, hnone, -⟩ := hbounds tmp
      refine ⟨size.toNat + 1, _, pieces, by rw [hcall, hloop]; rfl, fun p hp => ?_⟩
      have hle := hall p hp
      rcases hwhen with hsmall | hsize | hnear | hcluster
      · omega
      · rw [hnone (.inl (congrArg UInt32.toNat hsize).symm)] at hp
        exact absurd hp List.not_mem_nil
      · omega
      · rw [hnone (.inr (hcluster d rfl))] at hp
        exact absurd hp List.not_mem_nil

/-! ## Directories -/

theorem fatReadCluster_buffer (fs : FatFs) (c : UInt32) (buf : Buffer) : (fatReadCluster fs c buf).2 = buf := by
  unfold fatReadCluster
  split_ifs <;> rfl

theorem scanLoop_looked (buf : Buffer) (n i room : ℕ) : ∀ j ∈ (scanLoop buf n i room).looked, i ≤ j ∧ j < i + n := by
  induction n generalizing i room with
  | zero => exact fun j hj => absurd hj List.not_mem_nil
  | succ n ih =>
    intro j hj
    unfold scanLoop at hj
    split_ifs at hj with hroom hfree hskip
    · exact absurd hj List.not_mem_nil
    · obtain rfl := List.mem_singleton.mp hj
      omega
    · rcases List.mem_cons.mp hj with rfl | hj
      · omega
      · have hin := ih (i + 1) room j hj
        omega
    · rcases List.mem_cons.mp hj with rfl | hj
      · omega
      · have hin := ih (i + 1) (room - 1) j hj
        omega

/-- A buffer with nothing but entries for long names. -/
def lfnBuffer : Buffer := fun _ => fatAttrLfn

/-- Nothing is taken from it, and everything is looked at. -/
theorem scanLoop_lfn (n i room : ℕ) (hroom : room ≠ 0) :
    scanLoop lfnBuffer n i room = ⟨List.range' i n, [], false⟩ := by
  induction n generalizing i with
  | zero => rfl
  | succ n ih =>
    have hfirst : ¬lfnBuffer (32 * i) = 0x00 := by
      show ¬fatAttrLfn = 0
      decide
    unfold scanLoop
    rw [if_neg hroom, if_neg hfirst, if_pos (.inr rfl), ih]
    rfl

theorem readDirLoop_looked (stack : ℕ → Buffer) (fuel k : ℕ) (c : UInt32) (room : ℕ) :
    ∀ i ∈ (readDirLoop fs stack fuel k c room).looked, i < fs.clusterBytes / 32 := by
  induction fuel generalizing k c room with
  | zero => exact fun i hi => absurd hi List.not_mem_nil
  | succ fuel ih =>
    intro i hi
    have hscan := scanLoop_looked (fatReadCluster fs c (stack k)).2 (fs.bytesPerCluster.toNat / 32) 0 room i
    rw [Nat.zero_add] at hscan
    unfold readDirLoop at hi
    split_ifs at hi with hgo
    · dsimp only at hi
      split_ifs at hi with hended
      · exact (hscan hi).2
      · rcases List.mem_append.mp hi with hi | hi
        · exact (hscan hi).2
        · exact ih _ _ _ i hi
    · exact absurd hi List.not_mem_nil

theorem dir_in_buffer_iff (hbytes : 512 ∣ fs.clusterBytes) (dirCluster : UInt32) (max : ℤ) :
    DirInBuffer fs dirCluster max ↔ DirWhen fs dirCluster max := by
  obtain ⟨u, hu⟩ := hbytes
  unfold DirInBuffer DirWhen fatReadDir
  by_cases hmax : max ≤ 0
  · refine iff_of_true (fun stack fuel i hi => ?_) (.inr (.inl hmax))
    rw [if_pos hmax] at hi
    exact absurd hi List.not_mem_nil
  simp only [if_neg hmax]
  constructor
  · intro hin
    by_contra hnot
    obtain ⟨hbig, hnot⟩ := not_or.mp hnot
    obtain ⟨-, hcluster⟩ := not_or.mp hnot
    have hroom : max.toNat ≠ 0 := by omega
    have hgo : dirCluster ≥ 2 ∧ max.toNat > 0 := ⟨UInt32.not_lt.mp hcluster, by omega⟩
    -- the first round looks at every entry
    have hlooked : 128 ∈ (readDirLoop fs (fun _ => lfnBuffer) 1 0 dirCluster max.toNat).looked := by
      unfold readDirLoop
      rw [if_pos hgo, fatReadCluster_buffer]
      dsimp only
      rw [scanLoop_lfn _ _ _ hroom, if_neg Bool.false_ne_true]
      refine List.mem_append_left _ (List.mem_range'_1.mpr ⟨Nat.zero_le _, ?_⟩)
      show 128 < 0 + fs.clusterBytes / 32
      omega
    have hle := hin (fun _ => lfnBuffer) 1 128 hlooked
    omega
  · rintro (hsmall | hc | hcluster) stack fuel i hi
    · have hlt := readDirLoop_looked stack fuel 0 dirCluster max.toNat i hi
      omega
    · exact absurd hc hmax
    · cases fuel with
      | zero => exact absurd hi List.not_mem_nil
      | succ fuel =>
        have hstop : ¬(dirCluster ≥ 2 ∧ max.toNat > 0) := fun hgo => UInt32.not_lt.mpr hgo.1 hcluster
        unfold readDirLoop at hi
        rw [if_neg hstop] at hi
        exact absurd hi List.not_mem_nil

theorem readDirLoop_done (stack : ℕ → Buffer) (n k : ℕ) (c : UInt32) (room : ℕ)
    (hleaves : (fatGetNextCluster fs)^[n] c < 2) : (readDirLoop fs stack (n + 1) k c room).done = true := by
  induction n generalizing k c room with
  | zero =>
    have hstop : ¬(c ≥ 2 ∧ room > 0) := fun hgo => UInt32.not_lt.mpr hgo.1 hleaves
    unfold readDirLoop
    rw [if_neg hstop]
  | succ n ih =>
    unfold readDirLoop
    split_ifs with hgo
    · dsimp only
      split_ifs
      · rfl
      · exact ih _ _ _ hleaves
    · rfl

/-- Round a cycle, nothing is ever taken from such buffers. -/
theorem readDirLoop_cycle (fuel k : ℕ) (c : UInt32) (room : ℕ) (hroom : room ≠ 0)
    (hcycle : ∀ n, ¬(fatGetNextCluster fs)^[n] c < 2) :
    (readDirLoop fs (fun _ => lfnBuffer) fuel k c room).done = false := by
  induction fuel generalizing k c with
  | zero => rfl
  | succ fuel ih =>
    have hgo : c ≥ 2 ∧ room > 0 := ⟨UInt32.not_lt.mp (hcycle 0), Nat.pos_of_ne_zero hroom⟩
    unfold readDirLoop
    rw [if_pos hgo, fatReadCluster_buffer]
    dsimp only
    rw [scanLoop_lfn _ _ _ hroom, if_neg Bool.false_ne_true]
    exact ih _ _ fun n => hcycle (n + 1)

theorem dir_ends_iff (dirCluster : UInt32) (max : ℤ) : DirEnds fs dirCluster max ↔ max ≤ 0 ∨ Leaves fs dirCluster := by
  unfold DirEnds fatReadDir
  by_cases hmax : max ≤ 0
  · refine iff_of_true (fun stack => ⟨0, ?_⟩) (.inl hmax)
    rw [if_pos hmax]
  simp only [if_neg hmax]
  constructor
  · intro hends
    by_contra hnot
    obtain ⟨-, hcycle⟩ := not_or.mp hnot
    obtain ⟨fuel, hdone⟩ := hends fun _ => lfnBuffer
    rw [readDirLoop_cycle fuel 0 dirCluster _ (by omega) fun n hlow => hcycle ⟨n, hlow⟩] at hdone
    cases hdone
  · rintro (hc | ⟨n, hleaves⟩) stack
    · exact absurd hc hmax
    · exact ⟨n + 1, readDirLoop_done stack n 0 dirCluster _ hleaves⟩

/-- Of a mounted volume: a chain is read exactly as far as it goes if and only if no more is asked for, or nothing, or
from far behind it; a buffer is not left if and only if the clusters fit into it, or what is asked for; and a
directory is read to an end if and only if its chain has one. -/
theorem fat_reads_iff (fs : FatFs) (hmounted : Mounted fs) :
    (∀ start cs offset size, ChainOf fs start cs → (ReadOk fs start cs offset size ↔ ReadWhen fs cs offset size)) ∧
    (∀ start offset size, FileInBuffer fs start offset size ↔ FileWhen fs start offset size) ∧
    (∀ dirCluster max, DirEnds fs dirCluster max ↔ max ≤ 0 ∨ Leaves fs dirCluster) ∧
    ∀ dirCluster max, DirInBuffer fs dirCluster max ↔ DirWhen fs dirCluster max := by
  obtain ⟨hpos, hdvd⟩ := mounted_bytes hmounted
  exact ⟨fun _ _ offset size hchain => read_ok_iff hpos hchain offset size, file_in_buffer_iff hpos, dir_ends_iff,
    dir_in_buffer_iff hdvd⟩

/-- A volume with sectors and clusters of 512 bytes, and a file of one cluster. -/
def oneClusterBpb : Bpb := ⟨512, 1, 1, 1, 16, 100, 1, 0, fun _ => 0⟩

def oneClusterCache : Mem := store (fun _ => 0) 3 0xFFF 2

def oneCluster : FatFs := layout oneClusterBpb oneClusterCache

theorem oneCluster_mounted : Mounted oneCluster := ⟨oneClusterBpb, true, some oneClusterCache, rfl⟩

theorem oneCluster_chain : ChainOf oneCluster 2 [2] :=
  ⟨0xFFF, ⟨by decide, by unfold IsCluster; decide⟩, rfl, ⟨by decide, by decide⟩, rfl⟩

theorem fat_reads_one : (ReadOk oneCluster 2 [2] 0 512 ↔ ReadWhen oneCluster [2] 0 512) ∧
    (DirEnds oneCluster 2 5 ↔ (5 : ℤ) ≤ 0 ∨ Leaves oneCluster 2) :=
  have h := fat_reads_iff oneCluster oneCluster_mounted
  ⟨h.1 2 [2] 0 512 oneCluster_chain, h.2.2.1 2 5⟩

/-- Of the file of 512 bytes, 600 can be read. -/
theorem fat_reads_beyond : ¬∀ fs, Mounted fs →
    (∀ start cs offset size, ChainOf fs start cs → ReadOk fs start cs offset size) ∧
    (∀ start offset size, FileInBuffer fs start offset size) ∧
    (∀ dirCluster max, DirEnds fs dirCluster max) ∧ ∀ dirCluster max, DirInBuffer fs dirCluster max := by
  intro h
  have hok := (h oneCluster oneCluster_mounted).1 2 [2] 0 600 oneCluster_chain
  have hwhen := (read_ok_iff (by decide) oneCluster_chain 0 600).mp hok
  unfold ReadWhen at hwhen
  exact absurd hwhen (by decide)

end Fat
