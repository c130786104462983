import Kenux.Ext3.Model

/-!
# Bitmaps and counts of groups

A call changes one bit and one count. As long as the counts match, a group that is searched has a clear bit among those
of its blocks, so what stands behind them in the bitmap does not matter.
-/

namespace Ext3

open Bitmap

variable {v : Volume} {fs : Ext3Fs} {blockCount block : UInt32} {g h i : ℕ} {m : Bytes} {n : UInt16} {t t' : Traced}

section Changes

theorem put_freeBlocks (v : Volume) (g h : ℕ) (m : Bytes) (n : UInt16) :
    (v.put g m n).freeBlocks h = if h = g then n else v.freeBlocks h := by
  unfold Volume.put Volume.freeBlocks
  by_cases heq : h = g
  · rw [if_pos heq, heq]
    dsimp only
    rw [Function.update_self]
  · rw [if_neg heq]
    dsimp only
    rw [Function.update_of_ne heq]

theorem put_blockBitmap (v : Volume) (g h : ℕ) (m : Bytes) (n : UInt16) :
    ((v.put g m n).fs.groupDesc h).blockBitmap = (v.fs.groupDesc h).blockBitmap := by
  unfold Volume.put
  by_cases heq : h = g
  · rw [heq]
    dsimp only
    rw [Function.update_self]
  · dsimp only
    rw [Function.update_of_ne heq]

theorem put_bitmap (hgeo : Geometry v.fs) (hg : g < v.fs.groupCount.toNat) (hh : h < v.fs.groupCount.toNat) :
    (v.put g m n).bitmap h = if h = g then m else v.bitmap h := by
  unfold Volume.bitmap
  rw [put_blockBitmap]
  unfold Volume.put
  dsimp only
  by_cases heq : h = g
  · rw [if_pos heq, heq, Function.update_self]
  · rw [if_neg heq, Function.update_of_ne fun hsame => heq (hgeo.apart h hh g hg hsame)]

theorem Geometry.put (hgeo : Geometry v.fs) : Geometry (v.put g m n).fs := by
  refine ⟨hgeo.perGroup, hgeo.bitmapFits, fun h hh k hk heq => hgeo.apart h hh k hk ?_⟩
  rwa [put_blockBitmap, put_blockBitmap] at heq

end Changes

section Blocks

/-- A block is counted from the first one, group by group. -/
theorem block_parts (hle : ¬block < fs.firstDataBlock) :
    block.toNat = fs.firstDataBlock.toNat + groupOf fs block * fs.blocksPerGroup.toNat + bitOf fs block := by
  have hle := UInt32.not_lt.mp hle
  have hsub := UInt32.toNat_sub_of_le _ _ hle
  have hnat := UInt32.le_iff_toNat_le.mp hle
  have hdiv := Nat.div_add_mod' (block - fs.firstDataBlock).toNat fs.blocksPerGroup.toNat
  unfold groupOf bitOf
  rw [UInt32.toNat_div, UInt32.toNat_mod, Nat.add_assoc, hdiv, hsub]
  omega

theorem bitOf_lt (hpos : 0 < fs.blocksPerGroup.toNat) : bitOf fs block < fs.blocksPerGroup.toNat := by
  unfold bitOf
  rw [UInt32.toNat_mod]
  exact Nat.mod_lt _ hpos

/-- Different blocks have different groups or bits. -/
theorem block_inj {block' : UInt32} (hle : ¬block < fs.firstDataBlock) (hle' : ¬block' < fs.firstDataBlock)
    (hg : groupOf fs block = groupOf fs block') (hi : bitOf fs block = bitOf fs block') : block = block' := by
  rw [← UInt32.toNat_inj, block_parts hle, block_parts hle', hg, hi]

theorem lt_existing (hpos : 0 < fs.blocksPerGroup.toNat) (hle : ¬block < fs.firstDataBlock) (hlt : block < blockCount) :
    bitOf fs block < existing fs blockCount (groupOf fs block) := by
  have hparts := block_parts hle
  have hbit : bitOf fs block < fs.blocksPerGroup.toNat := bitOf_lt hpos
  have hnat := UInt32.lt_iff_toNat_lt.mp hlt
  unfold existing
  omega

/-- The block of a bit that exists. -/
theorem block_of (hi : i < existing fs blockCount g) :
    ∃ block, block = UInt32.ofNat g * fs.blocksPerGroup + UInt32.ofNat i + fs.firstDataBlock ∧
      ¬block < fs.firstDataBlock ∧ block < blockCount ∧ groupOf fs block = g ∧ bitOf fs block = i := by
  have hcount := blockCount.toNat_lt
  unfold existing at hi
  obtain ⟨hi, hlt⟩ := Nat.lt_min.mp hi
  have hg : g * fs.blocksPerGroup.toNat < 2 ^ 32 := by omega
  have hg' : g < 2 ^ 32 := Nat.lt_of_le_of_lt (Nat.le_mul_of_pos_right g (by omega)) hg
  have hsum : (UInt32.ofNat g * fs.blocksPerGroup + UInt32.ofNat i).toNat = i + g * fs.blocksPerGroup.toNat := by
    rw [UInt32.toNat_add, UInt32.toNat_mul, UInt32.toNat_ofNat_of_lt' hg',
      UInt32.toNat_ofNat_of_lt' (show i < 2 ^ 32 by omega), Nat.mod_eq_of_lt hg, Nat.mod_eq_of_lt (by omega),
      Nat.add_comm]
  have hnat : (UInt32.ofNat g * fs.blocksPerGroup + UInt32.ofNat i + fs.firstDataBlock).toNat =
      i + g * fs.blocksPerGroup.toNat + fs.firstDataBlock.toNat := by
    rw [UInt32.toNat_add, hsum, Nat.mod_eq_of_lt (by omega)]
  refine ⟨_, rfl, ?_, ?_, ?_, ?_⟩
  · rw [UInt32.lt_iff_toNat_lt, hnat]
    omega
  · rw [UInt32.lt_iff_toNat_lt, hnat]
    omega
  · unfold groupOf
    rw [UInt32.add_sub_cancel, UInt32.toNat_div, hsum, Nat.add_mul_div_right _ _ (by omega), Nat.div_eq_of_lt hi,
      Nat.zero_add]
  · unfold bitOf
    rw [UInt32.add_sub_cancel, UInt32.toNat_mod, hsum, Nat.add_mul_mod_self_right, Nat.mod_eq_of_lt hi]

end Blocks

section Calls

/-- A search finds a clear bit of a block that exists, or changes nothing. -/
theorem allocFrom_spec (hgeo : Geometry v.fs) (hmatch : Matches blockCount v) (buffers : ℕ → Bool) {gs : List ℕ}
    (hgs : ∀ g ∈ gs, g < v.fs.groupCount.toNat) :
    allocFrom buffers v gs = (0, v) ∨ ∃ g i, g < v.fs.groupCount.toNat ∧ i < existing v.fs blockCount g ∧
      test (v.bitmap g) i = false ∧ v.freeBlocks g ≠ 0 ∧
      allocFrom buffers v gs = (UInt32.ofNat g * v.fs.blocksPerGroup + UInt32.ofNat i + v.fs.firstDataBlock,
        v.put g (set (v.bitmap g) i) (v.freeBlocks g - 1)) := by
  induction gs with
  | nil => exact Or.inl rfl
  | cons g gs ih =>
    have hrest := ih fun h hh => hgs h (List.mem_cons_of_mem g hh)
    have hg := hgs g List.mem_cons_self
    unfold allocFrom
    by_cases hfree : v.freeBlocks g = 0
    · rw [if_pos hfree]
      exact hrest
    · rw [if_neg hfree]
      by_cases hbuffer : buffers g
      · rw [if_neg (not_not.mpr hbuffer)]
        dsimp only
        rw [Nat.min_eq_right hgeo.bitmapFits]
        cases hfind : findFreeFrom (v.bitmap g) 0 v.fs.blocksPerGroup.toNat with
        | none => exact hrest
        | some i =>
          have hcount := hmatch g hg
          have hne : (v.freeBlocks g).toNat ≠ 0 := fun hzero => hfree (UInt16.toNat_inj.mp hzero)
          obtain ⟨-, -, hclear⟩ := findFreeFrom_some hfind
          have hexists : i < existing v.fs blockCount g := by
            by_contra hge
            have hall := count_eq fun j hj => findFreeFrom_least hfind (Nat.zero_le j)
              (Nat.lt_of_lt_of_le hj (Nat.not_lt.mp hge))
            omega
          exact Or.inr ⟨g, i, hg, hexists, hclear, hfree, rfl⟩
      · rw [if_pos hbuffer]
        exact hrest

/-- One bit and one count change together. -/
theorem Matches.put (hgeo : Geometry v.fs) (hmatch : Matches blockCount v) (hg : g < v.fs.groupCount.toNat)
    (hput : n.toNat + count m (existing v.fs blockCount g) = existing v.fs blockCount g) :
    Matches blockCount (v.put g m n) := by
  intro h hh
  have hh : h < v.fs.groupCount.toNat := hh
  rw [put_bitmap hgeo hg hh, put_freeBlocks]
  by_cases heq : h = g
  · rw [if_pos heq, if_pos heq, heq]
    exact hput
  · rw [if_neg heq, if_neg heq]
    exact hmatch h hh

/-- The blocks that were returned lie in groups, and their bits are set. -/
structure Inv (t : Traced) : Prop where
  geometry : Geometry t.volume.fs
  inside : ∀ block ∈ t.owned, ¬block < t.volume.fs.firstDataBlock ∧
    groupOf t.volume.fs block < t.volume.fs.groupCount.toNat
  taken : ∀ block ∈ t.owned, test (t.volume.bitmap (groupOf t.volume.fs block)) (bitOf t.volume.fs block) = true

theorem put_taken (hgeo : Geometry v.fs) (hg : g < v.fs.groupCount.toNat)
    (hin : groupOf v.fs block < v.fs.groupCount.toNat)
    (htaken : test (v.bitmap (groupOf v.fs block)) (bitOf v.fs block) = true)
    (hm : groupOf v.fs block = g → test m (bitOf v.fs block) = true) :
    test ((v.put g m n).bitmap (groupOf v.fs block)) (bitOf v.fs block) = true := by
  rw [put_bitmap hgeo hg hin]
  by_cases heq : groupOf v.fs block = g
  · rw [if_pos heq]
    exact hm heq
  · rw [if_neg heq]
    exact htaken

theorem alloc_step (hok : AllocOk blockCount t) (hinv : Inv t) {buffers : ℕ → Bool}
    (hst : step t (.alloc buffers) = some t') : Inv t' ∧ AllocOk blockCount t' := by
  obtain ⟨hgeo, hinside, htaken⟩ := hinv
  obtain ⟨honce, hexist, hcounted, hsame⟩ := hok
  have hst : { t with
      volume := (ext3AllocBlock buffers t.volume).2
      owned := if (ext3AllocBlock buffers t.volume).1 = 0 then t.owned
        else (ext3AllocBlock buffers t.volume).1 :: t.owned } = t' := Option.some.inj hst
  unfold ext3AllocBlock at hst
  have hgs : ∀ g ∈ List.range t.volume.fs.groupCount.toNat, g < t.volume.fs.groupCount.toNat :=
    fun g hg => List.mem_range.mp hg
  rcases allocFrom_spec hgeo hcounted buffers hgs with hnone | ⟨g, i, hg, hi, hclear, hfree, hsome⟩
  · rw [hnone] at hst
    obtain rfl := hst
    exact ⟨⟨hgeo, hinside, htaken⟩, honce, hexist, hcounted, hsame⟩
  · obtain ⟨block, hblock, hle, hlt, hgroup, hbit⟩ := block_of hi
    rw [hsome, ← hblock] at hst
    dsimp only at hst
    have hkept : ∀ b ∈ t.owned, test ((t.volume.put g (set (t.volume.bitmap g) i) (t.volume.freeBlocks g - 1)).bitmap
        (groupOf t.volume.fs b)) (bitOf t.volume.fs b) = true := by
      intro b hb
      refine put_taken hgeo hg (hinside b hb).2 (htaken b hb) fun heq => ?_
      rw [test_set, ← heq, htaken b hb, Bool.or_true]
    have hcounted' : Matches blockCount (t.volume.put g (set (t.volume.bitmap g) i) (t.volume.freeBlocks g - 1)) := by
      refine hcounted.put hgeo hg ?_
      have hcount := hcounted g hg
      have hset := count_set hi hclear
      have hpos : 1 ≤ t.volume.freeBlocks g := by
        rw [UInt16.le_iff_toNat_le]
        exact Nat.pos_of_ne_zero fun hzero => hfree (UInt16.toNat_inj.mp hzero)
      have hone : (1 : UInt16).toNat = 1 := rfl
      have hnat := UInt16.le_iff_toNat_le.mp hpos
      rw [UInt16.toNat_sub_of_le _ _ hpos, hset]
      omega
    obtain rfl := hst
    by_cases hzero : block = 0
    · rw [if_pos hzero]
      exact ⟨⟨hgeo.put, hinside, hkept⟩, honce, hexist, hcounted', hsame⟩
    · rw [if_neg hzero]
      refine ⟨⟨hgeo.put, fun b hb => ?_, fun b hb => ?_⟩, List.nodup_cons.mpr ⟨fun hmem => ?_, honce⟩, fun b hb => ?_,
        hcounted', hsame⟩
      · rcases List.mem_cons.mp hb with rfl | hb
        · exact ⟨hle, hgroup.symm ▸ hg⟩
        · exact hinside b hb
      · rcases List.mem_cons.mp hb with rfl | hb
        · change test (Volume.bitmap _ (groupOf t.volume.fs b)) (bitOf t.volume.fs b) = true
          rw [put_bitmap hgeo hg (hgroup.symm ▸ hg), if_pos hgroup, test_set, hbit, decide_eq_true rfl, Bool.true_or]
        · exact hkept b hb
      · have htest := htaken block hmem
        rw [hgroup, hbit, hclear] at htest
        exact Bool.false_ne_true htest
      · rcases List.mem_cons.mp hb with rfl | hb
        · exact hlt
        · exact hexist b hb

/-- A free without its buffer changes nothing. -/
theorem free_eq (hle : ¬block < v.fs.firstDataBlock) (hg : groupOf v.fs block < v.fs.groupCount.toNat) (buffer : Bool) :
    ext3FreeBlock buffer v block = if buffer then v.put (groupOf v.fs block)
      (clear (v.bitmap (groupOf v.fs block)) (bitOf v.fs block)) (v.freeBlocks (groupOf v.fs block) + 1) else v := by
  unfold ext3FreeBlock
  rw [if_neg hle]
  dsimp only
  rw [if_neg (Nat.not_le.mpr hg)]
  cases buffer with
  | true => rfl
  | false => rfl

theorem free_step (hok : AllocOk blockCount t) (hinv : Inv t) {buffer : Bool}
    (hst : step t (.free block buffer) = some t') :
    Inv t' ∧ (AllocOk blockCount t' ↔ FreeOk t (.free block buffer)) := by
  obtain ⟨hgeo, hinside, htaken⟩ := hinv
  obtain ⟨honce, hexist, hcounted, hsame⟩ := hok
  have hst : (if block ∈ t.owned then
      some { t with volume := ext3FreeBlock buffer t.volume block, owned := t.owned.erase block }
    else if IsFree t.volume block then
      some { t with
        volume := ext3FreeBlock buffer t.volume block
        doubleFrees := (t.volume, ext3FreeBlock buffer t.volume block) :: t.doubleFrees }
    else none) = some t' := hst
  by_cases howned : block ∈ t.owned
  · rw [if_pos howned] at hst
    obtain rfl := Option.some.inj hst
    obtain ⟨hle, hg⟩ := hinside block howned
    rw [free_eq hle hg]
    have hinside' : ∀ b ∈ t.owned.erase block, ¬b < t.volume.fs.firstDataBlock ∧
        groupOf t.volume.fs b < t.volume.fs.groupCount.toNat := fun b hb => hinside b (List.mem_of_mem_erase hb)
    have hexist' : ∀ b ∈ t.owned.erase block, b < blockCount := fun b hb => hexist b (List.mem_of_mem_erase hb)
    cases buffer with
    | false =>
      refine ⟨⟨hgeo, hinside', fun b hb => htaken b (List.mem_of_mem_erase hb)⟩, iff_of_true ?_ fun hno => ?_⟩
      · exact ⟨honce.erase block, hexist', hcounted, hsame⟩
      · cases hno
    | true =>
      have hbit := lt_existing hgeo.perGroup hle (hexist block howned)
      have hcount := hcounted _ hg
      have hclear := count_clear hbit (htaken block howned)
      have hone : (1 : UInt16).toNat = 1 := rfl
      have hadd := UInt16.toNat_add (t.volume.freeBlocks (groupOf t.volume.fs block)) 1
      refine ⟨⟨hgeo.put, hinside', fun b hb => ?_⟩, ?_, ?_⟩
      · obtain ⟨hne, hmem⟩ := (honce.mem_erase_iff).mp hb
        refine put_taken hgeo hg (hinside b hmem).2 (htaken b hmem) fun heq => ?_
        have hother : bitOf t.volume.fs block ≠ bitOf t.volume.fs b := fun hsame =>
          hne (block_inj (hinside b hmem).1 hle heq hsame.symm)
        rw [test_clear, decide_eq_false hother, ← heq, htaken b hmem]
        rfl
      · intro hok _
        refine ⟨howned, ?_⟩
        have hcount' := hok.counted _ hg
        change (Volume.freeBlocks (Volume.put _ _ _ _) _).toNat + count (Volume.bitmap (Volume.put _ _ _ _) _)
          (existing t.volume.fs blockCount _) = existing t.volume.fs blockCount _ at hcount'
        rw [put_bitmap hgeo hg hg, put_freeBlocks, if_pos rfl, if_pos rfl] at hcount'
        omega
      · intro hfits
        obtain ⟨-, hlt⟩ := hfits rfl
        refine ⟨honce.erase block, hexist', hcounted.put hgeo hg ?_, hsame⟩
        omega
  · rw [if_neg howned] at hst
    split_ifs at hst with hfree
    obtain rfl := Option.some.inj hst
    obtain ⟨hle, hg, hclear⟩ := hfree
    rw [free_eq hle hg]
    cases buffer with
    | false =>
      refine ⟨⟨hgeo, hinside, htaken⟩, iff_of_true ⟨honce, hexist, hcounted, fun p hp => ?_⟩ fun hno => ?_⟩
      · rcases List.mem_cons.mp hp with rfl | hp
        · rfl
        · exact hsame p hp
      · cases hno
    | true =>
      refine ⟨⟨hgeo.put, hinside, fun b hb => ?_⟩, iff_of_false (fun hok => ?_) fun hyes => howned (hyes rfl).1⟩
      · refine put_taken hgeo hg (hinside b hb).2 (htaken b hb) fun heq => ?_
        have hset := htaken b hb
        rw [heq] at hset
        have hother : bitOf t.volume.fs block ≠ bitOf t.volume.fs b := by
          intro hsame
          rw [hsame, hset] at hclear
          cases hclear
        rw [test_clear, decide_eq_false hother, hset]
        rfl
      · have heq := congrArg (fun v => v.freeBlocks (groupOf t.volume.fs block)) (hok.same _ List.mem_cons_self)
        dsimp only at heq
        rw [if_pos rfl, put_freeBlocks, if_pos rfl] at heq
        have hone : (1 : UInt16).toNat = 1 := rfl
        have hnat := congrArg UInt16.toNat heq
        rw [UInt16.toNat_add, hone] at hnat
        omega

end Calls

section Results

/-- On a volume whose counts match, a run keeps its promise exactly if every free that gets its buffer is of a block
that was returned and not freed since, in a group whose count does not overflow. -/
theorem ext3_alloc_iff (hgeo : Geometry v.fs) (hmatch : Matches blockCount v) {inputs : List Call}
    (hrun : Run.run step (startOf v) inputs = some t) :
    Run.Always step (AllocOk blockCount) (startOf v) inputs ↔ Run.Meets step FreeOk (startOf v) inputs := by
  refine Run.always_iff_meets (I := Inv) (fun s input s' hok hinv hst => ?_) ?_ ?_ hrun
  · cases input with
    | alloc buffers =>
      obtain ⟨hinv', hok'⟩ := alloc_step hok hinv hst
      exact ⟨hinv', iff_of_true hok' trivial⟩
    | free block buffer => exact free_step hok hinv hst
  · exact ⟨List.nodup_nil, fun b hb => absurd hb List.not_mem_nil, hmatch, fun p hp => absurd hp List.not_mem_nil⟩
  · exact ⟨hgeo, fun b hb => absurd hb List.not_mem_nil, fun b hb => absurd hb List.not_mem_nil⟩

/-- Two groups of eight blocks, of which the second has only four; all are free. -/
def smallVolume : Volume where
  fs := {
    groupDesc := fun g => ⟨UInt32.ofNat (100 + g), if g = 0 then 8 else 4⟩
    blockSize := 1024
    blocksPerGroup := 8
    groupCount := 2
    firstDataBlock := 1 }
  blocks := fun _ _ => 0

theorem smallVolume_geometry : Geometry smallVolume.fs := by
  refine ⟨by decide, by decide, fun g hg h hh => ?_⟩
  have hg : g < 2 := hg
  have hh : h < 2 := hh
  decide +revert

theorem smallVolume_matches : Matches 13 smallVolume := by
  intro g hg
  have hg : g < 2 := hg
  decide +revert

/-- Two blocks are returned, and the first of them is freed. -/
theorem ext3_alloc_iff_two : Run.Always step (AllocOk 13) (startOf smallVolume)
    [.alloc fun _ => true, .alloc fun _ => true, .free 1 true] := by
  obtain ⟨t, hrun⟩ : ∃ t, Run.run step (startOf smallVolume)
      [.alloc fun _ => true, .alloc fun _ => true, .free 1 true] = some t := ⟨_, rfl⟩
  refine (ext3_alloc_iff smallVolume_geometry smallVolume_matches hrun).mpr ⟨trivial, fun t₁ h₁ => ?_⟩
  obtain rfl := Option.some.inj h₁
  refine ⟨trivial, fun t₂ h₂ => ?_⟩
  obtain rfl := Option.some.inj h₂
  exact ⟨fun _ => by decide +kernel, fun _ _ => trivial⟩

/-- The second free of a block counts it once more. -/
theorem double_free_counted : ¬∀ inputs t, Run.run step (startOf smallVolume) inputs = some t →
    Run.Always step (AllocOk 13) (startOf smallVolume) inputs := by
  intro hall
  obtain ⟨t, hrun⟩ : ∃ t, Run.run step (startOf smallVolume)
      [.alloc fun _ => true, .free 1 true, .free 1 true] = some t := ⟨_, rfl⟩
  have hcounts : (Run.run step (startOf smallVolume) [.alloc fun _ => true, .free 1 true, .free 1 true]).map
      (fun t => t.doubleFrees.map fun p => (p.1.freeBlocks 0, p.2.freeBlocks 0)) = some [(8, 9)] := by
    decide +kernel
  rw [hrun] at hcounts
  have hlist : (t.doubleFrees.map fun p => (p.1.freeBlocks 0, p.2.freeBlocks 0)) = [(8, 9)] := Option.some.inj hcounts
  have hmem : (8, 9) ∈ t.doubleFrees.map fun p => (p.1.freeBlocks 0, p.2.freeBlocks 0) := by
    rw [hlist]
    exact List.mem_singleton_self _
  obtain ⟨p, hp, hpair⟩ := List.mem_map.mp hmem
  have hsame := ((hall _ t hrun).last hrun).same p hp
  obtain ⟨hbefore, hafter⟩ := Prod.mk.inj hpair
  rw [hsame, hafter] at hbefore
  exact absurd hbefore (by decide)

end Results

end Ext3
