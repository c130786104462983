import Kenux.Lib.Word
import Kenux.Slab.Model

/-!
# Where the objects of a slab lie

`objs_per_slab` objects fill two pages as far as they go, and the `slab_t` takes the last bytes of the
block without being counted. It lies apart from the objects exactly if they happen to leave it room.
-/

namespace Slab

open Memory

/-! ## The size of an object -/

section Size

/-- Clearing the lower `k` bits of a 32-bit word. -/
theorem toNat_and_not {x mask : UInt32} {k : ℕ} (hk : k < 32) (hmask : mask.toNat = 2 ^ k - 1) :
    (x &&& ~~~mask).toNat = x.toNat / 2 ^ k * 2 ^ k := by
  have hpow : (2 : ℕ) ^ (32 - k) * 2 ^ k = 2 ^ 32 := by
    rw [← Nat.pow_add]
    congr 1
    omega
  have hpos : 0 < 2 ^ k := Nat.two_pow_pos k
  have hones : UInt32.size - 1 - (2 ^ k - 1) = (2 ^ (32 - k) - 1) * 2 ^ k := by
    rw [Nat.sub_mul, hpow]
    unfold UInt32.size
    omega
  have hlt : x.toNat / 2 ^ k < 2 ^ (32 - k) := by
    apply Nat.div_lt_of_lt_mul
    rw [Nat.mul_comm, hpow]
    exact x.toNat_lt
  rw [UInt32.toNat_and, UInt32.toNat_not, hmask, hones, Word.nat_and_field, Nat.mod_eq_of_lt hlt]

theorem toNat_roundUp {size align : UInt32} {k : ℕ} (hsize : size.toNat ≤ 2 ^ 23)
    (halign : align.toNat = 2 ^ k) : ((size + align - 1) &&& ~~~(align - 1)).toNat =
      (size.toNat + align.toNat - 1) / align.toNat * align.toNat := by
  have hk : k < 32 := by
    have hlt := align.toNat_lt
    rw [halign] at hlt
    exact (Nat.pow_lt_pow_iff_right (by omega)).mp hlt
  have hle : 2 ^ k ≤ 2 ^ 31 := Nat.pow_le_pow_right (by omega) (by omega)
  have hpos : 0 < 2 ^ k := Nat.two_pow_pos k
  have hone : (1 : UInt32).toNat = 1 := rfl
  have hmask : (align - 1).toNat = 2 ^ k - 1 := by
    rw [UInt32.toNat_sub, halign, hone]
    omega
  have hsum : (size + align - 1).toNat = size.toNat + 2 ^ k - 1 := by
    rw [UInt32.toNat_sub, UInt32.toNat_add, halign, hone]
    omega
  rw [toNat_and_not hk hmask, hsum, halign]

/-- What `kmem_cache_create` stores of its arguments. -/
structure Sized (cache : Cache) (o : ℕ) : Prop where
  objSize : cache.objSize.toNat = o
  ge : 8 ≤ o
  objs : cache.objsPerSlab.toNat = max 1 (8192 / o)
  order : cache.slabOrder = slabOrder cache.objSize cache.objsPerSlab

variable {cacheCount size align : UInt32} {cache : Cache}

theorem kmemCacheCreate_sized (h : kmemCacheCreate cacheCount size align = some cache)
    (halign : align = 0 ∨ ∃ k, align.toNat = 2 ^ k) :
    Sized cache (objBytes size.toNat align.toNat) := by
  unfold kmemCacheCreate at h
  by_cases hsize : size = 0 ∨ size > pageSize <<< UInt32.ofNat buddyMaxOrder
  · rw [if_pos hsize] at h
    exact absurd h (by simp)
  rw [if_neg hsize] at h
  obtain ⟨-, hle⟩ := not_or.mp hsize
  have hle' : size.toNat ≤ 2 ^ 23 := UInt32.le_iff_toNat_le.mp (UInt32.not_lt.mp hle)
  dsimp only at h
  have hround : ∃ k, (if align = 0 then 8 else align).toNat = 2 ^ k := by
    rcases halign with rfl | ⟨k, hk⟩
    · exact ⟨3, rfl⟩
    · refine ⟨k, ?_⟩
      rw [if_neg, hk]
      rintro rfl
      exact absurd hk (Nat.two_pow_pos k).ne
  have hnat : (if align = 0 then 8 else align).toNat =
      if align.toNat = 0 then 8 else align.toNat := by
    by_cases hz : align = 0
    · rw [if_pos hz, hz]
      rfl
    · have hne : align.toNat ≠ 0 := fun hc => hz (UInt32.toNat_inj.mp hc)
      rw [if_neg hz, if_neg hne]
  obtain ⟨k, hk⟩ := hround
  have hval := toNat_roundUp hle' hk
  generalize (size + (if align = 0 then 8 else align) - 1) &&&
    ~~~((if align = 0 then 8 else align) - 1) = objSize at h hval
  have hobj : (if objSize < 8 then 8 else objSize).toNat = objBytes size.toNat align.toNat := by
    unfold objBytes
    dsimp only
    rw [← hnat, ← hval]
    have h8 : (8 : UInt32).toNat = 8 := rfl
    by_cases hlt : objSize < 8
    · rw [if_pos hlt]
      have hlt' := UInt32.lt_iff_toNat_lt.mp hlt
      omega
    · rw [if_neg hlt]
      have hge := UInt32.le_iff_toNat_le.mp (UInt32.not_lt.mp hlt)
      omega
  generalize (if objSize < 8 then 8 else objSize) = o at h hobj
  have hge : 8 ≤ objBytes size.toNat align.toNat := by
    unfold objBytes
    exact Nat.le_max_left ..
  split at h
  · cases h
  · cases h
    refine ⟨hobj, hge, ?_, rfl⟩
    have hdiv : (pageSize * 2 / o).toNat = 8192 / objBytes size.toNat align.toNat := by
      rw [UInt32.toNat_div, hobj]
      rfl
    dsimp only
    rw [← hdiv]
    split_ifs with hlt
    · have hlt' := UInt32.lt_iff_toNat_lt.mp hlt
      have h1 : (1 : UInt32).toNat = 1 := rfl
      omega
    · have hge' := UInt32.le_iff_toNat_le.mp (UInt32.not_lt.mp hlt)
      have h1 : (1 : UInt32).toNat = 1 := rfl
      omega

end Size

/-! ## The size of a block -/

section Block

variable {need : UInt32} {o r : ℕ} {cache : Cache}

theorem toNat_pages {order : ℕ} (h : order ≤ 11) :
    (pageSize <<< UInt32.ofNat order).toNat = 4096 * 2 ^ order := by
  have hlt : order < 2 ^ 32 := by omega
  have hle : 2 ^ order ≤ 2 ^ 11 := Nat.pow_le_pow_right (by omega) h
  have hpage : pageSize.toNat = 4096 := rfl
  have hmod : order % 32 = order := Nat.mod_eq_of_lt (by omega)
  rw [UInt32.toNat_shiftLeft, UInt32.toNat_ofNat_of_lt' hlt, hmod, Nat.shiftLeft_eq, hpage]
  exact Nat.mod_eq_of_lt (by omega)

/-- The order is the least whose pages hold `need` bytes, or the maximal one. -/
structure LeastOrder (need : ℕ) (r : ℕ) : Prop where
  le : r ≤ 11
  enough : r < 11 → need ≤ 4096 * 2 ^ r
  least : ∀ k < r, 4096 * 2 ^ k < need

theorem slabOrderLoop_spec (fuel : ℕ) : ∀ order, order + fuel = 11 →
    (∀ k < order, 4096 * 2 ^ k < need.toNat) →
      LeastOrder need.toNat (slabOrderLoop need fuel order) := by
  induction fuel with
  | zero =>
    intro order horder hleast
    exact ⟨by unfold slabOrderLoop; omega, fun h => by unfold slabOrderLoop at h; omega, hleast⟩
  | succ fuel ih =>
    intro order horder hleast
    have hpages : (pageSize <<< UInt32.ofNat order).toNat = 4096 * 2 ^ order := toNat_pages (by omega)
    unfold slabOrderLoop
    by_cases h : pageSize <<< UInt32.ofNat order < need
    · rw [if_pos h]
      refine ih (order + 1) (by omega) fun k hk => ?_
      rcases Nat.lt_succ_iff_lt_or_eq.mp hk with hlt | rfl
      · exact hleast k hlt
      · rw [← hpages]
        exact UInt32.lt_iff_toNat_lt.mp h
    · rw [if_neg h]
      refine ⟨by omega, fun _ => ?_, hleast⟩
      rw [← hpages]
      exact UInt32.le_iff_toNat_le.mp (UInt32.not_lt.mp h)

/-- The bytes of the objects of a slab. -/
theorem Sized.toNat_need (h : Sized cache o) :
    (cache.objSize * cache.objsPerSlab).toNat = max 1 (8192 / o) * o := by
  have hlt := cache.objSize.toNat_lt
  have hmul := Nat.div_mul_le_self 8192 o
  rw [h.objSize] at hlt
  rw [UInt32.toNat_mul, h.objSize, h.objs, Nat.mul_comm]
  refine Nat.mod_eq_of_lt ?_
  rcases Nat.le_total 1 (8192 / o) with hle | hle
  · rw [Nat.max_eq_right hle]
    omega
  · rw [Nat.max_eq_left hle, Nat.one_mul]
    omega

theorem Sized.leastOrder (h : Sized cache o) :
    LeastOrder (max 1 (8192 / o) * o) cache.slabOrder := by
  rw [h.order, ← h.toNat_need]
  exact slabOrderLoop_spec 11 0 rfl fun k hk => absurd hk (Nat.not_lt_zero k)

/-- Objects of at most two pages lie in a block of two pages. -/
theorem Sized.slabSize_small (h : Sized cache o) (ho : o ≤ 8192) :
    cache.slabSize = 8192 ∧ max 1 (8192 / o) * o + 8192 % o = 8192 := by
  have hge := h.ge
  have hpos : 1 ≤ 8192 / o := (Nat.one_le_div_iff (by omega)).mpr ho
  have hsum : 8192 / o * o + 8192 % o = 8192 := by
    rw [Nat.mul_comm]
    exact Nat.div_add_mod 8192 o
  have hmod : 8192 % o < o := Nat.mod_lt _ (by omega)
  have hmul : o ≤ 8192 / o * o := Nat.le_mul_of_pos_left o hpos
  have hleast := h.leastOrder
  rw [Nat.max_eq_right hpos] at hleast ⊢
  refine ⟨?_, hsum⟩
  have hone : cache.slabOrder = 1 := by
    have hne : cache.slabOrder ≠ 0 := by
      intro hz
      have hle := hleast.enough (by omega)
      rw [hz] at hle
      omega
    have hlt : ¬ 1 < cache.slabOrder := by
      intro hlt
      have hgt := hleast.least 1 hlt
      omega
    omega
  unfold Cache.slabSize
  rw [hone]
  rfl

/-- A larger object has a block of its own, of the least power of two or of the maximal order. -/
theorem Sized.slabSize_large (h : Sized cache o) (ho : 8192 < o) :
    cache.objsPerSlab.toNat = 1 ∧ LeastOrder o cache.slabOrder := by
  have hzero : 8192 / o = 0 := Nat.div_eq_of_lt ho
  have hleast := h.leastOrder
  have hobjs := h.objs
  rw [hzero] at hleast hobjs
  rw [Nat.max_eq_left (by omega)] at hleast hobjs
  rw [Nat.one_mul] at hleast
  exact ⟨hobjs, hleast⟩

/-- The objects leave the `slab_t` its bytes. -/
theorem Sized.room_iff (h : Sized cache o) :
    cache.objsPerSlab.toNat * o + sizeofSlab ≤ cache.slabSize ↔ LeavesRoom o := by
  unfold LeavesRoom
  by_cases ho : o ≤ 8192
  · obtain ⟨hsize, hsum⟩ := h.slabSize_small ho
    rw [if_pos ho, hsize, h.objs]
    omega
  · rw [if_neg ho]
    obtain ⟨hone, hleast⟩ := h.slabSize_large (by omega)
    have hpow : cache.slabSize = 2 ^ (12 + cache.slabOrder) := by
      rw [Nat.pow_add]
      rfl
    rw [hone, Nat.one_mul, hpow]
    have hle := hleast.le
    constructor
    · intro hroom
      have hne : cache.slabOrder ≠ 0 := by
        intro hz
        rw [hz] at hroom
        omega
      have hlt := hleast.least (cache.slabOrder - 1) (by omega)
      refine ⟨11 + cache.slabOrder, by omega, ?_, ?_⟩
      · have heq : 4096 * 2 ^ (cache.slabOrder - 1) = 2 ^ (11 + cache.slabOrder) := by
          rw [show (4096 : ℕ) = 2 ^ 12 from rfl, ← Nat.pow_add]
          congr 1
          omega
        rw [← heq]
        exact hlt
      · rw [show 11 + cache.slabOrder + 1 = 12 + cache.slabOrder by omega]
        exact hroom
    · rintro ⟨k, hk, hlt, hroom⟩
      -- a smaller order would hold the object or contradict the minimality of this one
      have hge : k + 1 ≤ 12 + cache.slabOrder := by
        by_contra hc
        have henough := hleast.enough (by omega)
        have hmono : 2 ^ (12 + cache.slabOrder) ≤ 2 ^ k := Nat.pow_le_pow_right (by omega) (by omega)
        rw [Nat.pow_add] at hmono
        omega
      have hmono : 2 ^ (k + 1) ≤ 2 ^ (12 + cache.slabOrder) := Nat.pow_le_pow_right (by omega) hge
      omega

end Block

/-! ## The layout -/

section Layout

variable {m : Mem} {cache : Cache} {pages o : ℕ}

theorem slabCreate_fst (h : (slabCreate m cache pages).1 ≠ 0) :
    (slabCreate m cache pages).1 = slabOf cache pages := by
  unfold slabCreate at h ⊢
  by_cases h0 : pages = 0
  · rw [if_pos h0] at h
    exact absurd rfl h
  · rw [if_neg h0]
    rfl

/-- The objects end where the object after the last one would be. -/
theorem objAt_end (i : ℕ) : objAt cache pages i + cache.objSize.toNat = objAt cache pages (i + 1) := by
  unfold objAt
  rw [Nat.succ_mul, Nat.add_assoc]

theorem objAt_mono {i j : ℕ} (h : i ≤ j) : objAt cache pages i ≤ objAt cache pages j :=
  Nat.add_le_add_left (Nat.mul_le_mul_right _ h) pages

theorem sizeofSlab_le : sizeofSlab ≤ cache.slabSize := by
  have hpos : 1 ≤ 2 ^ cache.slabOrder := Nat.one_le_two_pow
  unfold sizeofSlab Cache.slabSize
  omega

/-- With the objects below the `slab_t`, nothing overlaps. -/
theorem Sized.layout (h : Sized cache o)
    (hroom : cache.objsPerSlab.toNat * o + sizeofSlab ≤ cache.slabSize) :
    Layout cache pages (slabOf cache pages) := by
  have hend : ∀ i < cache.objsPerSlab.toNat,
      objAt cache pages i + cache.objSize.toNat ≤ slabOf cache pages := by
    intro i hi
    have hle : objAt cache pages (i + 1) ≤ objAt cache pages cache.objsPerSlab.toNat := objAt_mono hi
    rw [objAt_end]
    apply hle.trans
    unfold objAt slabOf
    rw [h.objSize]
    omega
  have hslab : slabOf cache pages + sizeofSlab = pages + cache.slabSize := by
    unfold slabOf
    omega
  refine ⟨fun i hi => ⟨Nat.le_add_right .., ?_⟩, ⟨Nat.le_add_right .., hslab.le⟩, fun i _ j _ hij => ?_,
    fun i hi => Or.inl (hend i hi), fun i hi m a v k ha hk b hb _ => ?_⟩
  · have hle := hend i hi
    omega
  · rcases Nat.lt_or_gt_of_ne hij with hlt | hlt
    · exact Or.inl ((objAt_end i).le.trans (objAt_mono hlt))
    · exact Or.inr ((objAt_end j).le.trans (objAt_mono hlt))
  · have hle := hend i hi
    exact store_other (Or.inr (by omega))

/-- If the last object ends before the `slab_t`, there is room for both. -/
theorem Sized.room_of_layout (h : Sized cache o) (hlay : Layout cache pages (slabOf cache pages)) :
    cache.objsPerSlab.toNat * o + sizeofSlab ≤ cache.slabSize := by
  have hpos : 1 ≤ cache.objsPerSlab.toNat := by
    rw [h.objs]
    exact Nat.le_max_left ..
  have hlast : cache.objsPerSlab.toNat - 1 < cache.objsPerSlab.toNat := by omega
  have hend : objAt cache pages (cache.objsPerSlab.toNat - 1) + cache.objSize.toNat = _ := objAt_end _
  rw [Nat.sub_add_cancel hpos] at hend
  have hinside := (hlay.objects _ hlast).2
  have hle : sizeofSlab ≤ cache.slabSize := sizeofSlab_le
  have hslab : slabOf cache pages + sizeofSlab = pages + cache.slabSize := by
    unfold slabOf
    omega
  have hge := h.ge
  have hsize := h.objSize
  have hval : objAt cache pages cache.objsPerSlab.toNat = pages + cache.objsPerSlab.toNat * o := by
    unfold objAt
    rw [hsize]
  rcases hlay.apart _ hlast with hbefore | hafter
  · omega
  · -- the `slab_t` takes the last bytes of the block, so no object follows it
    omega

/-- In every slab the objects and the `slab_t` are apart and inside the block exactly if the objects
leave the `slab_t` room. -/
theorem slab_layout_iff {cacheCount size align : UInt32}
    (halign : align = 0 ∨ ∃ k, align.toNat = 2 ^ k)
    (hcache : kmemCacheCreate cacheCount size align = some cache)
    (hslab : (slabCreate m cache pages).1 ≠ 0) :
    Layout cache pages (slabCreate m cache pages).1 ↔
      LeavesRoom (objBytes size.toNat align.toNat) := by
  have hsized := kmemCacheCreate_sized hcache halign
  rw [slabCreate_fst hslab, ← hsized.room_iff]
  exact ⟨hsized.room_of_layout, hsized.layout⟩

end Layout

/-- Objects of 72 bytes: 113 of them leave the last 56 bytes of two pages. -/
def cache72 : Cache := ⟨72, 8, 113, 1, fun _ => 0, 0, 0⟩

theorem slab_layout_72 : Layout cache72 4096 (slabCreate (fun _ => 0) cache72 4096).1 := by
  have hcache : kmemCacheCreate 0 72 8 = some cache72 := rfl
  refine (slab_layout_iff (Or.inr ⟨3, rfl⟩) hcache ?_).mpr ?_
  · unfold slabCreate
    simp
  · unfold LeavesRoom
    decide

/-- The last of 128 objects of 64 bytes covers the `slab_t`. -/
theorem slab_layout_overlap : ¬ ∀ (cacheCount size align : UInt32) (cache : Cache) (m : Mem) (pages : ℕ),
    (∃ k, align.toNat = 2 ^ k) → kmemCacheCreate cacheCount size align = some cache →
      (slabCreate m cache pages).1 ≠ 0 → Layout cache pages (slabCreate m cache pages).1 := by
  intro h
  have hne : (slabCreate (fun _ => 0) ⟨64, 64, 128, 1, fun _ => 0, 0, 0⟩ 4096).1 ≠ 0 := by
    unfold slabCreate
    simp
  have hcache : kmemCacheCreate 0 64 64 = some ⟨64, 64, 128, 1, fun _ => 0, 0, 0⟩ := rfl
  have hlay := h 0 64 64 _ (fun _ => 0) 4096 ⟨6, rfl⟩ hcache hne
  have hsized := kmemCacheCreate_sized hcache (Or.inr ⟨6, rfl⟩)
  rw [slabCreate_fst hne] at hlay
  exact absurd (hsized.room_of_layout hlay) (by decide)

end Slab
