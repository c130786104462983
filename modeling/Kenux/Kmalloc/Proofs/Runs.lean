import Kenux.Kmalloc.Proofs.Objects

/-!
# Every reachable state

The zones and the sizes of the caches stay as they were set up, and that is all that the results need: blocks,
marks and lists may be in any state.
-/

namespace Kmalloc

open Buddy Slab Run
open Function (update_self update_of_ne)

variable {k k' k'' : Kernel} {c i fuel : ℕ} {size ptr : UInt64}

/-! ## What every step keeps -/

structure Keeps (k k' : Kernel) : Prop where
  sys : SteadySystem k.sys k'.sys
  kmallocCaches : k'.kmallocCaches = k.kmallocCaches
  cacheTable : ∀ c, fixed (k'.cacheTable c) = fixed (k.cacheTable c)

theorem Keeps.refl : Keeps k k := ⟨.refl, rfl, fun _ => rfl⟩

theorem Keeps.trans (h : Keeps k k') (h' : Keeps k' k'') : Keeps k k'' :=
  ⟨h.sys.trans h'.sys, h'.kmallocCaches.trans h.kmallocCaches, fun c => (h'.cacheTable c).trans (h.cacheTable c)⟩

theorem MarksOnly.keeps (h : MarksOnly k k') : Keeps k k' :=
  ⟨h.sys, h.kmallocCaches, fun c => by rw [h.cacheTable]⟩

theorem setSys_only {sys : System} (h : SteadySystem k.sys sys) : MarksOnly k { k with sys := sys } := ⟨h, rfl, rfl, rfl⟩

theorem setSlabs_keeps {s : Slab.State} (h : fixed s.cache = fixed (k.cacheTable c)) : Keeps k (k.setSlabs c s) := by
  refine ⟨.refl, rfl, fun c' => ?_⟩
  show fixed (Function.update k.cacheTable c s.cache c') = _
  by_cases hc : c' = c
  · rw [hc, update_self, h]
  · rw [update_of_ne hc]

theorem allocPagesVirt_only (k : Kernel) (order : ℕ) : MarksOnly k (allocPagesVirt k order).2 := by
  have hsteady := (allocPages_steady k.sys order).1
  unfold allocPagesVirt
  generalize allocPages k.sys order = r at hsteady ⊢
  obtain ⟨_ | ⟨i, p⟩, sys⟩ := r
  · exact setSys_only hsteady
  · exact setSys_only hsteady

/-- The pages of a new slab. -/
structure NewSlab (k k' : Kernel) (c : ℕ) (slab : UInt64) : Prop where
  only : MarksOnly k k'
  taken : ∃ i p, (allocPages k.sys (k.cacheTable c).slabOrder).1 = some (i, p) ∧ slab = pageToVirt p
  marked : ∀ j < 2 ^ (k.cacheTable c).slabOrder, ∀ p, k.page (slab + UInt64.ofNat j * 4096) = some p → Marked k' p c

theorem newPages_spec (k : Kernel) (c : ℕ) : NewSlab k (newPages k c).2 c (newPages k c).1 ∧ (newPages k c).1 ≠ 0 ∨
    (newPages k c).1 = 0 ∧ MarksOnly k (newPages k c).2 ∧
      ∀ i p, (allocPages k.sys (k.cacheTable c).slabOrder).1 = some (i, p) → pageToVirt p = 0 := by
  have honly := allocPagesVirt_only k (k.cacheTable c).slabOrder
  have hfst : (allocPagesVirt k (k.cacheTable c).slabOrder).1 = 0 ∧
      (∀ i p, (allocPages k.sys (k.cacheTable c).slabOrder).1 = some (i, p) → pageToVirt p = 0) ∨
      (allocPagesVirt k (k.cacheTable c).slabOrder).1 ≠ 0 ∧ ∃ i p, (allocPages k.sys (k.cacheTable c).slabOrder).1 =
        some (i, p) ∧ (allocPagesVirt k (k.cacheTable c).slabOrder).1 = pageToVirt p := by
    unfold allocPagesVirt
    generalize allocPages k.sys (k.cacheTable c).slabOrder = r
    obtain ⟨_ | ⟨i, p⟩, sys⟩ := r
    · exact .inl ⟨rfl, fun i p h => by cases h⟩
    · by_cases h0 : pageToVirt p = 0
      · refine .inl ⟨h0, fun j q h => ?_⟩
        obtain ⟨-, rfl⟩ := Prod.mk.inj (Option.some.inj h)
        exact h0
      · exact .inr ⟨h0, i, p, rfl, rfl⟩
  have hnew : newPages k c = if (allocPagesVirt k (k.cacheTable c).slabOrder).1 = 0 then
        (0, (allocPagesVirt k (k.cacheTable c).slabOrder).2)
      else ((allocPagesVirt k (k.cacheTable c).slabOrder).1, (List.range (2 ^ (k.cacheTable c).slabOrder)).foldl
        (markPage c (allocPagesVirt k (k.cacheTable c).slabOrder).1) (allocPagesVirt k (k.cacheTable c).slabOrder).2) := rfl
  rw [hnew]
  generalize allocPagesVirt k (k.cacheTable c).slabOrder = r at honly hfst
  obtain ⟨slab, k₁⟩ := r
  dsimp only at honly hfst ⊢
  rcases hfst with ⟨h0, hnone⟩ | ⟨h0, i, p, hsome, heq⟩
  · rw [if_pos h0]
    exact .inr ⟨rfl, honly, hnone⟩
  · rw [if_neg h0]
    have hspec : MarksOnly k₁ ((List.range (2 ^ (k.cacheTable c).slabOrder)).foldl (markPage c slab) k₁) ∧ _ :=
      markPages_spec (List.range (2 ^ (k.cacheTable c).slabOrder)) k₁
    obtain ⟨hmarks, hall⟩ := hspec
    refine .inl ⟨⟨honly.trans hmarks, ⟨i, p, hsome, heq⟩, fun j hj q hq => hall q (.inr ⟨j, List.mem_range.mpr hj, ?_⟩)⟩, h0⟩
    rwa [page_congr honly.sys]

theorem kmemCacheAlloc_keeps (k : Kernel) (c : ℕ) : Keeps k (kmemCacheAlloc k c).2 := by
  have hnew : MarksOnly k (newPages k c).2 := by
    rcases newPages_spec k c with ⟨h, -⟩ | ⟨-, h, -⟩
    · exact h.only
    · exact h
  unfold kmemCacheAlloc
  split_ifs
  · exact hnew.keeps.trans (setSlabs_keeps kmemCacheAlloc_fixed)
  · exact setSlabs_keeps kmemCacheAlloc_fixed

theorem kmalloc_keeps (k : Kernel) (size : UInt64) : Keeps k (kmalloc k size).2 := by
  unfold kmalloc
  split_ifs
  · exact .refl
  · exact (allocPagesVirt_only k _).keeps
  · cases k.kmallocCaches (kmallocIdx size) with
    | none => exact .refl
    | some c => exact kmemCacheAlloc_keeps k c

theorem kmemCacheFree_keeps (h : kmemCacheFree fuel k c ptr = some k') : Keeps k k' := by
  obtain ⟨s, hs, rfl⟩ := Option.map_eq_some_iff.mp h
  exact setSlabs_keeps (kmemCacheFree_fixed hs)

theorem kfree_keeps (h : kfree fuel k ptr = some k') : Keeps k k' := by
  unfold kfree at h
  split_ifs at h
  · rw [Option.some.inj h]
    exact .refl
  · cases hpage : k.page ptr with
    | none =>
      rw [hpage] at h
      rw [Option.some.inj h]
      exact .refl
    | some p =>
      rw [hpage] at h
      dsimp only at h
      split_ifs at h
      · cases hcache : k.slabCache p with
        | none =>
          rw [hcache] at h
          rw [Option.some.inj h]
          exact .refl
        | some c =>
          rw [hcache] at h
          exact kmemCacheFree_keeps h
      · obtain rfl := Option.some.inj h
        exact (setSys_only (freePagesVirt_steady ..)).keeps

theorem step_keeps {op : Op} (h : step k op = some k') : Keeps k k' := by
  cases op with
  | kmalloc size =>
    obtain rfl := Option.some.inj h
    exact kmalloc_keeps k size
  | kfree fuel ptr => exact kfree_keeps h
  | allocPages order =>
    obtain rfl := Option.some.inj h
    exact (setSys_only (allocPages_steady ..).1).keeps
  | freePages page =>
    obtain rfl := Option.some.inj h
    exact (setSys_only (freePages_steady ..)).keeps
  | write a v =>
    obtain rfl := Option.some.inj h
    exact ⟨.refl, rfl, fun _ => rfl⟩

/-! ## After `slab_init` -/

/-- What `kmem_cache_create` makes of the size `2 ^ i`. -/
def sizesOf (i : ℕ) : UInt32 × UInt32 × ℕ := (1 <<< UInt32.ofNat i, 1 <<< UInt32.ofNat (13 - i), 1)

structure Sane (k : Kernel) : Prop where
  laid : Laid k.sys
  initialized : k.sys.initialized = true
  caches : ∀ i, 3 ≤ i → i ≤ kmallocShiftHigh → ∃ c, k.kmallocCaches i = some c ∧ fixed (k.cacheTable c) = sizesOf i

theorem Sane.keeps (h : Sane k) (hk : Keeps k k') : Sane k' := by
  refine ⟨h.laid.steady hk.sys, hk.sys.initialized.trans h.initialized, fun i hlo hhi => ?_⟩
  obtain ⟨c, hc, hfixed⟩ := h.caches i hlo hhi
  exact ⟨c, by rw [hk.kmallocCaches, hc], (hk.cacheTable c).trans hfixed⟩

theorem kmemCacheCreate_power : ∀ n < 9, (kmemCacheCreate (UInt32.ofNat n) (1 <<< UInt32.ofNat (3 + n))
    (1 <<< UInt32.ofNat (3 + n))).map fixed = some (sizesOf (3 + n)) := by
  decide +kernel

/-- The caches after some rounds of `slab_init`. -/
theorem initCaches_spec (hn : k.cacheCount = 0) : ∀ n ≤ 9, ((List.range' 3 n).foldl initCache k).sys = k.sys ∧
    ((List.range' 3 n).foldl initCache k).cacheCount = n ∧ ∀ j < n,
      ((List.range' 3 n).foldl initCache k).kmallocCaches (3 + j) = some j ∧
      fixed (((List.range' 3 n).foldl initCache k).cacheTable j) = sizesOf (3 + j) := by
  intro n
  induction n with
  | zero => exact fun _ => ⟨rfl, hn, fun j hj => absurd hj (Nat.not_lt_zero j)⟩
  | succ n ih =>
    intro hle
    obtain ⟨hsys, hcount, hcaches⟩ := ih (Nat.le_of_succ_le hle)
    obtain ⟨cache, hcreate, hfixed⟩ := Option.map_eq_some_iff.mp (kmemCacheCreate_power n hle)
    rw [List.range'_1_concat, List.foldl_append]
    generalize (List.range' 3 n).foldl initCache k = k₁ at hsys hcount hcaches ⊢
    have hround : initCache k₁ (3 + n) = { k₁ with
        cacheTable := Function.update k₁.cacheTable n cache
        cacheCount := n + 1
        kmallocCaches := Function.update k₁.kmallocCaches (3 + n) (some n) } := by
      unfold initCache
      rw [hcount, hcreate]
    show (initCache k₁ (3 + n)).sys = _ ∧ _
    rw [List.foldl_cons, List.foldl_nil, hround]
    refine ⟨hsys, rfl, fun j hj => ?_⟩
    rcases Nat.lt_succ_iff_lt_or_eq.mp hj with hlt | rfl
    · have hne : 3 + j ≠ 3 + n := by omega
      show Function.update k₁.kmallocCaches (3 + n) _ (3 + j) = _ ∧ fixed (Function.update k₁.cacheTable n cache j) = _
      rw [update_of_ne hne, update_of_ne (Nat.ne_of_lt hlt)]
      exact hcaches j hlt
    · show Function.update k₁.kmallocCaches (3 + j) _ (3 + j) = _ ∧ fixed (Function.update k₁.cacheTable j cache j) = _
      rw [update_self, update_self]
      exact ⟨rfl, hfixed⟩

theorem slabInit_sane (hl : Laid k.sys) (hinit : k.sys.initialized = true) : Sane (slabInit k) := by
  obtain ⟨hsys, -, hcaches⟩ :=
    initCaches_spec (k := { k with cacheTable := fun _ => zeroCache, cacheCount := 0 }) rfl 9 le_rfl
  have hrounds : kmallocShiftHigh - 2 = 9 := rfl
  unfold slabInit
  rw [hrounds]
  generalize (List.range' 3 9).foldl initCache _ = k₁ at hsys hcaches ⊢
  refine ⟨hsys ▸ hl, by rw [hsys]; exact hinit, fun i hlo hhi => ?_⟩
  obtain ⟨j, rfl⟩ : ∃ j, i = 3 + j := ⟨i - 3, by omega⟩
  unfold kmallocShiftHigh at hhi
  exact ⟨j, hcaches j (by omega)⟩

/-! ## `kmalloc` of few bytes -/

theorem sizesOf_spec : ∀ i ≤ 11, 3 ≤ i → (sizesOf i).1.toNat = 2 ^ i ∧ 1 ≤ (sizesOf i).2.1.toNat ∧
    ((sizesOf i).2.1.toNat - 1) * (sizesOf i).1.toNat < 8192 := by
  decide

/-- The cache that a small size is taken from. -/
theorem Sane.cache_of_size (h : Sane k) (hsize : ¬size > (1 : UInt64) <<< 11) :
    ∃ c, k.kmallocCaches (kmallocIdx size) = some c ∧ size.toNat ≤ (k.cacheTable c).objSize.toNat ∧
      1 ≤ (k.cacheTable c).objsPerSlab.toNat ∧ (k.cacheTable c).slabOrder = 1 ∧
      ((k.cacheTable c).objsPerSlab.toNat - 1) * (k.cacheTable c).objSize.toNat < 8192 := by
  have hle : size.toNat ≤ 1 * 2 ^ (3 + (kmallocShiftHigh - 3)) := UInt64.le_iff_toNat_le.mp (UInt64.not_lt.mp hsize)
  obtain ⟨hlo, hhi, henough⟩ := shiftLoop_spec 1 size.toNat (kmallocShiftHigh - 3) 3
  have hidx : kmallocIdx size ≤ 11 := hhi
  obtain ⟨c, hc, hfixed⟩ := h.caches (kmallocIdx size) hlo hhi
  obtain ⟨hobj, hpos, hbytes⟩ := sizesOf_spec _ hidx hlo
  rw [← hfixed] at hobj hpos hbytes
  refine ⟨c, hc, ?_, hpos, congrArg (fun f : UInt32 × UInt32 × ℕ => f.2.2) hfixed, hbytes⟩
  have hobj : (k.cacheTable c).objSize.toNat = 2 ^ kmallocIdx size := hobj
  have hsmall := henough hle
  rw [Nat.one_mul] at hsmall
  rw [hobj]
  exact hsmall

/-- An object that comes from a slab there is. -/
theorem kmemCacheAlloc_old (h : k.lacksSlab c = false) :
    nextObject k c = some (kmemCacheAlloc k c).1 ∧ (kmemCacheAlloc k c).2.sys = k.sys ∧
      (kmemCacheAlloc k c).2.slabCache = k.slabCache := by
  have hor : (k.slabs c).cache.head .part ≠ 0 ∨ (k.slabs c).cache.head .empty ≠ 0 := by
    unfold Kernel.lacksSlab at h
    rw [Bool.and_eq_false_iff, decide_eq_false_iff_not, decide_eq_false_iff_not] at h
    exact h
  have hfst : (Slab.kmemCacheAlloc (k.slabs c) 0).1 = _ := kmemCacheAlloc_fst
  rw [if_neg (takeSlab_ne hor)] at hfst
  unfold nextObject kmemCacheAlloc
  rw [h]
  dsimp only
  refine ⟨?_, rfl, rfl⟩
  rw [if_neg Bool.false_ne_true, if_neg Bool.false_ne_true]
  exact congrArg (fun a => some (UInt64.ofNat a)) hfst.symm

/-- An object that comes from a new slab, or none. -/
theorem kmemCacheAlloc_none_or_new (h : k.lacksSlab c = true) (hobjs : 1 ≤ (k.cacheTable c).objsPerSlab.toNat) :
    (kmemCacheAlloc k c).1 = 0 ∧ nextObject k c = none ∨
      ∃ slab k₁, NewSlab k k₁ c slab ∧ nextObject k c = some (kmemCacheAlloc k c).1 ∧
        (kmemCacheAlloc k c).1 = slab + UInt64.ofNat
          (((k.cacheTable c).objsPerSlab.toNat - 1) * (k.cacheTable c).objSize.toNat) ∧
        (kmemCacheAlloc k c).2.sys = k₁.sys ∧ (kmemCacheAlloc k c).2.slabCache = k₁.slabCache := by
  have hheads : (k.cacheTable c).head .part = 0 ∧ (k.cacheTable c).head .empty = 0 := by
    unfold Kernel.lacksSlab at h
    rw [Bool.and_eq_true, decide_eq_true_iff, decide_eq_true_iff] at h
    exact h
  unfold nextObject kmemCacheAlloc
  rw [if_pos h, if_pos h]
  dsimp only
  rcases newPages_spec k c with ⟨hnew, h0⟩ | ⟨h0, honly, hnone⟩
  · refine .inr ⟨_, _, hnew, ?_⟩
    obtain ⟨i, p, hsome, heq⟩ := hnew.taken
    generalize newPages k c = r at hnew h0 heq ⊢
    obtain ⟨slab, k₁⟩ := r
    dsimp only at hnew h0 heq ⊢
    have hslabs : k₁.slabs c = k.slabs c := by
      unfold Kernel.slabs
      rw [hnew.only.mem, hnew.only.cacheTable]
    have hne : slab.toNat ≠ 0 := fun hz => h0 (UInt64.toNat_inj.mp hz)
    have hfst : (Slab.kmemCacheAlloc (k.slabs c) slab.toNat).1 = _ := kmemCacheAlloc_new hheads.1 hheads.2 hne hobjs
    rw [hslabs]
    have hptr : UInt64.ofNat (Slab.kmemCacheAlloc (k.slabs c) slab.toNat).1 = slab + UInt64.ofNat
        (((k.cacheTable c).objsPerSlab.toNat - 1) * (k.cacheTable c).objSize.toNat) := by
      rw [hfst]
      refine UInt64.toNat_inj.mp ?_
      rw [UInt64.toNat_add, UInt64.toNat_ofNat', UInt64.toNat_ofNat']
      show (slab.toNat + _) % 2 ^ 64 % 2 ^ 64 = _
      rw [Nat.mod_mod, ← Nat.add_mod_mod]
      rfl
    refine ⟨?_, hptr, rfl, rfl⟩
    rw [hsome, Option.bind_some, if_neg (heq ▸ h0), hptr, heq]
  · refine .inl ⟨?_, ?_⟩
    · generalize newPages k c = r at h0 honly ⊢
      obtain ⟨slab, k₁⟩ := r
      dsimp only at h0 honly ⊢
      subst h0
      have hfst : (Slab.kmemCacheAlloc (k₁.slabs c) 0).1 = _ := kmemCacheAlloc_fst
      have htake : (takeSlab (k₁.slabs c) 0).1 = 0 := by
        unfold takeSlab
        have hcache : (k₁.slabs c).cache = k.cacheTable c := by
          unfold Kernel.slabs
          rw [honly.cacheTable]
        rw [hcache, if_neg (not_not.mpr hheads.1), if_neg (not_not.mpr hheads.2)]
        rfl
      rw [if_pos htake] at hfst
      exact congrArg UInt64.ofNat hfst
    · cases hr : (allocPages k.sys (k.cacheTable c).slabOrder).1 with
      | none => rfl
      | some a => exact if_pos (hnone a.1 a.2 hr)

theorem sized_small (h : Sane k) (hne : size ≠ 0) (hsmall : ¬size > (1 : UInt64) <<< 11) :
    Sized k size ↔ SizedWhen k size := by
  have hpos : 0 < size.toNat := by
    refine Nat.pos_of_ne_zero fun hz => hne (UInt64.toNat_inj.mp hz)
  have hle : size.toNat ≤ 2048 := UInt64.le_iff_toNat_le.mp (UInt64.not_lt.mp hsmall)
  obtain ⟨c, hc, hbytes, hobjs, horder, hspan⟩ := h.cache_of_size hsmall
  have hcall : kmalloc k size = kmemCacheAlloc k c := by
    unfold kmalloc
    rw [if_neg hne, if_neg hsmall, hc]
  have hnext : nextBlock k size = (nextObject k c).map (.object c) := by
    unfold nextBlock
    rw [if_neg hne, if_neg hsmall, hc]
    rfl
  have hkeeps := kmemCacheAlloc_keeps k c
  have hobj : ∀ c', ((kmemCacheAlloc k c).2.cacheTable c').objSize = (k.cacheTable c').objSize := fun c' =>
    congrArg (fun f : UInt32 × UInt32 × ℕ => f.1) (hkeeps.cacheTable c')
  have hpages : (kmemCacheAlloc k c).2.page (kmemCacheAlloc k c).1 = k.page (kmemCacheAlloc k c).1 :=
    page_congr hkeeps.sys
  unfold Sized SizedWhen
  rw [hcall, hnext]
  cases hlacks : k.lacksSlab c with
  | false =>
    obtain ⟨hobject, hsys, hmarks⟩ := kmemCacheAlloc_old hlacks
    rw [hobject]
    generalize kmemCacheAlloc k c = r at hobj hpages hsys hmarks ⊢
    obtain ⟨ptr, k'⟩ := r
    dsimp only at hobj hpages hsys hmarks ⊢
    have hslab : ∀ p, k'.isSlab p = k.isSlab p := fun p => by
      unfold Kernel.isSlab
      rw [hsys]
    have hmarked : ∀ p, k'.isSlab p = true → k'.page ptr = some p → ptr ≠ 0 →
        (size ≤ ksize k' ptr ↔ ∃ c', k.slabCache p = some c' ∧ size.toNat ≤ (k.cacheTable c').objSize.toNat) := by
      intro p hp hpage hptr
      rw [size_le_ksize_slab hptr hpage hp hpos, hmarks]
      exact exists_congr fun c' => by rw [hobj]
    constructor
    · intro hsized b hb
      obtain rfl := Option.some.inj hb
      intro hptr
      obtain ⟨-, -, -, -, hsize⟩ := hsized hptr
      cases hpage : k.page ptr with
      | none =>
        rw [ksize_zero_of_none (hpages.trans hpage)] at hsize
        exact absurd (UInt64.le_iff_toNat_le.mp hsize) (Nat.not_le.mpr hpos)
      | some p =>
        refine ⟨p, rfl, fun _ hp => ?_⟩
        exact (hmarked p ((hslab p).trans hp) (hpages.trans hpage) hptr).mp hsize
    · intro hwhen hptr
      obtain ⟨p, hpage, hfor⟩ := hwhen _ rfl hptr
      refine ⟨_, rfl, rfl, hbytes, ?_⟩
      by_cases hp : k.isSlab p = true
      · exact (hmarked p ((hslab p).trans hp) (hpages.trans hpage) hptr).mpr (hfor hlacks hp)
      · have hpow : 0 < 2 ^ min (k'.sys.heap p).order maxOrder := Nat.two_pow_pos _
        rw [UInt64.le_iff_toNat_le, ksize_page hptr (hpages.trans hpage) (by rwa [hslab])]
        omega
  | true =>
    rcases kmemCacheAlloc_none_or_new hlacks hobjs with ⟨hnull, hnone⟩ | ⟨slab, k₁, hnew, hobject, hptr, hsys, hmarks⟩
    · rw [hnone]
      exact iff_of_true (fun h => absurd hnull h) fun b hb => by cases hb
    · rw [hobject]
      obtain ⟨i, q, -, hslab⟩ := hnew.taken
      have halign : slab.toNat % 4096 = 0 := by
        rw [hslab, pageToVirt_div]
        exact Nat.mul_mod_left _ 4096
      have hwithin : k.page (kmemCacheAlloc k c).1 = k.page _ :=
        (congrArg k.page hptr).trans (page_within halign (Nat.lt_trans hspan (by decide)))
      generalize ((k.cacheTable c).objsPerSlab.toNat - 1) * (k.cacheTable c).objSize.toNat = off at hspan hwithin
      have hmark : ∀ p, k.page (kmemCacheAlloc k c).1 = some p → Marked k₁ p c := by
        intro p hp
        refine hnew.marked (off / 4096) ?_ p (hwithin.symm.trans hp)
        rw [horder]
        omega
      generalize kmemCacheAlloc k c = r at hobj hpages hsys hmarks hmark ⊢
      obtain ⟨ptr, k'⟩ := r
      dsimp only at hobj hpages hsys hmarks hmark ⊢
      constructor
      · intro hsized b hb
        obtain rfl := Option.some.inj hb
        intro hne
        obtain ⟨-, -, -, -, hsize⟩ := hsized hne
        cases hpage : k.page ptr with
        | none =>
          rw [ksize_zero_of_none (hpages.trans hpage)] at hsize
          exact absurd (UInt64.le_iff_toNat_le.mp hsize) (Nat.not_le.mpr hpos)
        | some p => exact ⟨p, rfl, fun hfalse => absurd (hfalse.symm.trans hlacks) Bool.false_ne_true⟩
      · intro hwhen hne
        obtain ⟨p, hpage, -⟩ := hwhen _ rfl hne
        obtain ⟨hslab, hcache⟩ := hmark p hpage
        refine ⟨_, rfl, rfl, hbytes, ?_⟩
        have hslab' : k'.isSlab p = true := by
          unfold Kernel.isSlab at hslab ⊢
          rwa [hsys]
        refine (size_le_ksize_slab hne (hpages.trans hpage) hslab' hpos).mpr ⟨c, ?_, ?_⟩
        · rw [hmarks]
          exact hcache
        · rw [hobj]
          exact hbytes

/-! ## `kfree` of an object -/

theorem freeObjs_rehome {s : Slab.State} {slab : ℕ} : (slabRehome s slab).cache.freeObjs = s.cache.freeObjs := by
  have hadd : ∀ (s : Slab.State) (l : SlabList), (slabAdd s l slab).cache.freeObjs = s.cache.freeObjs := by
    intro s l
    unfold slabAdd
    dsimp only
    split_ifs <;> rfl
  have hremove : ∀ (s : Slab.State) (l : SlabList), (slabRemove s l slab).cache.freeObjs = s.cache.freeObjs := by
    intro s l
    unfold slabRemove
    dsimp only
    split_ifs <;> rfl
  unfold slabRehome
  dsimp only
  split_ifs
  · rw [hadd, hremove]
    rfl
  · rfl

/-- The cache counts no more free objects than before. -/
theorem not_givenBack_object (h : k'.cacheTable c = k.cacheTable c) : ¬GivenBack k k' (.object c ptr) := by
  rintro ⟨slab, -, -, heq⟩
  have hfree : (k'.slabs c).cache.freeObjs = (slabRehome _ slab).cache.freeObjs :=
    congrArg (fun s : Slab.State => s.cache.freeObjs) heq
  rw [freeObjs_rehome] at hfree
  have hcount : (k'.cacheTable c).freeObjs = (k.cacheTable c).freeObjs + 1 := hfree
  rw [h] at hcount
  exact absurd (left_eq_add.mp hcount) (by decide)

theorem setSlabs_slabs {s : Slab.State} : (k.setSlabs c s).slabs c = s := by
  unfold Kernel.slabs Kernel.setSlabs
  dsimp only
  rw [update_self]

/-- The search finds the slab, or the cache stays as it is. -/
theorem kmemCacheFree_object (hptr : ptr ≠ 0) : (∃ fuel k', kmemCacheFree fuel k c ptr = some k' ∧
    GivenBack k k' (.object c ptr)) ↔ OnSomeList (k.slabs c) ptr.toNat [.full, .part, .empty] := by
  have hne : ptr.toNat ≠ 0 := fun hz => hptr (UInt64.toNat_inj.mp hz)
  have hcall : ∀ fuel, kmemCacheFree fuel k c ptr = ((searchLists (k.slabs c) ptr.toNat fuel [.full, .part, .empty]).map
      fun slab => if slab = 0 then k.slabs c else slabRehome (pushObj (k.slabs c) slab ptr.toNat) slab).map
        (k.setSlabs c) := by
    intro fuel
    unfold kmemCacheFree Slab.kmemCacheFree
    rw [if_neg hne]
  rw [← searchLists_iff]
  constructor
  · rintro ⟨fuel, k', hfree, hback⟩
    rw [hcall] at hfree
    obtain ⟨s, hs, rfl⟩ := Option.map_eq_some_iff.mp hfree
    obtain ⟨slab, hsearch, rfl⟩ := Option.map_eq_some_iff.mp hs
    refine ⟨fuel, slab, fun h0 => ?_, hsearch⟩
    rw [if_pos h0] at hback
    refine not_givenBack_object ?_ hback
    exact update_self ..
  · rintro ⟨fuel, slab, h0, hsearch⟩
    refine ⟨fuel, _, (hcall fuel).trans (by rw [hsearch]; rfl), slab, h0, searchLists_holds _ hsearch h0, ?_⟩
    rw [setSlabs_slabs]
    exact if_neg h0

theorem freed_object (hptr : ptr ≠ 0) :
    (∃ fuel k', kfree fuel k ptr = some k' ∧ GivenBack k k' (.object c ptr)) ↔ FreedWhen k (.object c ptr) := by
  have hcases (fuel : ℕ) : kfree fuel k ptr = _ := if_neg hptr
  show _ ↔ ∃ page, k.page ptr = some page ∧ k.isSlab page = true ∧ k.slabCache page = some c ∧
    OnSomeList (k.slabs c) ptr.toNat [.full, .part, .empty]
  cases hpage : k.page ptr with
  | none =>
    refine iff_of_false ?_ (by simp)
    rintro ⟨fuel, k', hcall, hback⟩
    rw [hcases, hpage] at hcall
    obtain rfl := Option.some.inj hcall
    exact not_givenBack_object rfl hback
  | some p =>
    by_cases hslab : k.isSlab p = true
    · cases hcache : k.slabCache p with
      | none =>
        refine iff_of_false ?_ ?_
        · rintro ⟨fuel, k', hcall, hback⟩
          rw [hcases, hpage] at hcall
          dsimp only at hcall
          rw [if_pos hslab, hcache] at hcall
          obtain rfl := Option.some.inj hcall
          exact not_givenBack_object rfl hback
        · rintro ⟨q, hq, -, hc, -⟩
          obtain rfl := Option.some.inj hq
          rw [hcache] at hc
          cases hc
      | some c' =>
        have hcall : ∀ fuel, kfree fuel k ptr = kmemCacheFree fuel k c' ptr := by
          intro fuel
          rw [hcases, hpage]
          dsimp only
          rw [if_pos hslab, hcache]
        simp only [hcall]
        by_cases hc : c' = c
        · subst hc
          rw [kmemCacheFree_object hptr]
          constructor
          · exact fun hon => ⟨p, rfl, hslab, hcache, hon⟩
          · rintro ⟨q, -, -, -, hon⟩
            exact hon
        · refine iff_of_false ?_ ?_
          · rintro ⟨fuel, k', hfree, hback⟩
            obtain ⟨s, -, rfl⟩ := Option.map_eq_some_iff.mp hfree
            exact not_givenBack_object (update_of_ne (Ne.symm hc) ..) hback
          · rintro ⟨q, hq, -, hcq, -⟩
            obtain rfl := Option.some.inj hq
            exact hc (Option.some.inj (hcache.symm.trans hcq))
    · refine iff_of_false ?_ ?_
      · rintro ⟨fuel, k', hcall, hback⟩
        rw [hcases, hpage] at hcall
        dsimp only at hcall
        rw [if_neg hslab] at hcall
        obtain rfl := Option.some.inj hcall
        exact not_givenBack_object rfl hback
      · rintro ⟨q, hq, hs, -⟩
        obtain rfl := Option.some.inj hq
        exact hslab hs

/-- A live block of either kind. -/
theorem Sane.freed_iff (h : Sane k) {b : Block} (hlive : Live k b) :
    (∃ fuel k', kfree fuel k b.ptr = some k' ∧ GivenBack k k' b) ↔ FreedWhen k b := by
  cases b with
  | pages i p order => exact freed_pages h.laid h.initialized hlive
  | object c ptr => exact freed_object hlive

/-! ## Runs -/

/-- The state after `buddy_global_init` and `slab_init`. -/
def startOf (k : Kernel) (heap : Heap) (baseAddr totalSize : UInt64) : Kernel :=
  slabInit { k with sys := buddyGlobalInit (bootSystem heap) baseAddr totalSize }

theorem startOf_sane (k : Kernel) (heap : Heap) (baseAddr totalSize : UInt64) :
    Sane (startOf k heap baseAddr totalSize) := by
  obtain ⟨hinv, -, hinit⟩ := buddyGlobalInit_spec heap baseAddr totalSize
  exact slabInit_sane hinv.toLaid hinit

theorem reach_sane (k₀ : Kernel) (heap : Heap) (baseAddr totalSize : UInt64)
    (hk : Reach step (fun _ _ => True) (startOf k₀ heap baseAddr totalSize) k) : Sane k :=
  hk.invariant (startOf_sane k₀ heap baseAddr totalSize) fun _ _ _ h _ hst => h.keeps (step_keeps hst)

/-- A machine with two free pages below 16 MiB and one above. -/
def twoZones : Kernel :=
  startOf ⟨bootSystem blankHeap, fun _ => none, fun _ => 0, fun _ => zeroCache, 0, fun _ => none⟩ blankHeap
    0xFFD000 0x1002000

end Kmalloc
