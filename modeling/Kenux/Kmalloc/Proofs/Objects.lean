import Kenux.Kmalloc.Proofs.Pages
import Kenux.Slab.Proofs.FirstSlab

/-!
# Objects of a cache

The first object of a new slab is its last one, and the pages of the slab that are in the main zone are
marked. An object that is freed is found along the lists of its cache or not at all.
-/

namespace Kmalloc

open Buddy Slab Memory

/-! ## The sizes of a cache -/

/-- The fields of a cache that only `kmem_cache_create` sets. -/
def fixed (c : Cache) : UInt32 × UInt32 × ℕ := (c.objSize, c.objsPerSlab, c.slabOrder)

section Fixed

variable {s : Slab.State} {l : SlabList} {slab obj pages : ℕ}

theorem slabAdd_fixed : fixed (slabAdd s l slab).cache = fixed s.cache := by
  unfold slabAdd
  dsimp only
  split_ifs <;> rfl

theorem slabRemove_fixed : fixed (slabRemove s l slab).cache = fixed s.cache := by
  unfold slabRemove
  dsimp only
  split_ifs <;> rfl

theorem slabRehome_fixed : fixed (slabRehome s slab).cache = fixed s.cache := by
  unfold slabRehome
  dsimp only
  split_ifs
  · rw [slabAdd_fixed, slabRemove_fixed]
    rfl
  · rfl

theorem takeSlab_fixed : fixed (takeSlab s pages).2.cache = fixed s.cache := by
  unfold takeSlab
  split_ifs
  · rfl
  · dsimp only
    rw [slabAdd_fixed, slabRemove_fixed]
  · dsimp only
    split_ifs
    · rfl
    · exact slabAdd_fixed

theorem kmemCacheAlloc_fixed : fixed (Slab.kmemCacheAlloc s pages).2.cache = fixed s.cache := by
  have htake : fixed (takeSlab s pages).2.cache = fixed s.cache := takeSlab_fixed
  unfold Slab.kmemCacheAlloc
  dsimp only
  split_ifs
  · exact htake
  · dsimp only
    rw [slabRehome_fixed]
    exact htake
  · exact htake

theorem kmemCacheFree_fixed {t : Slab.State} {fuel : ℕ} (h : Slab.kmemCacheFree s obj fuel = some t) :
    fixed t.cache = fixed s.cache := by
  unfold Slab.kmemCacheFree at h
  split_ifs at h
  · rw [Option.some.inj h]
  · obtain ⟨slab, -, rfl⟩ := Option.map_eq_some_iff.mp h
    split_ifs
    · rfl
    · exact slabRehome_fixed

end Fixed

/-! ## The object that is handed out -/

section Alloc

variable {s : Slab.State} {pages : ℕ}

theorem kmemCacheAlloc_fst : (Slab.kmemCacheAlloc s pages).1 =
    if (takeSlab s pages).1 = 0 then 0 else readPtr (takeSlab s pages).2.mem ((takeSlab s pages).1 + offFreeList) := by
  unfold Slab.kmemCacheAlloc
  dsimp only
  split_ifs with h0 hobj
  · rfl
  · rfl
  · rfl

theorem takeSlab_ne (h : s.cache.head .part ≠ 0 ∨ s.cache.head .empty ≠ 0) : (takeSlab s pages).1 ≠ 0 := by
  unfold takeSlab
  split_ifs with hpart hempty
  · exact hpart
  · exact hempty
  · exact absurd h (by tauto)

/-- A new slab hands out its last object. -/
theorem kmemCacheAlloc_new (hpart : s.cache.head .part = 0) (hempty : s.cache.head .empty = 0) (h0 : pages ≠ 0)
    (hobjs : 1 ≤ s.cache.objsPerSlab.toNat) : (Slab.kmemCacheAlloc s pages).1 =
      (pages + (s.cache.objsPerSlab.toNat - 1) * s.cache.objSize.toNat) % 2 ^ 64 := by
  obtain ⟨m, -, hcreate⟩ := slabCreate_eq s.mem s.cache h0
  obtain ⟨n, hn⟩ : ∃ n, s.cache.objsPerSlab.toNat = n + 1 := ⟨s.cache.objsPerSlab.toNat - 1, by omega⟩
  rw [hn, linkObjs_succ, Nat.zero_add] at hcreate
  dsimp only at hcreate
  have hslab : slabOf s.cache pages ≠ 0 := by
    unfold slabOf
    omega
  generalize (linkObjs pages s.cache.objSize.toNat n 0 0 m).2 = m₁ at hcreate
  generalize (linkObjs pages s.cache.objSize.toNat n 0 0 m).1 = first at hcreate
  generalize writePtr m₁ (pages + n * s.cache.objSize.toNat) first = m₂ at hcreate
  have htake : takeSlab s pages = (slabOf s.cache pages, slabAdd ⟨writePtr m₂ (slabOf s.cache pages + offFreeList)
      (pages + n * s.cache.objSize.toNat), s.cache⟩ .part (slabOf s.cache pages)) := by
    unfold takeSlab
    rw [if_neg (not_not.mpr hpart), if_neg (not_not.mpr hempty), hcreate]
    exact if_neg hslab
  rw [kmemCacheAlloc_fst, htake, hn, Nat.add_sub_cancel]
  dsimp only
  rw [if_neg hslab]
  unfold slabAdd
  dsimp only
  rw [if_neg (not_not.mpr hpart)]
  have hread : ∀ (t : Slab.State) (off v : ℕ), off + 8 ≤ offFreeList →
      readPtr (t.write (slabOf s.cache pages + off) v).mem (slabOf s.cache pages + offFreeList) =
        readPtr t.mem (slabOf s.cache pages + offFreeList) := fun t off v hoff =>
    readPtr_write_apart (.inr (by omega))
  show readPtr ((Slab.State.write _ _ _).write _ _).mem _ = _
  rw [hread _ _ _ (by decide), hread _ _ _ (by decide)]
  exact load_store_same

end Alloc

/-! ## Marks -/

section Marks

variable {k : Kernel} {c p i : ℕ} {slab virt : UInt64}

/-- The page is marked as one of a slab of the cache. -/
def Marked (k : Kernel) (p c : ℕ) : Prop := k.isSlab p = true ∧ k.slabCache p = some c

theorem markPage_sys : SteadySystem k.sys (markPage c slab k i).sys := by
  unfold markPage
  cases k.page (slab + UInt64.ofNat i * 4096) with
  | none => exact .refl
  | some p =>
    refine ⟨rfl, fun _ => rfl, fun q => ?_⟩
    show (Function.update k.sys.heap p _ q).zoneIdx = _
    by_cases hq : q = p
    · rw [hq, Function.update_self]
    · rw [Function.update_of_ne hq]

theorem isSlab_iff : k.isSlab p = true ↔ (k.sys.heap p).flags &&& pageFlagSlab ≠ 0 := decide_eq_true_iff

theorem markPage_flags (h : k.page (slab + UInt64.ofNat i * 4096) = some p) :
    ((markPage c slab k i).sys.heap p).flags = (k.sys.heap p).flags ||| pageFlagSlab ∧
      ∀ q, q ≠ p → ((markPage c slab k i).sys.heap q).flags = (k.sys.heap q).flags := by
  unfold markPage
  rw [h]
  refine ⟨?_, fun q hq => ?_⟩
  · show (Function.update k.sys.heap p _ p).flags = _
    rw [Function.update_self]
  · show (Function.update k.sys.heap p _ q).flags = _
    rw [Function.update_of_ne hq]

theorem markPage_slabCache (h : k.page (slab + UInt64.ofNat i * 4096) = some p) :
    (markPage c slab k i).slabCache = Function.update k.slabCache p (some c) := by
  unfold markPage
  rw [h]

theorem markPage_marks (h : k.page (slab + UInt64.ofNat i * 4096) = some p) :
    Marked (markPage c slab k i) p c := by
  have hflag : pageFlagSlab &&& pageFlagSlab ≠ 0 := by decide
  constructor
  · rw [isSlab_iff, (markPage_flags h).1, Word.or_and_32]
    exact fun hc => hflag (UInt32.or_eq_zero_iff.mp hc).2
  · rw [markPage_slabCache h, Function.update_self]

theorem markPage_keeps (h : Marked k p c) : Marked (markPage c slab k i) p c := by
  cases hpage : k.page (slab + UInt64.ofNat i * 4096) with
  | none =>
    have hsame : markPage c slab k i = k := by
      unfold markPage
      rw [hpage]
    rwa [hsame]
  | some q =>
    by_cases hq : p = q
    · exact hq ▸ markPage_marks hpage
    · refine ⟨isSlab_iff.mpr ?_, ?_⟩
      · rw [(markPage_flags hpage).2 p hq]
        exact isSlab_iff.mp h.1
      · rw [markPage_slabCache hpage, Function.update_of_ne hq]
        exact h.2

/-- Nothing but flags and marks of pages is written. -/
structure MarksOnly (k k' : Kernel) : Prop where
  sys : SteadySystem k.sys k'.sys
  mem : k'.mem = k.mem
  cacheTable : k'.cacheTable = k.cacheTable
  kmallocCaches : k'.kmallocCaches = k.kmallocCaches

theorem MarksOnly.trans {k k' k'' : Kernel} (h : MarksOnly k k') (h' : MarksOnly k' k'') : MarksOnly k k'' :=
  ⟨h.sys.trans h'.sys, h'.mem.trans h.mem, h'.cacheTable.trans h.cacheTable, h'.kmallocCaches.trans h.kmallocCaches⟩

theorem markPage_only : MarksOnly k (markPage c slab k i) := by
  refine ⟨markPage_sys, ?_, ?_, ?_⟩ <;>
    (unfold markPage; cases k.page (slab + UInt64.ofNat i * 4096) <;> rfl)

theorem markPages_spec (is : List ℕ) : ∀ k : Kernel, MarksOnly k (is.foldl (markPage c slab) k) ∧
    ∀ p, Marked k p c ∨ (∃ i ∈ is, k.page (slab + UInt64.ofNat i * 4096) = some p) →
      Marked (is.foldl (markPage c slab) k) p c := by
  induction is with
  | nil =>
    refine fun k => ⟨⟨.refl, rfl, rfl, rfl⟩, fun p h => ?_⟩
    rcases h with h | ⟨i, hi, -⟩
    · exact h
    · exact absurd hi List.not_mem_nil
  | cons i is ih =>
    intro k
    obtain ⟨honly, hmarks⟩ := ih (markPage c slab k i)
    refine ⟨markPage_only.trans honly, fun p h => hmarks p ?_⟩
    rcases h with h | ⟨j, hj, hpage⟩
    · exact .inl (markPage_keeps h)
    · rcases List.mem_cons.mp hj with rfl | hj
      · exact .inl (markPage_marks hpage)
      · exact .inr ⟨j, hj, (page_congr markPage_sys).trans hpage⟩

/-- The page of a byte of a block is the one that the loop looks up. -/
theorem page_within {a : UInt64} {off : ℕ} (ha : a.toNat % 4096 = 0) (hoff : off < 2 ^ 32) :
    k.page (a + UInt64.ofNat off) = k.page (a + UInt64.ofNat (off / 4096) * 4096) := by
  have hdiv : (a + UInt64.ofNat off).toNat / 4096 = (a + UInt64.ofNat (off / 4096) * 4096).toNat / 4096 := by
    rw [UInt64.toNat_add, UInt64.toNat_add, UInt64.toNat_mul, UInt64.toNat_ofNat', UInt64.toNat_ofNat']
    show (a.toNat + off % 2 ^ 64) % 2 ^ 64 / 4096 = (a.toNat + off / 4096 % 2 ^ 64 * 4096 % 2 ^ 64) % 2 ^ 64 / 4096
    omega
  unfold Kernel.page virtToPage
  rw [hdiv]

end Marks

/-! ## The search of `kmem_cache_free` -/

section Search

variable {s : Slab.State} {obj slab found fuel : ℕ}

theorem searchList_le {fuel fuel' : ℕ} (hle : fuel ≤ fuel') : ∀ {slab found : ℕ},
    searchList s.mem s.cache.slabSize obj fuel slab = some found →
      searchList s.mem s.cache.slabSize obj fuel' slab = some found := by
  induction fuel generalizing fuel' with
  | zero =>
    intro slab found h
    cases h
  | succ fuel ih =>
    intro slab found h
    obtain ⟨n, rfl⟩ : ∃ n, fuel' = n + 1 := ⟨fuel' - 1, by omega⟩
    unfold searchList at h ⊢
    dsimp only at h ⊢
    split_ifs at h ⊢
    · exact h
    · exact h
    · exact ih (Nat.le_of_succ_le_succ hle) h

theorem searchList_iff : (∃ fuel, searchList s.mem s.cache.slabSize obj fuel slab = some found) ↔
    FirstHolder s obj slab found := by
  constructor
  · rintro ⟨fuel, h⟩
    induction fuel generalizing slab with
    | zero => cases h
    | succ fuel ih =>
      unfold searchList at h
      dsimp only at h
      split_ifs at h with h0 hhold
      · obtain rfl := Option.some.inj h
        rw [h0]
        exact .stop
      · obtain rfl := Option.some.inj h
        exact .here h0 hhold
      · exact .next h0 hhold (ih h)
  · intro h
    induction h with
    | stop => exact ⟨1, rfl⟩
    | here h0 hhold =>
      refine ⟨1, ?_⟩
      unfold searchList
      rw [if_neg h0]
      exact if_pos hhold
    | next h0 hhold _ ih =>
      obtain ⟨fuel, h⟩ := ih
      refine ⟨fuel + 1, ?_⟩
      unfold searchList
      rw [if_neg h0]
      exact (if_neg hhold).trans h

theorem FirstHolder.holds (h : FirstHolder s obj slab found) (h0 : found ≠ 0) : Holds s found obj := by
  induction h with
  | stop => exact absurd rfl h0
  | here _ hhold => exact hhold
  | next _ _ _ ih => exact ih h0

/-- With enough fuel the search of the lists ends at a slab exactly if one of them has it. -/
theorem searchLists_iff (ls : List SlabList) : (∃ fuel slab, slab ≠ 0 ∧ searchLists s obj fuel ls = some slab) ↔
    OnSomeList s obj ls := by
  have hmono : ∀ (ls : List SlabList) {fuel fuel' slab : ℕ}, fuel ≤ fuel' → searchLists s obj fuel ls = some slab →
      searchLists s obj fuel' ls = some slab := by
    intro ls fuel fuel' slab hle
    induction ls with
    | nil => exact id
    | cons l ls ih =>
      intro h
      unfold searchLists at h ⊢
      cases hl : searchList s.mem s.cache.slabSize obj fuel (s.cache.head l) with
      | none =>
        rw [hl] at h
        cases h
      | some b =>
        rw [hl] at h
        rw [searchList_le hle hl]
        dsimp only at h ⊢
        split_ifs at h ⊢
        · exact ih h
        · exact h
  induction ls with
  | nil =>
    refine iff_of_false ?_ id
    rintro ⟨fuel, slab, h0, h⟩
    exact h0 (Option.some.inj h).symm
  | cons l ls ih =>
    constructor
    · rintro ⟨fuel, slab, h0, h⟩
      unfold searchLists at h
      cases hl : searchList s.mem s.cache.slabSize obj fuel (s.cache.head l) with
      | none =>
        rw [hl] at h
        cases h
      | some b =>
        rw [hl] at h
        dsimp only at h
        refine ⟨b, searchList_iff.mp ⟨fuel, hl⟩, ?_⟩
        split_ifs at h with hb
        · exact .inr (ih.mp ⟨fuel, slab, h0, h⟩)
        · exact .inl hb
    · rintro ⟨b, hfirst, hor⟩
      obtain ⟨fuel, hl⟩ := searchList_iff.mpr hfirst
      by_cases hb : b = 0
      · obtain ⟨fuel', slab, h0, h⟩ := ih.mpr (hor.resolve_left (not_not.mpr hb))
        refine ⟨max fuel fuel', slab, h0, ?_⟩
        unfold searchLists
        rw [searchList_le (Nat.le_max_left ..) hl]
        dsimp only
        rw [if_pos hb]
        exact hmono ls (Nat.le_max_right ..) h
      · refine ⟨fuel, b, hb, ?_⟩
        unfold searchLists
        rw [hl]
        exact if_neg hb

/-- What the search finds holds the object. -/
theorem searchLists_holds (ls : List SlabList) (h : searchLists s obj fuel ls = some slab) (h0 : slab ≠ 0) :
    Holds s slab obj := by
  induction ls with
  | nil => exact absurd (Option.some.inj h).symm h0
  | cons l ls ih =>
    unfold searchLists at h
    cases hl : searchList s.mem s.cache.slabSize obj fuel (s.cache.head l) with
    | none =>
      rw [hl] at h
      cases h
    | some b =>
      rw [hl] at h
      dsimp only at h
      split_ifs at h with hb
      · exact ih h
      · obtain rfl := Option.some.inj h
        exact (searchList_iff.mp ⟨fuel, hl⟩).holds h0

end Search

end Kmalloc
