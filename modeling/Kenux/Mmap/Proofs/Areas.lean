import Kenux.Lib.Word
import Kenux.Mmap.Model
import Mathlib.Algebra.Order.Group.Nat

/-!
# Areas as intervals

An area occupies `[lo, hi)` in the natural numbers. Under the invariant `WellFormed` these intervals
are non-empty, page-aligned, below a bound and pairwise disjoint, and the count is that of the
active slots. The invariant is kept by replacing an area by a part of itself, by dropping one and by
putting a disjoint one into a free slot.
-/

namespace Mmap

open Function (update_self update_of_ne)

/-! ## Rounding to pages -/

theorem pageAlignDown_toNat (x : UInt64) : (pageAlignDown x).toNat = x.toNat / 4096 * 4096 := by
  have h := Word.toNat_and_field (a := x) (m := ~~~(pageSize - 1)) 12 52 (by decide)
  have hx := x.toNat_lt
  unfold pageAlignDown
  rw [h]
  omega

theorem pageAlignUp_toNat (x : UInt64) :
    (pageAlignUp x).toNat = (x.toNat + 4095) % 2 ^ 64 / 4096 * 4096 := by
  have h := Word.toNat_and_field (a := x + pageSize - 1) (m := ~~~(pageSize - 1)) 12 52 (by decide)
  have h1 : (x + pageSize - 1).toNat = (x.toNat + 4095) % 2 ^ 64 := by
    have e : x + pageSize - 1 = x + 4095 := by
      unfold pageSize
      grind
    rw [e, UInt64.toNat_add]
    rfl
  unfold pageAlignUp
  rw [h, h1]
  omega

theorem pageAlignUp_aligned (x : UInt64) : (pageAlignUp x).toNat % 4096 = 0 := by
  rw [pageAlignUp_toNat]
  omega

theorem pageMask_toNat (x : UInt64) : (x &&& (pageSize - 1)).toNat = x.toNat % 4096 := by
  have h := Word.toNat_and_field (a := x) (m := pageSize - 1) 0 12 (by decide)
  rw [h]
  omega

/-- The length in whole pages. -/
def pagesLength (length : UInt64) : ℕ := (length.toNat + 4095) / 4096 * 4096

theorem pageAlignUp_pagesLength (length : UInt64) :
    (pageAlignUp length).toNat = pagesLength length % 2 ^ 64 := by
  rw [pageAlignUp_toNat]
  unfold pagesLength
  omega

theorem pagesLength_le (length : UInt64) : pagesLength length ≤ 2 ^ 64 := by
  have hlt := length.toNat_lt
  unfold pagesLength
  omega

theorem pagesLength_pos {length : UInt64} (h0 : length ≠ 0) : 0 < pagesLength length := by
  have hne : length.toNat ≠ 0 := fun hc => h0 (UInt64.toNat_inj.mp hc)
  unfold pagesLength
  omega

/-! ## Intervals -/

def Area.lo (a : Area) : ℕ := a.start.toNat

def Area.hi (a : Area) : ℕ := a.start.toNat + a.length.toNat

/-- A non-empty, page-aligned interval that ends at or below `top`. -/
structure Area.Sound (a : Area) (top : ℕ) : Prop where
  nonempty : a.lo < a.hi
  startAligned : a.lo % 4096 = 0
  endAligned : a.hi % 4096 = 0
  below : a.hi ≤ top

/-- The intervals have no address in common. -/
def Area.Disjoint (a b : Area) : Prop := a.hi ≤ b.lo ∨ b.hi ≤ a.lo

theorem Area.Disjoint.symm {a b : Area} (h : a.Disjoint b) : b.Disjoint a := Or.symm h

/-- The number of active slots. -/
def activeCount (f : Slot → Area) : ℕ := (Finset.univ.filter fun i => (f i).active = true).card

/-- The active areas are sound and pairwise disjoint. -/
structure Separated (f : Slot → Area) (top : ℕ) : Prop where
  sound : ∀ i, (f i).active = true → (f i).Sound top
  disjoint : ∀ i j, i ≠ j → (f i).active = true → (f j).active = true → (f i).Disjoint (f j)

/-- The active areas are separated, and `area_count` counts them. -/
structure WellFormed (ctx : Context) (top : ℕ) : Prop extends Separated ctx.areas top where
  count : ctx.areaCount = activeCount ctx.areas

theorem Area.end_toNat {a : Area} (h : a.hi < 2 ^ 64) : a.end.toNat = a.hi :=
  Word.toNat_add_lt h

/-- What the overlap test says of an area that ends below `2 ^ 64`. -/
theorem Area.covers_iff {a : Area} (h : a.hi < 2 ^ 64) (addr len : UInt64) :
    a.covers addr len = true ↔
      a.active = true ∧ addr.toNat < a.hi ∧ a.lo < (addr + len).toNat := by
  unfold Area.covers
  simp only [Bool.and_eq_true, decide_eq_true_eq, UInt64.lt_iff_toNat_lt, gt_iff_lt, end_toNat h,
    Area.lo, and_assoc]

/-! ## Slots -/

theorem firstSlot_none {p : Slot → Bool} (h : firstSlot p = none) (i : Slot) : p i = false := by
  have h' := List.find?_eq_none.mp h i (List.mem_finRange i)
  simpa using h'

theorem firstSlot_isSome {p : Slot → Bool} : (firstSlot p).isSome = true ↔ ∃ i, p i = true := by
  unfold firstSlot
  simp [List.find?_isSome]

theorem mmapAllocSlot_some {ctx : Context} {j : Slot} (h : mmapAllocSlot ctx = some j) :
    (ctx.areas j).active = false := by
  have := firstSlot_some h
  simpa using this

theorem mmapAllocSlot_none {ctx : Context} (h : mmapAllocSlot ctx = none) (i : Slot) :
    (ctx.areas i).active = true := by
  have := firstSlot_none h i
  simpa using this

/-! ## Counting -/

section Count

variable {f : Slot → Area} {i : Slot} {a : Area}

theorem activeCount_update_same (h : a.active = (f i).active) :
    activeCount (Function.update f i a) = activeCount f := by
  unfold activeCount
  congr 1
  refine Finset.filter_congr fun j _ => ?_
  by_cases hj : j = i
  · subst hj
    rw [update_self, h]
  · rw [update_of_ne hj]

theorem activeCount_activate (hi : (f i).active = false) (ha : a.active = true) :
    activeCount (Function.update f i a) = activeCount f + 1 := by
  unfold activeCount
  have h : (Finset.univ.filter fun j => (Function.update f i a j).active = true) =
      insert i (Finset.univ.filter fun j => (f j).active = true) := by
    ext j
    by_cases hj : j = i
    · subst hj
      simp [ha]
    · simp [hj]
  rw [h, Finset.card_insert_of_notMem (by simp [hi])]

theorem activeCount_deactivate (hi : (f i).active = true) (ha : a.active = false) :
    activeCount (Function.update f i a) + 1 = activeCount f := by
  have hf : f = Function.update (Function.update f i a) i (f i) := by simp
  conv_rhs => rw [hf]
  exact (activeCount_activate (by simp [ha]) hi).symm

end Count

/-! ## Updates that keep the invariant -/

section Separated

variable {f : Slot → Area} {i : Slot} {b : Area} {top : ℕ}

/-- The new area of a slot is inactive, or sound and disjoint from the others. -/
theorem Separated.update (h : Separated f top)
    (hb : b.active = true → b.Sound top ∧
      ∀ k, k ≠ i → (f k).active = true → b.Disjoint (f k)) :
    Separated (Function.update f i b) top where
  sound k hk := by
    by_cases hki : k = i
    · subst hki
      simp only [update_self] at hk ⊢
      exact (hb hk).1
    · simp only [update_of_ne hki] at hk ⊢
      exact h.sound k hk
  disjoint k l hkl hk hl := by
    by_cases hki : k = i
    · subst hki
      simp only [update_self, update_of_ne (Ne.symm hkl)] at hk hl ⊢
      exact (hb hk).2 l (Ne.symm hkl) hl
    · by_cases hli : l = i
      · subst hli
        simp only [update_self, update_of_ne hki] at hk hl ⊢
        exact ((hb hl).2 k hki hk).symm
      · simp only [update_of_ne hki, update_of_ne hli] at hk hl ⊢
        exact h.disjoint k l hkl hk hl

/-- An area is replaced by a part of itself. -/
theorem Separated.shrink (h : Separated f top) (hi : (f i).active = true) (hs : b.Sound top)
    (hlo : (f i).lo ≤ b.lo) (hhi : b.hi ≤ (f i).hi) : Separated (Function.update f i b) top := by
  refine h.update fun _ => ⟨hs, fun k hk hka => ?_⟩
  rcases h.disjoint i k (Ne.symm hk) hi hka with hd | hd
  · exact Or.inl (hhi.trans hd)
  · exact Or.inr (hd.trans hlo)

theorem Separated.drop (h : Separated f top) (hb : b.active = false) :
    Separated (Function.update f i b) top :=
  h.update fun hb' => absurd (hb.symm.trans hb') (by simp)

theorem Separated.mono {top' : ℕ} (h : Separated f top) (ht : top ≤ top') : Separated f top' where
  sound i hi :=
    ⟨(h.sound i hi).nonempty, (h.sound i hi).startAligned, (h.sound i hi).endAligned,
      (h.sound i hi).below.trans ht⟩
  disjoint := h.disjoint

theorem separated_empty (top : ℕ) : Separated (fun _ => Area.zero) top :=
  ⟨fun _ hi => absurd hi (by simp [Area.zero]), fun _ _ _ hi => absurd hi (by simp [Area.zero])⟩

end Separated

section WellFormed

variable {ctx : Context} {i : Slot} {b : Area} {top : ℕ}

theorem WellFormed.mono {top' : ℕ} (h : WellFormed ctx top) (ht : top ≤ top') :
    WellFormed ctx top' :=
  ⟨h.toSeparated.mono ht, h.count⟩

theorem WellFormed.drop (h : WellFormed ctx top) (hi : (ctx.areas i).active = true)
    (hb : b.active = false) :
    WellFormed { areas := Function.update ctx.areas i b, areaCount := ctx.areaCount - 1 } top where
  toSeparated := h.toSeparated.drop hb
  count := by
    have := activeCount_deactivate hi hb
    dsimp only
    rw [h.count]
    omega

/-- A disjoint area is put into a free slot. -/
theorem WellFormed.add (h : WellFormed ctx top) (hi : (ctx.areas i).active = false)
    (hb : b.active = true) (hs : b.Sound top)
    (hd : ∀ k, (ctx.areas k).active = true → b.Disjoint (ctx.areas k)) :
    WellFormed { areas := Function.update ctx.areas i b, areaCount := ctx.areaCount + 1 } top where
  toSeparated := h.update fun _ => ⟨hs, fun k _ => hd k⟩
  count := by
    dsimp only
    rw [activeCount_activate hi hb, h.count]
    push_cast
    rfl

/-- An area changes in fields other than its interval. -/
theorem WellFormed.relabel (h : WellFormed ctx top) (hi : (ctx.areas i).active = true)
    (hb : b.active = true) (hlo : b.lo = (ctx.areas i).lo) (hhi : b.hi = (ctx.areas i).hi) :
    WellFormed { ctx with areas := Function.update ctx.areas i b } top where
  toSeparated := by
    obtain ⟨h1, h2, h3, h4⟩ := h.sound i hi
    exact h.shrink hi ⟨by omega, by omega, by omega, by omega⟩ hlo.ge hhi.le
  count := by
    dsimp only
    rw [activeCount_update_same (by rw [hb, hi])]
    exact h.count

end WellFormed

end Mmap
