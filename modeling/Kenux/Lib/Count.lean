import Mathlib.Data.Set.Card

/-!
# Counting and adding

How many numbers below `n`, or how many at all, have a property, when the property of one of them changes, and what the
values of the numbers below `n` add up to.
-/

namespace Count

variable {n i : ℕ} {p q : ℕ → Prop} [DecidablePred p] [DecidablePred q]

/-- The numbers below `n` with the property. -/
def count (n : ℕ) (p : ℕ → Prop) [DecidablePred p] : ℕ := ((Finset.range n).filter p).card

theorem count_congr (h : ∀ j < n, (q j ↔ p j)) : count n q = count n p := by
  unfold count
  rw [Finset.filter_congr fun j hj => h j (Finset.mem_range.mp hj)]

/-- One more number has the property. -/
theorem count_add (hi : i < n) (hp : ¬p i) (hq : q i) (h : ∀ j, j ≠ i → (q j ↔ p j)) :
    count n q = count n p + 1 := by
  have hinsert : (Finset.range n).filter q = insert i ((Finset.range n).filter p) := by
    ext j
    rw [Finset.mem_insert, Finset.mem_filter, Finset.mem_filter, Finset.mem_range]
    by_cases hj : j = i
    · simp [hj, hi, hq]
    · simp [hj, h j hj]
  unfold count
  rw [hinsert, Finset.card_insert_of_notMem]
  rw [Finset.mem_filter]
  exact fun hand => hp hand.2

/-- A number without the property comes below the bound. -/
theorem count_succ (hn : ¬p n) : count (n + 1) p = count n p := by
  unfold count
  rw [Finset.range_add_one, Finset.filter_insert, if_neg hn]

theorem count_zero (h : ∀ j < n, ¬p j) : count n p = 0 := by
  unfold count
  rw [Finset.card_eq_zero, Finset.filter_eq_empty_iff]
  exact fun j hj => h j (Finset.mem_range.mp hj)

/-- A walk that stays in a finite set for one place more than the set has never leaves it. -/
theorem iterate_mem {α : Type*} [DecidableEq α] {f : α → α} {s : Finset α} {a : α}
    (h : ∀ k ≤ s.card, f^[k] a ∈ s) (k : ℕ) : f^[k] a ∈ s := by
  obtain ⟨i, hi, j, hj, hne, heq⟩ := Finset.exists_ne_map_eq_of_card_lt_of_maps_to
    (s := Finset.range (s.card + 1)) (t := s) (f := fun k => f^[k] a) (by simp)
    fun k hk => h k (Nat.le_of_lt_succ (Finset.mem_range.mp hk))
  wlog hlt : i < j generalizing i j
  · exact this j hj i hi hne.symm heq.symm (by omega)
  rw [Finset.mem_range] at hj
  induction k using Nat.strong_induction_on with
  | _ k ih =>
    by_cases hk : k ≤ s.card
    · exact h k hk
    -- the walk goes round from place `j` as it does from place `i`
    · have hback : f^[k] a = f^[k - j + i] a := by
        calc f^[k] a = f^[k - j + j] a := by rw [Nat.sub_add_cancel (by omega)]
          _ = f^[k - j] (f^[j] a) := Function.iterate_add_apply f (k - j) j a
          _ = f^[k - j] (f^[i] a) := congrArg _ heq.symm
          _ = f^[k - j + i] a := (Function.iterate_add_apply f (k - j) i a).symm
      rw [hback]
      exact ih (k - j + i) (by omega)

/-- The values below `n`, added. -/
def sumBelow (f : ℕ → ℕ) : ℕ → ℕ
  | 0 => 0
  | n + 1 => sumBelow f n + f n

variable {f g : ℕ → ℕ} {d : ℕ}

theorem sumBelow_succ : sumBelow f (n + 1) = sumBelow f n + f n := rfl

theorem sumBelow_congr (h : ∀ j < n, f j = g j) : sumBelow f n = sumBelow g n := by
  induction n with
  | zero => rfl
  | succ n ih =>
    unfold sumBelow
    rw [ih fun j hj => h j (by omega), h n (by omega)]

/-- One value below the bound is greater by `d`. -/
theorem sumBelow_add (hi : i < n) (hg : g i = f i + d) (h : ∀ j, j ≠ i → g j = f j) :
    sumBelow g n = sumBelow f n + d := by
  induction n with
  | zero => exact absurd hi (Nat.not_lt_zero i)
  | succ n ih =>
    unfold sumBelow
    by_cases hin : i = n
    · subst hin
      rw [sumBelow_congr fun j hj => h j (by omega), hg]
      omega
    · rw [ih (by omega), h n fun heq => hin heq.symm]
      omega

theorem le_sumBelow (hi : i < n) : f i ≤ sumBelow f n := by
  induction n with
  | zero => exact absurd hi (Nat.not_lt_zero i)
  | succ n ih =>
    unfold sumBelow
    by_cases hin : i = n
    · rw [hin]
      exact Nat.le_add_left _ _
    · exact (ih (by omega)).trans (Nat.le_add_right _ _)

theorem sumBelow_mono (h : ∀ j < n, f j ≤ g j) : sumBelow f n ≤ sumBelow g n := by
  induction n with
  | zero => exact Nat.le_refl 0
  | succ n ih =>
    unfold sumBelow
    exact Nat.add_le_add (ih fun j hj => h j (by omega)) (h n (by omega))

theorem sumBelow_zero (h : ∀ j < n, f j = 0) : sumBelow f n = 0 := by
  induction n with
  | zero => rfl
  | succ n ih =>
    unfold sumBelow
    rw [ih fun j hj => h j (by omega), h n (by omega)]

/-! ## Counting without a bound -/

/-- Exactly `n` numbers have the property. -/
def Counts (p : ℕ → Prop) (n : ℕ) : Prop := {i | p i}.encard = n

variable {p q : ℕ → Prop}

theorem Counts.congr (h : Counts p n) (hq : ∀ j, (q j ↔ p j)) : Counts q n := by
  have heq : {j | q j} = {j | p j} := Set.ext hq
  unfold Counts
  rw [heq]
  exact h

theorem Counts.zero (h : ∀ j, ¬p j) : Counts p 0 := by
  have heq : {j | p j} = ∅ := Set.eq_empty_iff_forall_notMem.mpr h
  unfold Counts
  rw [heq, Set.encard_empty]
  rfl

theorem Counts.not_of_zero (h : Counts p 0) : ¬p i := by
  have heq : {j | p j} = ∅ := Set.encard_eq_zero.mp h
  exact Set.eq_empty_iff_forall_notMem.mp heq i

theorem encard_insert (hp : ¬p i) (hq : q i) (h : ∀ j, j ≠ i → (q j ↔ p j)) :
    {j | q j}.encard = {j | p j}.encard + 1 := by
  have heq : {j | q j} = insert i {j | p j} := by
    ext j
    by_cases hj : j = i
    · simp [hj, hq]
    · simp [hj, h j hj]
  have hnot : i ∉ {j | p j} := hp
  rw [heq, Set.encard_insert_of_notMem hnot]

/-- One more number has the property. -/
theorem Counts.add (hcount : Counts p n) (hp : ¬p i) (hq : q i) (h : ∀ j, j ≠ i → (q j ↔ p j)) :
    Counts q (n + 1) := by
  unfold Counts at hcount ⊢
  rw [encard_insert hp hq h, hcount]
  rfl

/-- One number less has the property. -/
theorem Counts.remove (hcount : Counts q n) (hp : ¬p i) (hq : q i) (h : ∀ j, j ≠ i → (q j ↔ p j)) :
    ∃ m, n = m + 1 ∧ Counts p m := by
  unfold Counts at hcount ⊢
  rw [encard_insert hp hq h] at hcount
  obtain ⟨m, hm⟩ : ∃ m : ℕ, {j | p j}.encard = m := by
    refine ⟨{j | p j}.encard.toNat, (ENat.natCast_toNat fun htop => ?_).symm⟩
    rw [htop] at hcount
    exact nomatch hcount
  rw [hm] at hcount
  exact ⟨m, (Nat.cast_inj.mp hcount).symm, hm⟩

end Count
