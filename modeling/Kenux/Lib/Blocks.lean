import Mathlib.Algebra.Order.Group.Nat
import Mathlib.Algebra.Ring.Nat
import Mathlib.Order.Interval.Finset.Nat

/-!
# Blocks of power-of-two size

A block is a start and an order `k` and covers `2 ^ k` numbers. A tiling is a list of pairwise
disjoint blocks inside an interval; halves of a block may replace it and adjacent blocks of one order
may be joined, whether or not they are aligned to their size. The last part is about finding the
neighbour of a block by flipping a bit of its start.
-/

namespace Blocks

abbrev Block := ℕ × ℕ

def size (b : Block) : ℕ := 2 ^ b.2

def Disj (b c : Block) : Prop := b.1 + size b ≤ c.1 ∨ c.1 + size c ≤ b.1

theorem size_pos (b : Block) : 0 < size b := Nat.two_pow_pos _

theorem Disj.symm {b c : Block} (h : Disj b c) : Disj c b := Or.symm h

instance : Std.Symm Disj := ⟨fun _ _ => Disj.symm⟩

theorem Disj.ne {b c : Block} (h : Disj b c) : b.1 ≠ c.1 := by
  have hb := size_pos b
  have hc := size_pos c
  unfold Disj at h
  omega

/-- The blocks lie in `[lo, hi)` and have no number in common. -/
structure Tiling (lo hi : ℕ) (bs : List Block) : Prop where
  inside : ∀ b ∈ bs, lo ≤ b.1 ∧ b.1 + size b ≤ hi
  sep : bs.Pairwise Disj

def total (bs : List Block) : ℕ := (bs.map size).sum

section

variable {lo hi p k : ℕ} {b : Block} {bs cs : List Block}

theorem Tiling.nil : Tiling lo hi [] := ⟨by simp, .nil⟩

theorem Tiling.perm (h : Tiling lo hi bs) (hp : bs.Perm cs) : Tiling lo hi cs :=
  ⟨fun b hb => h.inside b (hp.mem_iff.mpr hb), (hp.pairwise_iff Disj.symm).mp h.sep⟩

theorem Tiling.tail (h : Tiling lo hi (b :: bs)) : Tiling lo hi bs :=
  ⟨fun c hc => h.inside c (by simp [hc]), (List.pairwise_cons.mp h.sep).2⟩

theorem Tiling.cons (h : Tiling lo hi bs) (hb : lo ≤ b.1 ∧ b.1 + size b ≤ hi)
    (hd : ∀ c ∈ bs, Disj b c) : Tiling lo hi (b :: bs) := by
  refine ⟨fun c hc => ?_, List.pairwise_cons.mpr ⟨hd, h.sep⟩⟩
  rcases List.mem_cons.mp hc with rfl | hc
  · exact hb
  · exact h.inside c hc

theorem Tiling.disj (h : Tiling lo hi (b :: bs)) {c : Block} (hc : c ∈ bs) : Disj b c :=
  (List.pairwise_cons.mp h.sep).1 c hc

/-- A block is replaced by its halves. -/
theorem Tiling.split (h : Tiling lo hi ((p, k + 1) :: bs)) :
    Tiling lo hi ((p, k) :: (p + 2 ^ k, k) :: bs) := by
  have hin := h.inside (p, k + 1) (by simp)
  simp only [size, pow_succ] at hin
  refine (h.tail.cons ?_ fun c hc => ?_).cons ?_ fun c hc => ?_
  · simp only [size]
    omega
  · have hd := h.disj hc
    simp only [Disj, size, pow_succ] at hd ⊢
    omega
  · simp only [size]
    omega
  · rcases List.mem_cons.mp hc with rfl | hc
    · simp only [Disj, size]
      omega
    · have hd := h.disj hc
      simp only [Disj, size, pow_succ] at hd ⊢
      omega

/-- Two adjacent blocks of one order are replaced by their union. -/
theorem Tiling.merge (h : Tiling lo hi ((p, k) :: (p + 2 ^ k, k) :: bs)) :
    Tiling lo hi ((p, k + 1) :: bs) := by
  have hin := h.inside (p, k) (by simp)
  have hin' := h.inside (p + 2 ^ k, k) (by simp)
  refine h.tail.tail.cons ?_ fun c hc => ?_
  · simp only [size, pow_succ] at hin hin' ⊢
    omega
  · have hd := h.disj (c := c) (by simp [hc])
    have hd' := h.tail.disj hc
    have hpos := size_pos c
    simp only [Disj, size, pow_succ] at hd hd' hpos ⊢
    omega

theorem total_cons : total (b :: bs) = size b + total bs := by
  simp [total]

theorem total_append : total (bs ++ cs) = total bs + total cs := by
  simp [total]

theorem total_perm (h : bs.Perm cs) : total bs = total cs := (h.map size).sum_eq

theorem total_split : total ((p, k) :: (p + 2 ^ k, k) :: bs) = total ((p, k + 1) :: bs) := by
  simp only [total_cons, size, pow_succ]
  omega

theorem length_le_total (bs : List Block) : bs.length ≤ total bs := by
  induction bs with
  | nil => exact Nat.zero_le _
  | cons b bs ih =>
    have := size_pos b
    rw [total_cons, List.length_cons]
    omega

/-- Disjoint blocks do not cover more than the interval they lie in. -/
theorem Tiling.total_le (h : Tiling lo hi bs) : total bs ≤ hi - lo := by
  have key : ∀ bs : List Block, Tiling lo hi bs → ∃ U : Finset ℕ, U ⊆ Finset.Ico lo hi ∧
      U.card = total bs ∧ ∀ x, x ∈ U ↔ ∃ b ∈ bs, b.1 ≤ x ∧ x < b.1 + size b := by
    intro bs
    induction bs with
    | nil => exact fun _ => ⟨∅, by simp, rfl, by simp⟩
    | cons b bs ih =>
      intro h
      obtain ⟨U, hU, hcard, hmem⟩ := ih h.tail
      have hb := h.inside b (by simp)
      have hdis : Disjoint (Finset.Ico b.1 (b.1 + size b)) U := by
        rw [Finset.disjoint_left]
        intro x hx hxU
        obtain ⟨c, hc, hx1, hx2⟩ := (hmem x).mp hxU
        rw [Finset.mem_Ico] at hx
        rcases h.disj hc with hd | hd <;> omega
      refine ⟨Finset.Ico b.1 (b.1 + size b) ∪ U, ?_, ?_, ?_⟩
      · exact Finset.union_subset (Finset.Ico_subset_Ico hb.1 hb.2) hU
      · rw [Finset.card_union_of_disjoint hdis, hcard, total_cons, Nat.card_Ico]
        omega
      · intro x
        rw [Finset.mem_union, Finset.mem_Ico, hmem]
        simp
  obtain ⟨U, hU, hcard, -⟩ := key bs h
  rw [← hcard, ← Nat.card_Ico]
  exact Finset.card_le_card hU

end

/-! ## Flipping a bit -/

theorem xor_two_pow (k : ℕ) : ∀ p : ℕ, p.testBit k = false → p ^^^ 2 ^ k = p + 2 ^ k := by
  induction k with
  | zero =>
    intro p hp
    have hmod : p % 2 = 0 := by simpa [Nat.testBit_zero] using hp
    have h1 : (p ^^^ 1) / 2 = p / 2 := by rw [Nat.xor_div_two]; simp
    have h2 : (p ^^^ 1) % 2 = 1 := by rw [Nat.xor_mod_two_eq_one]; omega
    rw [pow_zero]
    omega
  | succ k ih =>
    intro p hp
    rw [Nat.testBit_add_one] at hp
    have hdiv : 2 ^ (k + 1) / 2 = 2 ^ k := by rw [pow_succ]; omega
    have hmod : 2 ^ (k + 1) % 2 = 0 := by rw [pow_succ]; omega
    have h1 : (p ^^^ 2 ^ (k + 1)) / 2 = p / 2 + 2 ^ k := by
      rw [Nat.xor_div_two, hdiv, ih _ hp]
    have h2 : (p ^^^ 2 ^ (k + 1)) % 2 = p % 2 := by
      have := Nat.xor_mod_two_pow (a := p) (b := 2 ^ (k + 1)) (n := 1)
      rw [pow_one, hmod, Nat.xor_zero] at this
      exact this
    omega

theorem xor_two_pow_of_testBit {p k : ℕ} (h : p.testBit k = true) :
    (p ^^^ 2 ^ k) + 2 ^ k = p := by
  have hq : (p ^^^ 2 ^ k).testBit k = false := by
    rw [Nat.testBit_xor, h, Nat.testBit_two_pow_self]
    rfl
  rw [← xor_two_pow k _ hq, Nat.xor_assoc, Nat.xor_self, Nat.xor_zero]

/-- A block and the one its flipped start names are adjacent. -/
theorem xor_adjacent (p k : ℕ) : p ^^^ 2 ^ k = p + 2 ^ k ∨ (p ^^^ 2 ^ k) + 2 ^ k = p := by
  by_cases h : p.testBit k = true
  · exact Or.inr (xor_two_pow_of_testBit h)
  · exact Or.inl (xor_two_pow k p (by simpa using h))

end Blocks
