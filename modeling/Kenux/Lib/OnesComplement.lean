import Mathlib.Algebra.Ring.Nat
import Mathlib.Data.List.Basic

/-!
# Sums with end-around carry

One's complement numbers are those from 0 to `m`, where `m` stands for zero as well. A sum that is too large has its
carry added at the lower end. However the carries are put off, the result depends on the plain sum only.
-/

namespace OnesComplement

/-- Adds, and adds the carry at the lower end. -/
def add (m a b : ℕ) : ℕ := if a + b ≤ m then a + b else a + b - (m + 1) + 1

def sum (m : ℕ) (ws : List ℕ) : ℕ := ws.foldl (add m) 0

/-- What is left of a number when no carry is left: 0 for zero only. -/
def reduce (m n : ℕ) : ℕ := if n = 0 then 0 else (n - 1) % m + 1

variable {m n a b r : ℕ} {ws ws' : List ℕ}

theorem reduce_of_le (h : n ≤ m) : reduce m n = n := by
  unfold reduce
  split_ifs with hzero
  · exact hzero.symm
  · rw [Nat.mod_eq_of_lt (by omega)]
    omega

theorem reduce_add_self (hn : n ≠ 0) : reduce m (n + m) = reduce m n := by
  have hsub : n + m - 1 = n - 1 + m := by omega
  unfold reduce
  rw [if_neg hn, if_neg (by omega), hsub, Nat.add_mod_right]

theorem reduce_add_mul (hn : n ≠ 0) (k : ℕ) : reduce m (n + k * m) = reduce m n := by
  induction k with
  | zero => rw [Nat.zero_mul, Nat.add_zero]
  | succ k ih =>
    rw [Nat.add_one_mul, ← Nat.add_assoc, reduce_add_self (by omega), ih]

theorem reduce_le (hm : 0 < m) : reduce m n ≤ m := by
  have := Nat.mod_lt (n - 1) hm
  unfold reduce
  split_ifs <;> omega

/-- Every number is its reduction, and a multiple of `m` that is there only if the reduction is not zero. -/
theorem exists_reduce (m n : ℕ) : ∃ k, n = reduce m n + k * m ∧ (reduce m n = 0 → n = 0) := by
  unfold reduce
  split_ifs with hzero
  · exact ⟨0, by omega, fun _ => hzero⟩
  · have hdiv := Nat.mod_add_div' (n - 1) m
    exact ⟨(n - 1) / m, by omega, False.elim⟩

theorem reduce_reduce_add (m n b : ℕ) : reduce m (reduce m n + b) = reduce m (n + b) := by
  obtain ⟨k, hk, hzero⟩ := exists_reduce m n
  by_cases h : reduce m n = 0
  · rw [h, hzero h]
  · have heq : n + b = reduce m n + b + k * m := by omega
    rw [heq, reduce_add_mul (by omega)]

theorem add_eq (ha : a ≤ m) (hb : b ≤ m) : add m a b = reduce m (a + b) := by
  unfold add
  split_ifs with h
  · exact (reduce_of_le h).symm
  · have heq : a + b = a + b - m + m := by omega
    have hle : a + b - m ≤ m := by omega
    rw [heq, reduce_add_self (by omega), reduce_of_le hle]
    omega

/-- A sum is the reduction of the plain sum. -/
theorem sum_eq (hm : 0 < m) (hws : ∀ w ∈ ws, w ≤ m) : sum m ws = reduce m ws.sum := by
  have hfold : ∀ n, ws.foldl (add m) (reduce m n) = reduce m (n + ws.sum) := by
    induction ws with
    | nil => simp
    | cons w ws ih =>
      intro n
      simp only [List.mem_cons, forall_eq_or_imp] at hws
      simp only [List.foldl_cons, List.sum_cons]
      rw [add_eq (reduce_le hm) hws.1, reduce_reduce_add, ih hws.2, Nat.add_assoc]
  have hzero := hfold 0
  rwa [reduce_of_le (Nat.zero_le m), Nat.zero_add] at hzero

/-- The order of the numbers makes no difference. -/
theorem sum_perm (hm : 0 < m) (hws : ∀ w ∈ ws, w ≤ m) (h : ws.Perm ws') : sum m ws' = sum m ws := by
  rw [sum_eq hm hws, sum_eq hm fun w hw => hws w (h.mem_iff.mpr hw), h.sum_nat]

/-- Adding the digits to the base `m + 1` is adding a carry. -/
theorem reduce_digits (m n : ℕ) : reduce m (n % (m + 1) + n / (m + 1)) = reduce m n := by
  have hdiv := Nat.mod_add_div' n (m + 1)
  rw [Nat.mul_add, Nat.mul_one] at hdiv
  by_cases hzero : n % (m + 1) + n / (m + 1) = 0
  · have hn : n = 0 := by
      obtain ⟨hmod, hquot⟩ := Nat.add_eq_zero_iff.mp hzero
      rw [hmod, hquot, Nat.zero_mul] at hdiv
      exact hdiv.symm
    rw [hzero, hn]
  · have heq : n = n % (m + 1) + n / (m + 1) + n / (m + 1) * m := by omega
    conv_rhs => rw [heq]
    exact (reduce_add_mul hzero _).symm

/-- A number and the complement of its reduction add up to the other zero. -/
theorem reduce_add_complement (hm : 0 < m) (n : ℕ) : reduce m (n + (m - reduce m n)) = m := by
  obtain ⟨k, hk, hzero⟩ := exists_reduce m n
  have hle : reduce m n ≤ m := reduce_le hm
  have heq : n + (m - reduce m n) = m + k * m := by omega
  rw [heq, reduce_add_mul (by omega), reduce_of_le (Nat.le_refl m)]

end OnesComplement
