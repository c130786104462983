import Mathlib.Data.Nat.Bitwise

/-!
# Bitmaps in bytes

A bitmap is an array of bytes; bit `i` is bit `i mod 8` of byte `i / 8`. The bits are what `test` sees:
`set` and `clear` change one of them.
-/

namespace Bitmap

abbrev Bytes := ℕ → UInt8

def test (m : Bytes) (i : ℕ) : Bool :=
  m (i >>> 3) >>> UInt8.ofNat (i &&& 7) &&& 1 != 0

def set (m : Bytes) (i : ℕ) : Bytes :=
  Function.update m (i >>> 3) (m (i >>> 3) ||| 1 <<< UInt8.ofNat (i &&& 7))

def clear (m : Bytes) (i : ℕ) : Bytes :=
  Function.update m (i >>> 3) (m (i >>> 3) &&& ~~~(1 <<< UInt8.ofNat (i &&& 7)))

/-- The first clear bit among the `n` bits from `i` on. -/
def findFreeFrom (m : Bytes) (i : ℕ) : ℕ → Option ℕ
  | 0 => none
  | n + 1 => if test m i then findFreeFrom m (i + 1) n else some i

/-- How many of the first `n` bits are set. -/
def count (m : Bytes) : ℕ → ℕ
  | 0 => 0
  | n + 1 => count m n + (test m n).toNat

section Byte

variable (b : UInt8) {i j : ℕ}

theorem toNat_index (hi : i < 8) : (UInt8.ofNat i).toNat = i := by
  rw [UInt8.toNat_ofNat']
  omega

theorem test_byte (hi : i < 8) : (b >>> UInt8.ofNat i &&& 1 != 0) = b.toNat.testBit i := by
  have hne : ∀ c : UInt8, (c != 0) = (c.toNat != 0) := by
    intro c
    rw [Bool.eq_iff_iff, bne_iff_ne, bne_iff_ne, ne_eq, ne_eq, ← UInt8.toNat_inj]
    rfl
  rw [hne, UInt8.toNat_and, UInt8.toNat_shiftRight, toNat_index hi,
    Nat.mod_eq_of_lt (show i < 8 from hi), Nat.testBit, Nat.and_comm]
  rfl

theorem toNat_bit (hi : i < 8) : ((1 : UInt8) <<< UInt8.ofNat i).toNat = 2 ^ i := by
  rw [UInt8.toNat_shiftLeft, toNat_index hi, Nat.mod_eq_of_lt (show i < 8 from hi), Nat.shiftLeft_eq]
  show 1 * 2 ^ i % 2 ^ 8 = 2 ^ i
  rw [Nat.one_mul]
  exact Nat.mod_eq_of_lt (Nat.pow_lt_pow_right (by omega) hi)

theorem or_bit (hi : i < 8) :
    (b ||| 1 <<< UInt8.ofNat i).toNat.testBit j = (decide (i = j) || b.toNat.testBit j) := by
  rw [UInt8.toNat_or, toNat_bit hi, Nat.testBit_or, Nat.testBit_two_pow, Bool.or_comm]

theorem and_not_bit (hi : i < 8) (hj : j < 8) :
    (b &&& ~~~(1 <<< UInt8.ofNat i)).toNat.testBit j =
      (!decide (i = j) && b.toNat.testBit j) := by
  have hlt : 2 ^ i < 2 ^ 8 := Nat.pow_lt_pow_right (by omega) hi
  have hnot : (~~~((1 : UInt8) <<< UInt8.ofNat i)).toNat = 2 ^ 8 - (2 ^ i + 1) := by
    rw [UInt8.toNat_not, toNat_bit hi]
    show 2 ^ 8 - 1 - 2 ^ i = _
    omega
  rw [UInt8.toNat_and, hnot, Nat.testBit_and, Nat.testBit_two_pow_sub_succ hlt, Nat.testBit_two_pow,
    decide_eq_true (show j < 8 from hj), Bool.true_and, Bool.and_comm]

end Byte

variable {m : Bytes} {i j k n : ℕ}

theorem test_eq (m : Bytes) (i : ℕ) : test m i = (m (i / 8)).toNat.testBit (i % 8) := by
  unfold test
  have hand : i &&& 7 = i % 8 := Nat.and_two_pow_sub_one_eq_mod i 3
  rw [Nat.shiftRight_eq_div_pow, hand, test_byte _ (Nat.mod_lt _ (by omega))]

theorem test_update (c : UInt8) :
    test (Function.update m (i / 8) c) j =
      if j / 8 = i / 8 then c.toNat.testBit (j % 8) else test m j := by
  rw [test_eq]
  split_ifs with h
  · rw [h, Function.update_self]
  · rw [Function.update_of_ne h, test_eq]

@[simp] theorem test_set : test (set m i) j = (decide (i = j) || test m j) := by
  unfold set
  have hand : i &&& 7 = i % 8 := Nat.and_two_pow_sub_one_eq_mod i 3
  rw [Nat.shiftRight_eq_div_pow, hand, test_update, or_bit _ (Nat.mod_lt _ (by omega)), test_eq m j]
  split_ifs with h
  · rw [← h, show decide (i % 8 = j % 8) = decide (i = j) from decide_eq_decide.mpr (by omega)]
  · rw [decide_eq_false (show i ≠ j by rintro rfl; exact h rfl), Bool.false_or]

@[simp] theorem test_clear : test (clear m i) j = (!decide (i = j) && test m j) := by
  unfold clear
  have hand : i &&& 7 = i % 8 := Nat.and_two_pow_sub_one_eq_mod i 3
  rw [Nat.shiftRight_eq_div_pow, hand, test_update,
    and_not_bit _ (Nat.mod_lt _ (by omega)) (Nat.mod_lt _ (by omega)), test_eq m j]
  split_ifs with h
  · rw [← h, show decide (i % 8 = j % 8) = decide (i = j) from decide_eq_decide.mpr (by omega)]
  · rw [decide_eq_false (show i ≠ j by rintro rfl; exact h rfl), Bool.not_false, Bool.true_and]

@[simp] theorem test_zero : test (fun _ => 0) i = false := by
  rw [test_eq]
  exact Nat.zero_testBit _

theorem findFreeFrom_some (h : findFreeFrom m i n = some k) :
    i ≤ k ∧ k < i + n ∧ test m k = false := by
  induction n generalizing i with
  | zero => cases h
  | succ n ih =>
    unfold findFreeFrom at h
    split_ifs at h with hi
    · obtain ⟨h₁, h₂, h₃⟩ := ih h
      exact ⟨by omega, by omega, h₃⟩
    · cases h
      exact ⟨Nat.le_refl _, by omega, Bool.eq_false_iff.mpr hi⟩

theorem findFreeFrom_none (h : findFreeFrom m i n = none) (hk : i ≤ k) (hlt : k < i + n) :
    test m k = true := by
  induction n generalizing i with
  | zero => omega
  | succ n ih =>
    unfold findFreeFrom at h
    split_ifs at h with hi
    by_cases hik : i = k
    · exact hik ▸ hi
    · exact ih h (by omega) (by omega)

theorem findFreeFrom_least (h : findFreeFrom m i n = some k) (hj : i ≤ j) (hlt : j < k) :
    test m j = true := by
  induction n generalizing i with
  | zero => cases h
  | succ n ih =>
    unfold findFreeFrom at h
    split_ifs at h with hi
    · by_cases hij : i = j
      · exact hij ▸ hi
      · exact ih h (by omega)
    · cases h
      omega

theorem count_congr {m' : Bytes} (h : ∀ j < n, test m' j = test m j) : count m' n = count m n := by
  induction n with
  | zero => rfl
  | succ n ih =>
    unfold count
    rw [ih fun j hj => h j (by omega), h n (by omega)]

theorem count_set (hi : i < n) (hclear : test m i = false) : count (set m i) n = count m n + 1 := by
  induction n with
  | zero => omega
  | succ n ih =>
    unfold count
    rw [test_set]
    by_cases h : i = n
    · subst h
      have hrest : count (set m i) i = count m i := count_congr fun j hj => by
        rw [test_set, decide_eq_false (by omega), Bool.false_or]
      rw [hclear, hrest, decide_eq_true rfl]
      rfl
    · rw [ih (by omega), decide_eq_false h, Bool.false_or]
      omega

theorem count_clear (hi : i < n) (hset : test m i = true) : count (clear m i) n + 1 = count m n := by
  induction n with
  | zero => omega
  | succ n ih =>
    unfold count
    rw [test_clear]
    by_cases h : i = n
    · subst h
      have hrest : count (clear m i) i = count m i := count_congr fun j hj => by
        rw [test_clear, decide_eq_false (by omega), Bool.not_false, Bool.true_and]
      rw [hset, hrest, decide_eq_true rfl]
      rfl
    · have := ih (by omega)
      rw [decide_eq_false h, Bool.not_false, Bool.true_and]
      omega

theorem count_eq_zero : count m n = 0 ↔ ∀ i < n, test m i = false := by
  induction n with
  | zero => simp [count]
  | succ n ih =>
    unfold count
    rw [Nat.add_eq_zero_iff, ih, Nat.forall_lt_succ_right, Bool.toNat_eq_zero]

theorem count_le : count m n ≤ n := by
  induction n with
  | zero => exact Nat.le_refl 0
  | succ n ih =>
    have := Bool.toNat_le (test m n)
    unfold count
    omega

theorem count_lt (hi : i < n) (hclear : test m i = false) : count m n < n := by
  have h := count_set hi hclear
  have := count_le (m := set m i) (n := n)
  omega

theorem count_eq (h : ∀ i < n, test m i = true) : count m n = n := by
  induction n with
  | zero => rfl
  | succ n ih =>
    unfold count
    rw [ih fun i hi => h i (by omega), h n (by omega)]
    rfl

/-- There is a clear bit to find as long as not all of them are set. -/
theorem findFreeFrom_isSome : (findFreeFrom m 0 n).isSome ↔ count m n < n := by
  constructor
  · intro h
    obtain ⟨k, hk⟩ := Option.isSome_iff_exists.mp h
    obtain ⟨-, hlt, hclear⟩ := findFreeFrom_some hk
    exact count_lt (by omega) hclear
  · intro h
    by_contra hnone
    rw [Option.not_isSome_iff_eq_none] at hnone
    have hall : ∀ i < n, test m i = true := fun i hi =>
      findFreeFrom_none hnone (Nat.zero_le i) (by omega)
    have := count_eq hall
    omega

end Bitmap
