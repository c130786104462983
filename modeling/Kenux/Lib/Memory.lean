import Mathlib.Data.UInt

/-!
# Byte-addressed memory

Numbers are stored in little-endian order. A load of `n` bytes after a store is the stored number if
both are at the same place, and what it was before if they do not overlap.
-/

namespace Memory

abbrev Mem := ℕ → UInt8

/-- The number in the `n` bytes from `a` on. -/
def load (m : Mem) (a : ℕ) : ℕ → ℕ
  | 0 => 0
  | n + 1 => (m a).toNat + 256 * load m (a + 1) n

/-- Puts the lower `n` bytes of a number at `a`. -/
def store (m : Mem) (a v : ℕ) : ℕ → Mem
  | 0 => m
  | n + 1 => store (Function.update m a (UInt8.ofNat v)) (a + 1) (v / 256) n

/-- Puts bytes at `a`, one after the other. -/
def write (m : Mem) (a : ℕ) : List UInt8 → Mem
  | [] => m
  | x :: xs => write (Function.update m a x) (a + 1) xs

variable {m m' : Mem} {a b v n k : ℕ}

/-- The same bytes at another place are the same number. -/
theorem load_shift {b' : ℕ} (h : ∀ i < k, m' (b' + i) = m (b + i)) : load m' b' k = load m b k := by
  induction k generalizing b b' with
  | zero => rfl
  | succ k ih =>
    have hrest : load m' (b' + 1) k = load m (b + 1) k := ih fun i hi => by
      have hnext := h (i + 1) (Nat.succ_lt_succ hi)
      rwa [← Nat.add_assoc, ← Nat.add_assoc, Nat.add_right_comm, Nat.add_right_comm b] at hnext
    have h0 := h 0 (Nat.succ_pos k)
    rw [Nat.add_zero, Nat.add_zero] at h0
    unfold load
    rw [hrest, h0]

theorem load_congr (h : ∀ i < k, m' (b + i) = m (b + i)) : load m' b k = load m b k := load_shift h

theorem load_lt (m : Mem) (b k : ℕ) : load m b k < 256 ^ k := by
  induction k generalizing b with
  | zero => exact Nat.one_pos
  | succ k ih =>
    have hbyte := (m b).toNat_lt
    have hrest := ih (b + 1)
    unfold load
    rw [Nat.pow_succ]
    omega

theorem store_other (h : b < a ∨ a + n ≤ b) : store m a v n b = m b := by
  induction n generalizing m a v with
  | zero => rfl
  | succ n ih =>
    unfold store
    rw [ih (by omega), Function.update_of_ne (by omega)]

/-- A load elsewhere does not see a store. -/
theorem load_store_apart (h : b + k ≤ a ∨ a + n ≤ b) : load (store m a v n) b k = load m b k :=
  load_congr fun i hi => store_other (by omega)

theorem load_store_le (h : k ≤ n) : load (store m a v n) a k = v % 256 ^ k := by
  induction k generalizing m a v n with
  | zero => exact (Nat.mod_one v).symm
  | succ k ih =>
    obtain ⟨n, rfl⟩ := Nat.exists_eq_succ_of_ne_zero (show n ≠ 0 by omega)
    unfold store load
    have hbyte : (UInt8.ofNat v).toNat = v % 256 := UInt8.toNat_ofNat'
    rw [ih (by omega), store_other (by omega), Function.update_self, hbyte, Nat.pow_succ',
      Nat.mod_mul]

theorem load_store_same : load (store m a v n) a n = v % 256 ^ n := load_store_le (Nat.le_refl n)

theorem load_store_of_lt (hv : v < 256 ^ n) : load (store m a v n) a n = v :=
  load_store_same.trans (Nat.mod_eq_of_lt hv)

/-- A number that is stored where it was loaded from changes nothing. -/
theorem store_load : store m a (load m a n) n = m := by
  induction n generalizing m a with
  | zero => rfl
  | succ n ih =>
    have hbyte := (m a).toNat_lt
    have hload : load m a (n + 1) = (m a).toNat + 256 * load m (a + 1) n := rfl
    have hlow : UInt8.ofNat (load m a (n + 1)) = m a := by
      apply UInt8.toNat_inj.mp
      rw [UInt8.toNat_ofNat', hload, Nat.add_mul_mod_self_left]
      exact Nat.mod_eq_of_lt hbyte
    have hhigh : load m a (n + 1) / 256 = load m (a + 1) n := by omega
    unfold store
    rw [hlow, hhigh, Function.update_eq_self, ih]

theorem write_other {l : List UInt8} (h : b < a ∨ a + l.length ≤ b) : write m a l b = m b := by
  induction l generalizing m a with
  | nil => rfl
  | cons x xs ih =>
    rw [List.length_cons] at h
    unfold write
    rw [ih (by omega), Function.update_of_ne (by omega)]

theorem write_get {l : List UInt8} {i : ℕ} (hi : i < l.length) : write m a l (a + i) = l[i] := by
  induction l generalizing m a i with
  | nil => exact absurd hi (Nat.not_lt_zero i)
  | cons x xs ih =>
    unfold write
    cases i with
    | zero => rw [write_other (Or.inl (by omega)), Nat.add_zero, Function.update_self, List.getElem_cons_zero]
    | succ i => rw [show a + (i + 1) = a + 1 + i by omega, ih (Nat.lt_of_succ_lt_succ hi), List.getElem_cons_succ]

theorem write_append {l l' : List UInt8} : write (write m a l) (a + l.length) l' = write m a (l ++ l') := by
  induction l generalizing m a with
  | nil => rfl
  | cons x xs ih =>
    rw [List.length_cons, Nat.add_comm xs.length, ← Nat.add_assoc]
    exact ih

/-- `n` bytes from `b` of `src` on go to `a`. -/
def copy (m : Mem) (a : ℕ) (src : Mem) (b n : ℕ) : Mem :=
  fun i => if a ≤ i ∧ i < a + n then src (b + (i - a)) else m i

theorem copy_get {s : Mem} {i : ℕ} (hi : i < n) : copy m a s b n (a + i) = s (b + i) := by
  unfold copy
  rw [if_pos (by omega), Nat.add_sub_cancel_left]

theorem copy_other {src : Mem} {i : ℕ} (h : i < a ∨ a + n ≤ i) : copy m a src b n i = m i := by
  unfold copy
  rw [if_neg (by omega)]

@[simp] theorem copy_zero (m : Mem) (a : ℕ) (src : Mem) (b : ℕ) : copy m a src b 0 = m := by
  funext i
  exact copy_other (by omega)

/-- Two pieces that follow each other in both places are one. -/
theorem copy_copy {s : Mem} : copy (copy m a s b n) (a + n) s (b + n) k = copy m a s b (n + k) := by
  funext i
  by_cases hin : a + n ≤ i ∧ i < a + n + k
  · obtain ⟨j, rfl⟩ := Nat.exists_eq_add_of_le hin.1
    rw [copy_get (by omega), Nat.add_assoc a, copy_get (by omega), Nat.add_assoc]
  · rw [copy_other (by omega)]
    by_cases hfirst : a ≤ i ∧ i < a + n
    · obtain ⟨j, rfl⟩ := Nat.exists_eq_add_of_le hfirst.1
      rw [copy_get (by omega), copy_get (by omega)]
    · rw [copy_other (by omega), copy_other (by omega)]

end Memory

/-!
## Computations that read bytes

Every byte that a computation reads through a pointer is noted by its offset. A computation reads within the first `n`
bytes if all its parts do.
-/

namespace Reads

open Memory

/-- A result, with the offsets of the bytes read on the way. -/
structure Reading (α : Type*) where
  value : α
  offsets : List ℕ

instance : Monad Reading where
  pure a := ⟨a, []⟩
  bind x f := ⟨(f x.value).value, x.offsets ++ (f x.value).offsets⟩

/-- The number in `k` bytes, the highest byte first. -/
def networkNumber (m : Mem) (o : ℕ) : ℕ → ℕ
  | 0 => 0
  | k + 1 => (m o).toNat * 256 ^ k + networkNumber m (o + 1) k

def number (m : Mem) (o k : ℕ) : Reading ℕ := ⟨networkNumber m o k, List.range' o k⟩

def byte (m : Mem) (o : ℕ) : Reading UInt8 := ⟨m o, [o]⟩

def bytes (m : Mem) (o k : ℕ) : Reading (List UInt8) := ⟨(List.range k).map fun i => m (o + i), List.range' o k⟩

/-- The number in `k` bytes, the lowest byte first. -/
def little (m : Mem) (o k : ℕ) : Reading ℕ := ⟨load m o k, List.range' o k⟩

/-- All bytes read are among the first `n`. -/
def Within {α : Type*} (n : ℕ) (x : Reading α) : Prop := ∀ o ∈ x.offsets, o < n

/-- What is read has a property. -/
def Gives {α : Type*} (P : α → Prop) (x : Reading α) : Prop := P x.value

variable {α β : Type} {m : Mem} {n o k : ℕ} {x : Reading α} {f : α → Reading β}

theorem networkNumber_lt (m : Mem) (o k : ℕ) : networkNumber m o k < 256 ^ k := by
  induction k generalizing o with
  | zero => exact Nat.one_pos
  | succ k ih =>
    have hbyte := (m o).toNat_lt
    have hrest := ih (o + 1)
    unfold networkNumber
    calc (m o).toNat * 256 ^ k + networkNumber m (o + 1) k
        < (m o).toNat * 256 ^ k + 256 ^ k := Nat.add_lt_add_left hrest _
      _ = ((m o).toNat + 1) * 256 ^ k := (Nat.succ_mul _ _).symm
      _ ≤ 256 * 256 ^ k := Nat.mul_le_mul_right _ hbyte
      _ = 256 ^ (k + 1) := (Nat.pow_succ').symm

theorem value_number : (number m o k).value = networkNumber m o k := rfl

@[simp] theorem within_pure (a : α) : Within n (pure a : Reading α) := fun _ h => absurd h List.not_mem_nil

@[simp] theorem within_bind : Within n (x >>= f) ↔ Within n x ∧ Within n (f x.value) := by
  constructor
  · intro h
    exact ⟨fun o ho => h o (List.mem_append_left _ ho), fun o ho => h o (List.mem_append_right _ ho)⟩
  · rintro ⟨hx, hf⟩ o ho
    rcases List.mem_append.mp ho with ho | ho
    · exact hx o ho
    · exact hf o ho

@[simp] theorem within_ite {p : Prop} [Decidable p] {y : Reading α} :
    Within n (if p then x else y) ↔ (p → Within n x) ∧ (¬p → Within n y) := by
  by_cases h : p
  · simp [h]
  · simp [h]

theorem within_range : (∀ i ∈ List.range' o k, i < n) ↔ k = 0 ∨ o + k ≤ n := by
  constructor
  · intro h
    rcases Nat.eq_zero_or_pos k with hk | hk
    · exact .inl hk
    · have hlast := h (o + (k - 1)) (List.mem_range'_1.mpr (by omega))
      exact .inr (by omega)
  · intro h i hi
    have hi := List.mem_range'_1.mp hi
    omega

@[simp] theorem within_number : Within n (number m o (k + 1)) ↔ o + k < n := by
  refine within_range.trans ?_
  omega

@[simp] theorem within_little : Within n (little m o (k + 1)) ↔ o + k < n := by
  refine within_range.trans ?_
  omega

@[simp] theorem within_byte : Within n (byte m o) ↔ o < n := List.forall_mem_singleton

theorem value_byte : (byte m o).value = m o := rfl

theorem value_bytes : (bytes m o k).value = (List.range k).map fun i => m (o + i) := rfl

theorem value_bind : (x >>= f).value = (f x.value).value := rfl

@[simp] theorem within_bytes : Within n (bytes m o k) ↔ k = 0 ∨ o + k ≤ n := within_range

@[simp] theorem gives_pure {P : α → Prop} (a : α) : Gives P (pure a : Reading α) ↔ P a := Iff.rfl

@[simp] theorem gives_bind {P : β → Prop} : Gives P (x >>= f) ↔ Gives P (f x.value) := Iff.rfl

@[simp] theorem gives_ite {P : α → Prop} {p : Prop} [Decidable p] {y : Reading α} :
    Gives P (if p then x else y) ↔ (p → Gives P x) ∧ (¬p → Gives P y) := by
  by_cases h : p
  · simp [h]
  · simp [h]

end Reads
