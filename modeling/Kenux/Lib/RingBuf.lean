import Mathlib.Algebra.Ring.Nat
import Mathlib.Data.List.Basic

/-!
# Ring buffers

A buffer of `size` cells that is written and read around its end. Positions may run on: only their remainder counts.
-/

namespace RingBuf

variable {β : Type*} {size start start' n m i j : ℕ} {buf : ℕ → β} {data : List β}

/-- The `n` cells from `start` on. -/
def cells (size : ℕ) (buf : ℕ → β) (start n : ℕ) : List β := (List.range n).map fun i => buf ((start + i) % size)

/-- The buffer after data were written from `start` on. -/
def fill (size : ℕ) : (ℕ → β) → ℕ → List β → ℕ → β
  | buf, _, [] => buf
  | buf, start, b :: bs => fill size (Function.update buf (start % size) b) (start + 1) bs

@[simp] theorem length_cells : (cells size buf start n).length = n := by simp [cells]

@[simp] theorem cells_zero : cells size buf start 0 = [] := rfl

theorem cells_add : cells size buf start (n + m) = cells size buf start n ++ cells size buf (start + n) m := by
  unfold cells
  rw [List.range_add, List.map_append, List.map_map]
  congr 1
  apply List.map_congr_left
  intro i _
  rw [Function.comp_apply, Nat.add_assoc]

theorem take_cells (h : m ≤ n) : (cells size buf start n).take m = cells size buf start m := by
  obtain ⟨k, rfl⟩ := Nat.exists_eq_add_of_le h
  rw [cells_add, List.take_left' length_cells]

theorem drop_cells (h : m ≤ n) : (cells size buf start n).drop m = cells size buf (start + m) (n - m) := by
  obtain ⟨k, rfl⟩ := Nat.exists_eq_add_of_le h
  rw [cells_add, List.drop_left' length_cells, Nat.add_sub_cancel_left]

theorem add_mod_congr (h : start % size = start' % size) : (start + i) % size = (start' + i) % size := by
  rw [Nat.add_mod, h, ← Nat.add_mod]

/-- Only the remainder of the start counts. -/
theorem cells_congr (h : start % size = start' % size) : cells size buf start n = cells size buf start' n := by
  unfold cells
  apply List.map_congr_left
  intro i _
  rw [add_mod_congr h]

theorem fill_congr (h : start % size = start' % size) : fill size buf start data = fill size buf start' data := by
  induction data generalizing buf start start' with
  | nil => rfl
  | cons b bs ih =>
    unfold fill
    rw [h]
    exact ih (add_mod_congr h)

theorem fill_append {data' : List β} :
    fill size buf start (data ++ data') = fill size (fill size buf start data) (start + data.length) data' := by
  induction data generalizing buf start with
  | nil => rfl
  | cons b bs ih =>
    have hlen : start + (b :: bs).length = start + 1 + bs.length := by
      rw [List.length_cons]
      omega
    rw [List.cons_append, hlen]
    exact ih

theorem eq_of_add_mod (hi : i < size) (hj : j < size) (h : (start + i) % size = (start + j) % size) : i = j := by
  have hle {i j : ℕ} (hi : i < size) (h : (start + i) % size = (start + j) % size) (hji : j ≤ i) : i = j := by
    have hzero := Nat.sub_mod_eq_zero_of_mod_eq h
    rw [Nat.add_sub_add_left, Nat.mod_eq_of_lt (by omega)] at hzero
    omega
  rcases Nat.le_total j i with hji | hij
  · exact hle hi h hji
  · exact (hle hj h.symm hij).symm

theorem cells_update (h : n < size) (b : β) :
    cells size (Function.update buf ((start + n) % size) b) start (n + 1) = cells size buf start n ++ [b] := by
  rw [cells_add]
  congr 1
  · unfold cells
    apply List.map_congr_left
    intro i hi
    have hi := List.mem_range.mp hi
    apply Function.update_of_ne
    intro heq
    exact absurd (eq_of_add_mod (by omega) h heq) (by omega)
  · unfold cells
    simp

/-- The first cell and the others. -/
theorem cells_succ' : cells size buf start (n + 1) = buf (start % size) :: cells size buf (start + 1) n := by
  rw [Nat.add_comm, cells_add]
  simp [cells]

/-- A change of the cell before the contents leaves these as they are. -/
theorem cells_update_before (h : n < size) (b : β) :
    cells size (Function.update buf (start % size) b) (start + 1) n = cells size buf (start + 1) n := by
  unfold cells
  apply List.map_congr_left
  intro i hi
  have hi := List.mem_range.mp hi
  apply Function.update_of_ne
  intro heq
  have hz : (start + (1 + i)) % size = (start + 0) % size := by rw [← Nat.add_assoc, heq, Nat.add_zero]
  exact absurd (eq_of_add_mod (by omega) (by omega) hz) (by omega)

/-- Data that are written behind the contents, and fit, are appended to them. -/
theorem cells_fill (h : n + data.length ≤ size) :
    cells size (fill size buf (start + n) data) start (n + data.length) = cells size buf start n ++ data := by
  induction data generalizing buf n with
  | nil => exact (List.append_nil _).symm
  | cons b bs ih =>
    rw [List.length_cons] at h ⊢
    unfold fill
    have hlen : n + (bs.length + 1) = n + 1 + bs.length := by omega
    rw [hlen, Nat.add_assoc, ih (by omega), cells_update (by omega), List.append_assoc, List.singleton_append]

/-- Data that are written behind the contents leave these as they are. -/
theorem cells_fill_before (h : n + data.length ≤ size) :
    cells size (fill size buf (start + n) data) start n = cells size buf start n := by
  have hall : cells size (fill size buf (start + n) data) start (n + data.length) = _ := cells_fill h
  rw [cells_add] at hall
  exact (List.append_inj hall (by simp)).1

/-- Data that are written behind the contents are found there. -/
theorem cells_fill_new (h : n + data.length ≤ size) :
    cells size (fill size buf (start + n) data) (start + n) data.length = data := by
  have hall : cells size (fill size buf (start + n) data) start (n + data.length) = _ := cells_fill h
  rw [cells_add] at hall
  exact (List.append_inj hall (by simp)).2

end RingBuf
