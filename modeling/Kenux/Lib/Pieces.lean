import Mathlib.Data.List.Basic

/-!
# What stands between separators

The pieces of a list are what stands between separators, the empty ones left out. A scanner that goes from separator to
separator finds one piece after the other.
-/

namespace Pieces

variable {α : Type*} [DecidableEq α] {sep : α} {l piece : List α}

/-- The first piece, which may be empty, and what stands behind its separator. -/
theorem splitOn_eq (sep : α) (l : List α) : l.splitOn sep =
    if l.dropWhile (· ≠ sep) = [] then [l.takeWhile (· ≠ sep)]
    else l.takeWhile (· ≠ sep) :: (l.dropWhile (· ≠ sep)).tail.splitOn sep := by
  have hnot : sep ∉ l.takeWhile (· ≠ sep) := by
    intro hmem
    have hall := List.all_eq_true.mp (List.all_takeWhile (p := (· ≠ sep)) (l := l)) sep hmem
    exact of_decide_eq_true hall rfl
  have hsplit := List.takeWhile_append_dropWhile (p := (· ≠ sep)) (l := l)
  cases hrest : l.dropWhile (· ≠ sep) with
  | nil =>
    rw [hrest, List.append_nil] at hsplit
    rw [if_pos rfl]
    conv_lhs => rw [← hsplit]
    exact List.splitOn_eq_singleton hnot
  | cons x rest =>
    have hx : sep = x := by
      have hhead := List.head?_dropWhile_not (· ≠ sep) l
      rw [hrest, List.head?_cons] at hhead
      exact (Decidable.not_not.mp (of_decide_eq_false hhead)).symm
    subst hx
    rw [hrest] at hsplit
    rw [if_neg (List.cons_ne_nil _ _), List.tail_cons]
    conv_lhs => rw [← hsplit]
    exact List.splitOn_append_cons_self_of_not_mem hnot rest

/-- The pieces between separators. -/
def pieces (sep : α) (l : List α) : List (List α) := (l.splitOn sep).filter (· ≠ [])

@[simp] theorem pieces_nil (sep : α) : pieces sep [] = [] := rfl

@[simp] theorem pieces_append (sep : α) (l m : List α) : pieces sep (l ++ sep :: m) = pieces sep l ++ pieces sep m := by
  unfold pieces
  rw [List.splitOn_append_cons_self, List.filter_append]

@[simp] theorem pieces_cons (sep : α) (l : List α) : pieces sep (sep :: l) = pieces sep l := pieces_append sep [] l

theorem pieces_of_notMem (hne : l ≠ []) (hnot : sep ∉ l) : pieces sep l = [l] := by
  unfold pieces
  rw [List.splitOn_eq_singleton hnot]
  simp [hne]

/-- Separators in front make no difference. -/
theorem pieces_dropWhile (sep : α) (l : List α) : pieces sep (l.dropWhile (· = sep)) = pieces sep l := by
  induction l with
  | nil => rfl
  | cons x l ih =>
    by_cases hx : x = sep
    · rw [List.dropWhile_cons, if_pos (decide_eq_true hx), ih, hx, pieces_cons]
    · rw [List.dropWhile_cons, if_neg fun hyes => hx (of_decide_eq_true hyes)]

/-- What a scanner finds that stands at no separator. -/
theorem pieces_eq (hne : l ≠ []) (hhead : l.head? ≠ some sep) :
    pieces sep l = l.takeWhile (· ≠ sep) :: pieces sep (l.dropWhile (· ≠ sep)).tail := by
  have hfirst : l.takeWhile (· ≠ sep) ≠ [] := by
    cases l with
    | nil => exact absurd rfl hne
    | cons x l =>
      have hx : x ≠ sep := fun heq => hhead (congrArg some heq)
      rw [List.takeWhile_cons, if_pos (decide_eq_true hx)]
      exact List.cons_ne_nil _ _
  unfold pieces
  rw [splitOn_eq]
  generalize l.takeWhile (· ≠ sep) = first at hfirst ⊢
  split_ifs with hrest
  · rw [hrest]
    simp [hfirst]
  · simp [hfirst]

/-- A piece has at least one element, and none of them is the separator. -/
theorem of_mem (h : piece ∈ pieces sep l) : piece ≠ [] ∧ sep ∉ piece := by
  unfold pieces at h
  obtain ⟨hmem, hne⟩ := List.mem_filter.mp h
  refine ⟨of_decide_eq_true hne, ?_⟩
  clear h hne
  induction l generalizing piece with
  | nil =>
    rw [List.mem_singleton.mp hmem]
    exact List.not_mem_nil
  | cons x l ih =>
    rw [List.splitOn_cons_eq_if_modifyHead] at hmem
    by_cases hx : x = sep
    · rw [if_pos (by simpa using hx)] at hmem
      rcases List.mem_cons.mp hmem with rfl | hmem
      · exact List.not_mem_nil
      · exact ih hmem
    · rw [if_neg (by simpa using hx)] at hmem
      cases hsplit : l.splitOn sep with
      | nil => exact absurd hsplit (List.splitOn_ne_nil sep l)
      | cons first rest =>
        rw [hsplit, List.modifyHead_cons] at hmem
        rcases List.mem_cons.mp hmem with rfl | hmem
        · intro hsep
          rcases List.mem_cons.mp hsep with rfl | hsep
          · exact hx rfl
          · exact ih (hsplit ▸ List.mem_cons_self) hsep
        · exact ih (hsplit ▸ List.mem_cons_of_mem first hmem)

end Pieces
