import Kenux.Lib.SList

/-!
# Intrusive doubly linked lists

A list whose nodes carry their own links, given as two functions from nodes to the next and the
previous node. `IsDList` says which nodes the list that starts at a head pointer consists of. The
rules for inserting at the front and for unlinking ask what the links are afterwards, not how they
were written, so they apply to any store.
-/

namespace DList

variable {ν : Type*}

/-- The nodes of the list follow each other in both directions, and before the first one is `b`. -/
def Linked (nx pv : ν → Option ν) : Option ν → List ν → Prop
  | _, [] => True
  | b, x :: xs => pv x = b ∧ nx x = xs.head? ∧ Linked nx pv (some x) xs

/-- The list that starts at `head` has the nodes `l` and is well formed. -/
structure IsDList (nx pv : ν → Option ν) (head : Option ν) (l : List ν) : Prop where
  head_eq : head = l.head?
  linked : Linked nx pv none l
  nodup : l.Nodup

/-- The node is reached from `cur` through the next pointers. -/
inductive Reaches (nx : ν → Option ν) : Option ν → ν → Prop where
  | here (x : ν) : Reaches nx (some x) x
  | next {x y : ν} (h : Reaches nx (nx y) x) : Reaches nx (some y) x

/-- The walk from `cur` through the next pointers ends. -/
inductive Ends (nx : ν → Option ν) : Option ν → Prop where
  | nil : Ends nx none
  | next {x : ν} (h : Ends nx (nx x)) : Ends nx (some x)

section

variable {nx pv nx' pv' : ν → Option ν} {b head : Option ν} {l l₁ l₂ : List ν} {x : ν}

theorem not_ends_self (h : nx x = some x) : ¬ Ends nx (some x) := by
  intro he
  generalize ho : some x = o at he
  induction he with
  | nil => exact absurd ho (by simp)
  | next _ ih =>
    obtain rfl := Option.some.inj ho
    exact ih h.symm

theorem Linked.congr (h : Linked nx pv b l) (hn : ∀ y ∈ l, nx' y = nx y)
    (hp : ∀ y ∈ l, pv' y = pv y) : Linked nx' pv' b l := by
  induction l generalizing b with
  | nil => trivial
  | cons x xs ih =>
    obtain ⟨h1, h2, h3⟩ := h
    refine ⟨(hp x (by simp)).trans h1, (hn x (by simp)).trans h2, ih h3 ?_ ?_⟩
    · exact fun y hy => hn y (by simp [hy])
    · exact fun y hy => hp y (by simp [hy])

theorem IsDList.congr (h : IsDList nx pv head l) (hn : ∀ y ∈ l, nx' y = nx y)
    (hp : ∀ y ∈ l, pv' y = pv y) : IsDList nx' pv' head l :=
  ⟨h.head_eq, h.linked.congr hn hp, h.nodup⟩

theorem IsDList.nil : IsDList nx pv none [] := ⟨rfl, trivial, List.nodup_nil⟩

/-- The neighbours of a node. -/
theorem Linked.neighbours (h : Linked nx pv b (l₁ ++ x :: l₂)) :
    nx x = l₂.head? ∧ pv x = l₁.getLast?.or b := by
  induction l₁ generalizing b with
  | nil => exact ⟨h.2.1, by simpa using h.1⟩
  | cons w ws ih =>
    obtain ⟨h1, h2⟩ := ih h.2.2
    refine ⟨h1, h2.trans ?_⟩
    cases ws with
    | nil => simp
    | cons v vs => simp [List.getLast?_cons]

/-- A new node is put in front. -/
theorem IsDList.push [DecidableEq ν] (h : IsDList nx pv head l) (hx : x ∉ l)
    (hnx : nx' x = head) (hpx : pv' x = none) (hn : ∀ y ∈ l, nx' y = nx y)
    (hp : ∀ y ∈ l, pv' y = if head = some y then some x else pv y) :
    IsDList nx' pv' (some x) (x :: l) := by
  refine ⟨rfl, ⟨hpx, hnx.trans h.head_eq, ?_⟩, List.nodup_cons.mpr ⟨hx, h.nodup⟩⟩
  cases l with
  | nil => trivial
  | cons y ys =>
    obtain ⟨-, h2, h3⟩ := h.linked
    have hhead : head = some y := h.head_eq
    have hy : y ∉ ys := (List.nodup_cons.mp h.nodup).1
    refine ⟨?_, (hn y (by simp)).trans h2, h3.congr ?_ ?_⟩
    · rw [hp y (by simp), if_pos hhead]
    · exact fun z hz => hn z (by simp [hz])
    · intro z hz
      rw [hp z (by simp [hz]), if_neg]
      rintro hc
      rw [hhead] at hc
      exact hy (Option.some.inj hc ▸ hz)

/-- The neighbours of a node are joined, and the list goes on without the node. -/
theorem Linked.unlink [DecidableEq ν] (h : Linked nx pv b (l₁ ++ x :: l₂))
    (hnd : (l₁ ++ x :: l₂).Nodup) (hb : ∀ w, b = some w → w ∉ l₁ ++ x :: l₂)
    (hn : ∀ y ∈ l₁ ++ l₂, nx' y = if pv x = some y then nx x else nx y)
    (hp : ∀ y ∈ l₁ ++ l₂, pv' y = if nx x = some y then pv x else pv y) :
    Linked nx' pv' b (l₁ ++ l₂) := by
  induction l₁ generalizing b with
  | nil =>
    obtain ⟨h1, h2, h3⟩ := h
    rw [List.nil_append] at *
    obtain ⟨-, hnd⟩ := List.nodup_cons.mp hnd
    have hbx : ∀ y ∈ l₂, pv x ≠ some y := fun y hy hc => hb y (h1.symm.trans hc) (by simp [hy])
    cases l₂ with
    | nil => trivial
    | cons y ys =>
      obtain ⟨-, h5, h6⟩ := h3
      have hy : y ∉ ys := (List.nodup_cons.mp hnd).1
      refine ⟨?_, ?_, h6.congr (fun z hz => ?_) (fun z hz => ?_)⟩
      · rw [hp y (by simp), if_pos (by simpa using h2), h1]
      · rw [hn y (by simp), if_neg (hbx y (by simp)), h5]
      · rw [hn z (by simp [hz]), if_neg (hbx z (by simp [hz]))]
      · rw [hp z (by simp [hz]), if_neg]
        intro hc
        rw [h2] at hc
        exact hy (Option.some.inj hc ▸ hz)
  | cons w ws ih =>
    obtain ⟨hnext, hprev⟩ := @Linked.neighbours _ _ _ _ (w :: ws) _ _ h
    obtain ⟨h1, h2, h3⟩ := h
    rw [List.cons_append] at hnd
    obtain ⟨hw, hnd⟩ := List.nodup_cons.mp hnd
    refine ⟨?_, ?_, ih h3 hnd ?_ ?_ ?_⟩
    · rw [hp w (by simp), if_neg, h1]
      rw [hnext]
      intro hc
      exact hw (by simp [List.mem_of_mem_head? hc])
    · rw [hn w (by simp)]
      cases ws with
      | nil =>
        rw [if_pos (by simpa using hprev), hnext]
        rfl
      | cons v vs =>
        rw [if_neg, h2]
        · rfl
        · rw [hprev]
          intro hc
          have hmem : w ∈ v :: vs := by
            apply List.mem_of_getLast?
            simpa [List.getLast?_cons_cons] using hc
          exact hw (List.mem_append_left _ hmem)
    · intro z hz
      rw [← Option.some.inj hz]
      exact hw
    · exact fun y hy => hn y (by simp at hy ⊢; tauto)
    · exact fun y hy => hp y (by simp at hy ⊢; tauto)

/-- A node that is not the first one is unlinked: the head stays. -/
theorem IsDList.unlink [DecidableEq ν] (h : IsDList nx pv head (l₁ ++ x :: l₂)) (hne : l₁ ≠ [])
    (hn : ∀ y ∈ l₁ ++ l₂, nx' y = if pv x = some y then nx x else nx y)
    (hp : ∀ y ∈ l₁ ++ l₂, pv' y = if nx x = some y then pv x else pv y) :
    IsDList nx' pv' head (l₁ ++ l₂) := by
  refine ⟨?_, h.linked.unlink h.nodup (by simp) hn hp, ?_⟩
  · rw [h.head_eq]
    cases l₁ with
    | nil => exact absurd rfl hne
    | cons w ws => rfl
  · exact h.nodup.sublist (List.Sublist.append_left (List.sublist_cons_self x l₂) l₁)

/-- The first node is unlinked, and the head moves on. -/
theorem IsDList.pop [DecidableEq ν] (h : IsDList nx pv head (x :: l))
    (hn : ∀ y ∈ l, nx' y = nx y) (hp : ∀ y ∈ l, pv' y = if nx x = some y then none else pv y) :
    IsDList nx' pv' (nx x) l := by
  obtain ⟨h1, h2, -⟩ := h.linked
  refine ⟨h2, ?_, (List.nodup_cons.mp h.nodup).2⟩
  refine @Linked.unlink _ _ _ _ _ _ [] _ _ _ h.linked h.nodup (by simp) (fun y hy => ?_) (fun y hy => ?_)
  · rw [hn y hy, if_neg (by simp [h1])]
  · rw [hp y hy, h1]

/-! ## Walking along a list -/

theorem Linked.reaches_iff (h : Linked nx pv b l) : Reaches nx l.head? x ↔ x ∈ l := by
  constructor
  · intro hr
    induction l generalizing b with
    | nil => cases hr
    | cons y ys ih =>
      obtain ⟨-, hnext, hrest⟩ := h
      cases hr with
      | here => exact List.mem_cons_self
      | next hr =>
        rw [hnext] at hr
        exact List.mem_cons_of_mem _ (ih hrest hr)
  · intro hx
    induction l generalizing b with
    | nil => exact absurd hx List.not_mem_nil
    | cons y ys ih =>
      obtain ⟨-, hnext, hrest⟩ := h
      rcases List.mem_cons.mp hx with rfl | hx
      · exact .here _
      · refine .next ?_
        rw [hnext]
        exact ih hrest hx

/-- Forwards the list is a singly linked one. -/
theorem Linked.chained (h : Linked nx pv b l) : SList.Chained nx l.head? l := by
  induction l generalizing b with
  | nil => rfl
  | cons y ys ih =>
    obtain ⟨-, hnext, hrest⟩ := h
    refine ⟨rfl, ?_⟩
    rw [hnext]
    exact ih hrest

theorem IsDList.chained (h : IsDList nx pv head l) : SList.Chained nx head l := h.head_eq ▸ h.linked.chained

theorem IsDList.reaches_iff (h : IsDList nx pv head l) : Reaches nx head x ↔ x ∈ l :=
  h.head_eq ▸ h.linked.reaches_iff

/-- Looks for a node along the next pointers, at most `fuel` nodes far. -/
def find [DecidableEq ν] (nx : ν → Option ν) (x : ν) : ℕ → Option ν → Bool
  | 0, _ => false
  | _ + 1, none => false
  | fuel + 1, some y => if y = x then true else find nx x fuel (nx y)

/-- With fuel for the whole list the search finds exactly its nodes. -/
theorem IsDList.find_iff [DecidableEq ν] (h : IsDList nx pv head l) {fuel : ℕ}
    (hf : l.length < fuel) : find nx x fuel head = true ↔ x ∈ l := by
  obtain ⟨rfl, hl, -⟩ := h
  generalize none = b at hl
  induction l generalizing b fuel with
  | nil =>
    obtain ⟨fuel, rfl⟩ := Nat.exists_eq_succ_of_ne_zero (Nat.ne_of_gt hf)
    simp [find]
  | cons y ys ih =>
    obtain ⟨fuel, rfl⟩ := Nat.exists_eq_succ_of_ne_zero (Nat.ne_of_gt (Nat.zero_lt_of_lt hf))
    obtain ⟨-, h2, h3⟩ := hl
    have hfuel : ys.length < fuel := by simpa using hf
    have := ih hfuel _ h3
    simp only [List.head?_cons, find, h2]
    by_cases hy : y = x
    · simp [hy]
    · rw [if_neg hy, this]
      simp [Ne.symm hy]

end

end DList
