import Kenux.Lib.RbTree.Rebalance

/-!
# Search trees and their order

Where a new node belongs (`Fits`), and the way from a node to the next one in order.
-/

namespace RbTree

open CTree

variable {α : Type*}

/-- The nodes in order never go down. -/
def CTree.Sorted (le : α → α → Prop) (t : CTree α) : Prop := t.toList.Pairwise le

/-- The node belongs into the hole. -/
structure Fits (le : α → α → Prop) (x : α) (k : List (Crumb α)) : Prop where
  before : ∀ y ∈ before k, le y x
  after : ∀ y ∈ after k, le x y

section

variable {le : α → α → Prop} {k : List (Crumb α)} {t u l r : CTree α} {c : Color} {x y : α}

theorem fits_nil : Fits le x [] := ⟨by rintro y ⟨⟩, by rintro y ⟨⟩⟩

theorem Fits.left (h : Fits le x k) (htrans : ∀ a b c, le a b → le b c → le a c)
    (ht : (node c l y r).Sorted le) (hxy : le x y) : Fits le x (⟨.left, c, y, r⟩ :: k) := by
  refine ⟨fun z hz => ?_, fun z hz => ?_⟩
  · unfold RbTree.before at hz
    rw [List.append_nil] at hz
    exact h.before z hz
  · unfold RbTree.after at hz
    have hr := (List.pairwise_cons.mp (List.pairwise_append.mp ht).2.1).1
    rcases List.mem_append.mp hz with hz | hz
    · rcases List.mem_cons.mp hz with rfl | hz
      · exact hxy
      · exact htrans _ _ _ hxy (hr z hz)
    · exact h.after z hz

theorem Fits.right (h : Fits le x k) (htrans : ∀ a b c, le a b → le b c → le a c)
    (ht : (node c l y r).Sorted le) (hyx : le y x) : Fits le x (⟨.right, c, y, l⟩ :: k) := by
  refine ⟨fun z hz => ?_, fun z hz => ?_⟩
  · unfold RbTree.before at hz
    have hl := (List.pairwise_append.mp ht).2.2
    rcases List.mem_append.mp hz with hz | hz
    · exact h.before z hz
    · rcases List.mem_append.mp hz with hz | hz
      · exact htrans _ _ _ (hl z hz y List.mem_cons_self) hyx
      · obtain rfl := List.mem_singleton.mp hz
        exact hyx
  · exact h.after z hz

/-- A node that fits keeps the tree sorted. -/
theorem Fits.sorted (h : Fits le x k) (ht : (plug k nil).Sorted le) :
    (plug k (node c nil x nil)).Sorted le := by
  unfold CTree.Sorted at ht ⊢
  rw [toList_plug] at ht ⊢
  have ht : (RbTree.before k ++ [] ++ RbTree.after k).Pairwise le := ht
  rw [List.append_nil] at ht
  obtain ⟨hb, ha, hba⟩ := List.pairwise_append.mp ht
  show (RbTree.before k ++ [x] ++ RbTree.after k).Pairwise le
  rw [List.append_assoc]
  refine List.pairwise_append.mpr ⟨hb, List.pairwise_cons.mpr ⟨h.after, ha⟩, fun y hy z hz => ?_⟩
  rcases List.mem_cons.mp hz with rfl | hz
  · exact h.before y hy
  · exact hba y hy z hz

end

/-! ## The walk down -/

/-- The walk from a node to a null pointer, by a choice at each node; the links passed, the last one first. -/
def descend (side : α → Side) (s : Heap α) : ℕ → Option α → List (α × Side) → Option (List (α × Side))
  | 0, _, _ => none
  | _ + 1, none, path => some path
  | fuel + 1, some x, path => descend side s fuel ((s.node x).child (side x)) ((x, side x) :: path)

/-- The links from the root to the hole, the last one first. -/
def links (k : List (Crumb α)) : List (α × Side) := k.map fun f => (f.node, f.side)

section

variable {le : α → α → Prop} {s : Heap α} {k : List (Crumb α)} {t : CTree α} {x : α} {fuel : ℕ} {side : α → Side}

theorem links_fst (k : List (Crumb α)) : (links k).head?.map Prod.fst = top k := by
  cases k <;> rfl

/-- A red leaf is linked to the end of the walk. -/
theorem Represents.linked [DecidableEq α] {s' : Heap α} (h : Represents s (plug k nil)) (hx : x ∉ ctxNodes k)
    (hnode : IsNode (s'.node x) .left .red none none (top k)) (hroot : s'.root = s.root)
    (hother : ∀ y, y ≠ x → s'.node y = s.node y) :
    Represents (match (links k).head? with
      | some (parent, d) => s'.setChild parent d (some x)
      | none => s'.setRoot (some x)) (plug k (node .red nil x nil)) := by
  cases k with
  | nil => exact h.attached hx hnode rfl fun y hy _ => hother y hy
  | cons f k =>
    have hf : f.node ≠ x := fun heq => hx (heq ▸ List.mem_cons_self)
    refine h.attached hx ?_ ⟨hroot, ?_⟩ fun y hy hty => ?_
    · show IsNode ((s'.setChild f.node f.side (some x)).node x) .left .red none none (top (f :: k))
      rwa [node_setChild, if_neg (Ne.symm hf)]
    · show (s'.setChild f.node f.side (some x)).node f.node = _
      rw [node_setChild, if_pos rfl, hother f.node hf]
    · have hyf : y ≠ f.node := fun heq => hty (by rw [heq]; rfl)
      show (s'.setChild f.node f.side (some x)).node y = _
      rw [node_setChild, if_neg hyf, hother y hy]

/-- A hole that is reached to the left only has nothing before it. -/
theorem before_eq_nil (k : List (Crumb α)) : before k = [] ↔ ∀ f ∈ k, f.side = .left := by
  induction k with
  | nil => exact iff_of_true rfl (by rintro f ⟨⟩)
  | cons f k ih =>
    show before k ++ _ = [] ↔ _
    rw [List.append_eq_nil_iff, ih, List.forall_mem_cons, and_comm]
    cases f.side with
    | left => exact and_congr_left' (iff_of_true rfl rfl)
    | right => exact and_congr_left' (iff_of_false (by simp) (by rintro ⟨⟩))

/-- The walk ends at a hole that the new node fits into. -/
theorem descend_spec (htrans : ∀ a b c, le a b → le b c → le a c)
    (hside : ∀ y, match side y with | .left => le x y | .right => le y x)
    (h : Represents s (plug k t)) (ht : t.Sorted le) (hfit : Fits le x k) (hfuel : t.toList.length < fuel) :
    ∃ k', descend side s fuel t.root (links k) = some (links k') ∧ plug k' nil = plug k t ∧ Fits le x k' := by
  induction fuel generalizing t k with
  | zero => omega
  | succ fuel ih =>
    cases t with
    | nil => exact ⟨k, rfl, rfl, hfit⟩
    | node c l b r =>
      have hnode := Represents.isNode (d := .left) (t := l) (u := r) h
      have hlen : (CTree.node c l b r).toList.length = l.toList.length + r.toList.length + 1 := by
        simp [toList]
        omega
      have hb := hside b
      show ∃ k', descend side s fuel ((s.node b).child (side b)) ((b, side b) :: links k) = _ ∧ _
      cases hd : side b with
      | left =>
        rw [hd] at hb
        rw [hnode.near]
        exact ih (k := ⟨.left, c, b, r⟩ :: k) (t := l) h (List.pairwise_append.mp ht).1
          (hfit.left htrans ht hb) (by omega)
      | right =>
        rw [hd] at hb
        have hfar : (s.node b).child .right = r.root := hnode.far
        rw [hfar]
        exact ih (k := ⟨.right, c, b, l⟩ :: k) (t := r) h
          (List.pairwise_cons.mp (List.pairwise_append.mp ht).2.1).2 (hfit.right htrans ht hb) (by omega)

end

/-! ## The leftmost node -/

section

variable {s : Heap α} {k : List (Crumb α)} {t : CTree α} {a : α} {fuel : ℕ}

/-- The leftmost node below a node. -/
def leftmost (s : Heap α) : ℕ → α → Option α
  | 0, _ => none
  | fuel + 1, x =>
    match (s.node x).child .left with
    | some left => leftmost s fuel left
    | none => some x

/-- The leftmost node below a node is the first of its subtree. -/
theorem leftmost_spec (h : Represents s (plug k t)) (ht : t.root = some a) (hfuel : t.toList.length ≤ fuel) :
    ∃ k' c y u, leftmost s fuel a = some y ∧ t = plug k' (.node c nil y u) ∧ before k' = [] := by
  induction fuel generalizing t k a with
  | zero =>
    have hmem := List.length_pos_of_mem (mem_toList_root ht)
    omega
  | succ fuel ih =>
    obtain ⟨c, l, r, rfl⟩ := exists_join ht .left
    have hnear : (s.node a).child .left = l.root := h.isNode.near
    unfold leftmost
    rw [hnear]
    cases hl : l.root with
    | none =>
      rw [root_eq_none.mp hl]
      exact ⟨[], c, a, r, rfl, rfl, rfl⟩
    | some b =>
      have hlen : (join .left c l a r).toList.length = l.toList.length + r.toList.length + 1 := by
        simp [join, toList]
        omega
      obtain ⟨k', c', y, u, hy, hplug, hb⟩ := ih (k := ⟨.left, c, a, r⟩ :: k) (t := l) h hl (by omega)
      refine ⟨k' ++ [⟨.left, c, a, r⟩], c', y, u, hy, ?_, ?_⟩
      · rw [plug_append, ← hplug]
        rfl
      · rw [before_append, hb, List.append_nil]
        rfl

/-- The leftmost node is the first in order. -/
theorem leftmost_head (h : Represents s (plug k t)) (ht : t.root = some a) (hfuel : t.toList.length ≤ fuel) :
    (leftmost s fuel a).map some = some t.toList.head? := by
  obtain ⟨k', c, y, u, hy, rfl, hb⟩ := leftmost_spec h ht hfuel
  rw [hy, toList_plug, hb]
  rfl

end

end RbTree
