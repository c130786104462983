import Kenux.Cfs.Model
import Kenux.Lib.RbTree.Footprint

/-!
# The sentinel stands for a null pointer

Where the algorithms on null pointers do not fail, those of the code do the same, as long as the sentinel is
black; its parent is what `__delete_fixup` reads as the parent of a missing child.
-/

namespace Cfs

open RbTree
open Function (update_self update_of_ne)

variable {α : Type*} {s s' : Timeline α} {h' : Heap α} {a w w' : α} {x y : Option α} {d e : Side} {c : Color}

/-- The sentinel is as it was. -/
def NilKept (s s' : Timeline α) : Prop := s'.node none = s.node none

theorem NilKept.refl (s : Timeline α) : NilKept s s := rfl

theorem NilKept.trans {s'' : Timeline α} (h : NilKept s s') (h' : NilKept s' s'') : NilKept s s'' :=
  Eq.trans h' h

theorem NilKept.color (h : NilKept s s') (hnil : s.color none = .black) : s'.color none = .black := by
  unfold Timeline.color
  rw [h]
  exact hnil

theorem color_eq (hnil : s.color none = .black) : s.color x = (heap s).colorOf x := by
  cases x with
  | none => exact hnil
  | some a => rfl

theorem heap_setRoot : heap (s.setRoot y) = (heap s).setRoot y := rfl

section

variable [DecidableEq α]

theorem heap_mod (f : Node α → Node α) : heap (s.mod (some a) f) = (heap s).mod a f := by
  have hnode : (fun b => Function.update s.node (some a) (f (s.node (some a))) (some b)) =
      Function.update (fun b => s.node (some b)) a (f (s.node (some a))) := by
    funext b
    by_cases hb : b = a
    · subst hb
      rw [update_self, update_self]
    · rw [update_of_ne hb, update_of_ne fun heq => hb (Option.some.inj heq)]
  unfold heap Timeline.mod Heap.mod
  rw [hnode]

theorem heap_mod_none (f : Node α → Node α) : heap (s.mod none f) = heap s := rfl

theorem heap_setChild : heap (s.setChild (some a) d y) = (heap s).setChild a d y := heap_mod _

theorem heap_setParent : heap (s.setParent x y) = (heap s).setParentOf x y := by
  cases x with
  | none => exact heap_mod_none _
  | some a => exact heap_mod _

theorem heap_setColor : heap (s.setColor x c) = (heap s).setColorOf x c := by
  cases x with
  | none => exact heap_mod_none _
  | some a => exact heap_mod _

theorem setColor_nilKept : NilKept s (s.setColor (some a) c) := rfl

@[simp] theorem parent_setColor : (s.setColor x c).parent y = s.parent y := by
  show (Function.update s.node x { s.node x with color := c } y).parent = (s.node y).parent
  by_cases hyx : y = x
  · rw [hyx, update_self]
  · rw [update_of_ne hyx]

@[simp] theorem parent_setChild {z : Option α} : (s.setChild x d y).parent z = s.parent z := by
  show (Function.update s.node x ((s.node x).setChild d y) z).parent = (s.node z).parent
  by_cases hzx : z = x
  · rw [hzx, update_self]
    rfl
  · rw [update_of_ne hzx]

@[simp] theorem parent_relink {u z : Option α} : (s.relink d u y).parent z = s.parent z := by
  unfold Timeline.relink
  split_ifs
  · rfl
  · exact parent_setChild
  · exact parent_setChild

@[simp] theorem color_setParent {z : Option α} : (s.setParent x y).color z = s.color z := by
  show (Function.update s.node x { s.node x with parent := y } z).color = (s.node z).color
  by_cases hzx : z = x
  · rw [hzx, update_self]
  · rw [update_of_ne hzx]

theorem parent_setParent_self : (s.setParent x y).parent x = y := by
  show (Function.update s.node x { s.node x with parent := y } x).parent = y
  rw [update_self]

/-- A black sentinel is made black. -/
theorem blacken_nilKept (hnil : s.color none = .black) : NilKept s (s.setColor x .black) := by
  cases x with
  | some a => rfl
  | none =>
    have hnode : { s.node none with color := .black } = s.node none := by
      rw [← hnil]
      rfl
    show Function.update s.node none { s.node none with color := .black } none = s.node none
    rw [update_self]
    exact hnode

theorem heap_relink :
    heap (s.relink d (some a) y) = (heap s).relink d (s.parent (some a)) (some a) y := by
  unfold Timeline.relink Heap.relink
  cases hp : s.parent (some a) with
  | none => rfl
  | some p =>
    rw [if_neg (by rintro ⟨⟩)]
    have hiff : some a = s.child (some p) d ↔ ((heap s).node p).child d = some a := eq_comm
    simp only [hiff]
    split_ifs
    · exact heap_setChild
    · exact heap_setChild

theorem relink_nilKept : NilKept s (s.relink d (some a) y) := by
  unfold Timeline.relink
  cases s.parent (some a) with
  | none => rfl
  | some p =>
    rw [if_neg (by rintro ⟨⟩)]
    split_ifs
    · rfl
    · rfl

/-! ## The rounds -/

theorem rotate_sim (h : (heap s).rotate d a = some h') :
    heap (rotate d (some a) s) = h' ∧ NilKept s (rotate d (some a) s) := by
  unfold Heap.rotate at h
  obtain ⟨right, hright, h⟩ := Option.bind_eq_some_iff.mp h
  obtain rfl := Option.some.inj h
  have hchild : s.child (some a) d.other = some right := hright
  have hinner : (s.setChild (some a) d.other (s.child (some right) d)).child (some right) d =
      s.child (some right) d := by
    unfold Timeline.child Timeline.setChild Timeline.mod
    dsimp only
    by_cases hra : some right = some a
    · rw [hra, update_self]
      exact update_of_ne d.other_ne.symm ..
    · rw [update_of_ne hra]
  have hguard : ∀ (t : Timeline α) (q : Option α), heap (if q ≠ none then t.setParent q (some a) else t) =
      (heap t).setParentOf q (some a) ∧ NilKept t (if q ≠ none then t.setParent q (some a) else t) := by
    intro t q
    cases q with
    | none => exact ⟨rfl, rfl⟩
    | some b => exact ⟨heap_setParent, rfl⟩
  unfold rotate
  dsimp only
  rw [hchild, hinner]
  obtain ⟨hheap, hkept⟩ := hguard (s.setChild (some a) d.other (s.child (some right) d)) (s.child (some right) d)
  generalize hs₂ : (if s.child (some right) d ≠ none then
    (s.setChild (some a) d.other (s.child (some right) d)).setParent (s.child (some right) d) (some a)
    else s.setChild (some a) d.other (s.child (some right) d)) = s₂ at hheap hkept ⊢
  constructor
  · have hparent : ∀ t : Timeline α, t.parent (some a) = ((heap t).node a).parent := fun _ => rfl
    rw [heap_setParent, heap_setChild, heap_relink, hparent, heap_setParent, hparent, hheap, heap_setChild,
      heap_setParent, hheap, heap_setChild]
    rfl
  · have hrelink : NilKept (s₂.setParent (some right) (s₂.parent (some a)))
        ((s₂.setParent (some right) (s₂.parent (some a))).relink d (some a) (some right)) := relink_nilKept
    exact hkept.trans hrelink

theorem insertTurn_sim {p p' : α} (hp : s.parent (some a) = some p)
    (h : turnInner Heap.rotate d a p (heap s) = some (w', p', h')) :
    ∃ s', insertTurn d (some a) s = (some w', s') ∧ heap s' = h' ∧ NilKept s s' := by
  unfold turnInner at h
  unfold insertTurn
  rw [hp]
  have hiff : some a = s.child (some p) d.other ↔ ((heap s).node p).child d.other = some a := eq_comm
  simp only [hiff]
  split_ifs at h with hinner
  · obtain ⟨h₁, hrot, h⟩ := Option.bind_eq_some_iff.mp h
    obtain ⟨rfl, hpair⟩ := Prod.mk.inj (Option.some.inj h)
    obtain ⟨rfl, rfl⟩ := Prod.mk.inj hpair
    obtain ⟨hheap, hkept⟩ := rotate_sim hrot
    exact ⟨_, if_pos hinner, hheap, hkept⟩
  · obtain ⟨rfl, hpair⟩ := Prod.mk.inj (Option.some.inj h)
    obtain ⟨rfl, rfl⟩ := Prod.mk.inj hpair
    exact ⟨s, if_neg hinner, rfl, .refl s⟩

/-- What is read as the parent of `x` in the memory without the sentinel. -/
def parentIn (s₀ : Timeline α) (x : Option α) (h : Heap α) : Option α :=
  match x with
  | some a => (h.node a).parent
  | none => s₀.parent none

omit [DecidableEq α] in
theorem parentIn_eq {s₀ : Timeline α} (h : NilKept s₀ s) : parentIn s₀ x (heap s) = s.parent x := by
  cases x with
  | some a => rfl
  | none =>
    unfold parentIn Timeline.parent
    rw [h]

section

variable {s₀ : Timeline α} (hs : NilKept s₀ s) (hnil : s₀.color none = .black)

include hs hnil

theorem deleteTurnSibling_sim (h : turnSibling Heap.rotate (parentIn s₀ x) d w (heap s) = some (w', h')) :
    ∃ s', deleteTurnSibling d x (some w) s = (some w', s') ∧ heap s' = h' ∧ NilKept s₀ s' := by
  unfold turnSibling at h
  unfold deleteTurnSibling
  rw [color_eq (hs.color hnil)]
  by_cases hred : (heap s).colorOf (some w) = .red
  · have hred' : ((heap s).node w).color = .red := hred
    rw [if_pos hred'] at h
    obtain ⟨p₁, hp₁, h⟩ := Option.bind_eq_some_iff.mp h
    obtain ⟨p₂, hp₂, h⟩ := Option.bind_eq_some_iff.mp h
    obtain ⟨h₁, hrot, h⟩ := Option.bind_eq_some_iff.mp h
    obtain ⟨p₃, hp₃, h⟩ := Option.bind_eq_some_iff.mp h
    obtain ⟨v, hv, h⟩ := Option.bind_eq_some_iff.mp h
    obtain ⟨rfl, rfl⟩ := Prod.mk.inj (Option.some.inj h)
    have hs₁ : NilKept s₀ (s.setColor (some w) .black) := hs
    have hheap₁ : heap (s.setColor (some w) .black) = (heap s).setColor w .black := heap_setColor
    have hs₂ : NilKept s₀ ((s.setColor (some w) .black).setColor (some p₁) .red) := hs
    have hheap₂ : heap ((s.setColor (some w) .black).setColor (some p₁) .red) =
        (heap (s.setColor (some w) .black)).setColor p₁ .red := heap_setColor
    rw [← hheap₁, parentIn_eq hs₁] at hp₁
    rw [← hheap₁, ← hheap₂, parentIn_eq hs₂] at hp₂
    rw [← hheap₁, ← hheap₂] at hrot
    obtain ⟨hheap₃, hkept⟩ := rotate_sim hrot
    have hs₃ := hs₂.trans hkept
    rw [← hheap₃, parentIn_eq hs₃] at hp₃
    have hchild : (rotate d (some p₂) ((s.setColor (some w) .black).setColor (some p₁) .red)).child (some p₃) d.other =
        some v := by
      rw [← hheap₃] at hv
      exact hv
    refine ⟨_, ?_, hheap₃, hs₃⟩
    rw [if_pos hred]
    dsimp only
    rw [hp₁, hp₂, hp₃, hchild]
  · rw [if_neg hred]
    have hred' : ¬((heap s).node w).color = .red := hred
    rw [if_neg hred'] at h
    obtain ⟨rfl, rfl⟩ := Prod.mk.inj (Option.some.inj h)
    exact ⟨s, rfl, rfl, hs⟩

theorem deleteTurnNephew_sim (h : turnNephew Heap.rotate (parentIn s₀ x) d w (heap s) = some (w', h')) :
    ∃ s', deleteTurnNephew d x (some w) s = (some w', s') ∧ heap s' = h' ∧ NilKept s₀ s' := by
  unfold turnNephew at h
  unfold deleteTurnNephew
  rw [color_eq (hs.color hnil)]
  have hfar : s.child (some w) d.other = ((heap s).node w).child d.other := rfl
  rw [hfar]
  split_ifs at h with hblack
  · obtain ⟨near, hnear, h⟩ := Option.bind_eq_some_iff.mp h
    obtain ⟨h₁, hrot, h⟩ := Option.bind_eq_some_iff.mp h
    obtain ⟨p, hp, h⟩ := Option.bind_eq_some_iff.mp h
    obtain ⟨v, hv, h⟩ := Option.bind_eq_some_iff.mp h
    obtain ⟨rfl, rfl⟩ := Prod.mk.inj (Option.some.inj h)
    have hnear : s.child (some w) d = some near := hnear
    have hs₁ : NilKept s₀ ((s.setColor (some near) .black).setColor (some w) .red) := hs
    have hheap₁ : heap ((s.setColor (some near) .black).setColor (some w) .red) =
        ((heap s).setColor near .black).setColor w .red := by
      rw [heap_setColor, heap_setColor]
      rfl
    rw [← hheap₁] at hrot
    obtain ⟨hheap₂, hkept⟩ := rotate_sim hrot
    have hs₂ := hs₁.trans hkept
    rw [← hheap₂, parentIn_eq hs₂] at hp
    have hchild : (rotate d.other (some w) ((s.setColor (some near) .black).setColor (some w) .red)).child (some p)
        d.other = some v := by
      rw [← hheap₂] at hv
      exact hv
    refine ⟨_, ?_, hheap₂, hs₂⟩
    rw [if_pos hblack, hnear]
    dsimp only
    rw [hp, hchild]
  · obtain ⟨rfl, rfl⟩ := Prod.mk.inj (Option.some.inj h)
    exact ⟨s, if_neg hblack, rfl, hs⟩

theorem deleteTurnParent_sim (h : turnParent Heap.rotate (parentIn s₀ x) d w (heap s) = some h') :
    heap (deleteTurnParent d x (some w) s) = h' ∧ NilKept s₀ (deleteTurnParent d x (some w) s) := by
  unfold turnParent at h
  obtain ⟨p₁, hp₁, h⟩ := Option.bind_eq_some_iff.mp h
  obtain ⟨p₂, hp₂, h⟩ := Option.bind_eq_some_iff.mp h
  obtain ⟨p₃, hp₃, h⟩ := Option.bind_eq_some_iff.mp h
  rw [parentIn_eq hs] at hp₁
  have hs₁ : NilKept s₀ (s.setColor (some w) (s.color (some p₁))) := hs
  have hheap₁ : heap (s.setColor (some w) (s.color (some p₁))) =
      (heap s).setColor w ((heap s).node p₁).color := heap_setColor
  rw [← hheap₁, parentIn_eq hs₁] at hp₂
  have hs₂ : NilKept s₀ ((s.setColor (some w) (s.color (some p₁))).setColor (some p₂) .black) := hs
  have hheap₂ : heap ((s.setColor (some w) (s.color (some p₁))).setColor (some p₂) .black) =
      (heap (s.setColor (some w) (s.color (some p₁)))).setColor p₂ .black := heap_setColor
  rw [← hheap₁, ← hheap₂] at hp₃ h
  unfold deleteTurnParent
  dsimp only
  rw [hp₁, hp₂]
  generalize (s.setColor (some w) (s.color (some p₁))).setColor (some p₂) .black = s₂ at hp₃ h hs₂ ⊢
  have hs₃ : NilKept s₀ (s₂.setColor (s₂.child (some w) d.other) .black) :=
    hs₂.trans (blacken_nilKept (hs₂.color hnil))
  have hheap₃ : heap (s₂.setColor (s₂.child (some w) d.other) .black) =
      (heap s₂).setColorOf (((heap s₂).node w).child d.other) .black := heap_setColor
  rw [← hheap₃] at hp₃ h
  rw [parentIn_eq hs₃] at hp₃
  rw [hp₃]
  obtain ⟨hheap, hkept⟩ := rotate_sim h
  exact ⟨hheap, hs₃.trans hkept⟩

theorem deleteRound_sim {done : Bool} (hside : (if x = s.child (s.parent x) .left then Side.left else .right) = d)
    (h : RbTree.deleteRound Heap.rotate (parentIn s₀ x) d (heap s) = some (done, h')) :
    ∃ x' s', deleteRound x s = (x', s') ∧ heap s' = h' ∧ NilKept s₀ s' ∧
      if done then x' = s'.root else x' = s'.parent x := by
  unfold RbTree.deleteRound at h
  obtain ⟨p, hp, h⟩ := Option.bind_eq_some_iff.mp h
  obtain ⟨w, hw, h⟩ := Option.bind_eq_some_iff.mp h
  obtain ⟨⟨w₁, h₁⟩, hturn, h⟩ := Option.bind_eq_some_iff.mp h
  rw [parentIn_eq hs] at hp
  obtain ⟨s₁, hs₁, rfl, hkept₁⟩ := deleteTurnSibling_sim hs hnil hturn
  have hw : s.child (some p) d.other = some w := hw
  unfold deleteRound
  dsimp only at h ⊢
  rw [hside, hp, hw, hs₁]
  dsimp only
  rw [color_eq (hkept₁.color hnil), color_eq (hkept₁.color hnil)]
  have hnear : s₁.child (some w₁) d = ((heap s₁).node w₁).child d := rfl
  have hfar : s₁.child (some w₁) d.other = ((heap s₁).node w₁).child d.other := rfl
  rw [hnear, hfar]
  split_ifs at h with hblack
  · obtain ⟨rfl, rfl⟩ := Prod.mk.inj (Option.some.inj h)
    rw [if_pos hblack]
    exact ⟨_, _, rfl, heap_setColor, hkept₁, rfl⟩
  · obtain ⟨⟨w₂, h₂⟩, hneph, h⟩ := Option.bind_eq_some_iff.mp h
    obtain ⟨h₃, hlast, h⟩ := Option.bind_eq_some_iff.mp h
    obtain ⟨rfl, rfl⟩ := Prod.mk.inj (Option.some.inj h)
    obtain ⟨s₂, hs₂, rfl, hkept₂⟩ := deleteTurnNephew_sim hkept₁ hnil hneph
    obtain ⟨hheap, hkept₃⟩ := deleteTurnParent_sim hkept₂ hnil hlast
    rw [if_neg hblack, hs₂]
    exact ⟨_, _, rfl, hheap, hkept₃, rfl⟩

end

end

end Cfs
