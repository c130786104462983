import Kenux.Lib.RbTree.Splice

/-!
# What the algorithms leave alone

A set of nodes is closed if no pointer leads out of it. The algorithms, started in a closed set, keep it
closed and write to its nodes only; so trees without common nodes can be in one memory.
-/

namespace RbTree

open CTree

variable {α : Type*} {F : Set α} {s s' : Heap α}

/-- The pointer is null or leads into the set. -/
def Inside (F : Set α) (p : Option α) : Prop := ∀ a, p = some a → a ∈ F

/-- No pointer leads out of the set. -/
structure Closed (F : Set α) (s : Heap α) : Prop where
  root : Inside F s.root
  child : ∀ a ∈ F, ∀ d, Inside F ((s.node a).child d)
  parent : ∀ a ∈ F, Inside F (s.node a).parent

/-- The set is closed again, and nothing is different outside. -/
structure Within (F : Set α) (s s' : Heap α) : Prop where
  closed : Closed F s'
  same : ∀ b, b ∉ F → s'.node b = s.node b

theorem inside_none : Inside F none := fun _ h => nomatch h

theorem inside_some {a : α} (h : a ∈ F) : Inside F (some a) := fun _ hb => Option.some.inj hb ▸ h

theorem Closed.refl (h : Closed F s) : Within F s s := ⟨h, fun _ _ => rfl⟩

theorem Within.trans {s'' : Heap α} (h : Within F s s') (h' : Within F s' s'') : Within F s s'' :=
  ⟨h'.closed, fun b hb => (h'.same b hb).trans (h.same b hb)⟩

/-! ## Trees -/

theorem Repr.closed {n : α → Node α} {parent : Option α} {t : CTree α} (h : Repr n parent t)
    (ht : ∀ a ∈ t.toList, a ∈ F) (hparent : Inside F parent) :
    ∀ a ∈ t.toList, (∀ d, Inside F ((n a).child d)) ∧ Inside F (n a).parent := by
  induction t generalizing parent with
  | nil => exact fun a ha => nomatch ha
  | node c l b r ihl ihr =>
    obtain ⟨hb, hl, hr⟩ := h
    have hmem : ∀ a, a = b ∨ a ∈ l.toList ∨ a ∈ r.toList → a ∈ F := fun a ha =>
      ht a (mem_join (d := .left) (c := c).mpr ha)
    have hsub : ∀ u : CTree α, (∀ a ∈ u.toList, a ∈ F) → Inside F u.root := fun u hu a ha => hu a (mem_toList_root ha)
    have hinl := hsub l fun a ha => hmem a (.inr (.inl ha))
    have hinr := hsub r fun a ha => hmem a (.inr (.inr ha))
    have hinb : Inside F (some b) := inside_some (hmem b (.inl rfl))
    intro a ha
    rcases mem_join (d := .left) (c := c).mp ha with rfl | hal | har
    · refine ⟨fun d => ?_, ?_⟩
      · cases d with
        | left =>
          rw [hb.near]
          exact hinl
        | right =>
          have hfar : (n a).child .right = r.root := hb.far
          rw [hfar]
          exact hinr
      · rw [hb.parent]
        exact hparent
    · exact ihl hl (fun a ha => hmem a (.inr (.inl ha))) hinb a hal
    · exact ihr hr (fun a ha => hmem a (.inr (.inr ha))) hinb a har

/-- The nodes of a tree are closed. -/
theorem Represents.closed {t : CTree α} (h : Represents s t) : Closed {a | a ∈ t.toList} s := by
  have hall := h.repr.closed (F := {a | a ∈ t.toList}) (fun a ha => ha) inside_none
  refine ⟨?_, fun a ha => (hall a ha).1, fun a ha => (hall a ha).2⟩
  rw [h.root]
  exact fun a ha => mem_toList_root ha

section Writes

variable [DecidableEq α] {a b : α} {d : Side} {c : Color} {o p q : Option α}

theorem Closed.setChild (h : Closed F s) (ha : a ∈ F) (hp : Inside F p) : Within F s (s.setChild a d p) := by
  refine ⟨⟨h.root, fun b hb e => ?_, fun b hb => ?_⟩, fun b hb => ?_⟩
  · rw [node_setChild]
    split_ifs with hba
    · show Inside F (Function.update (s.node a).child d p e)
      by_cases he : e = d
      · subst he
        rw [Function.update_self]
        exact hp
      · rw [Function.update_of_ne he]
        exact h.child a ha e
    · exact h.child b hb e
  · rw [node_setChild]
    split_ifs with hba
    · exact h.parent a ha
    · exact h.parent b hb
  · rw [node_setChild, if_neg fun hba : b = a => hb (hba ▸ ha)]

theorem Closed.setParent (h : Closed F s) (ha : a ∈ F) (hp : Inside F p) : Within F s (s.setParent a p) := by
  refine ⟨⟨h.root, fun b hb e => ?_, fun b hb => ?_⟩, fun b hb => ?_⟩
  · rw [node_setParent]
    split_ifs with hba
    · exact h.child a ha e
    · exact h.child b hb e
  · rw [node_setParent]
    split_ifs with hba
    · exact hp
    · exact h.parent b hb
  · rw [node_setParent, if_neg fun hba : b = a => hb (hba ▸ ha)]

theorem Closed.setColor (h : Closed F s) (ha : a ∈ F) : Within F s (s.setColor a c) := by
  refine ⟨⟨h.root, fun b hb e => ?_, fun b hb => ?_⟩, fun b hb => ?_⟩
  · rw [node_setColor]
    split_ifs with hba
    · exact h.child a ha e
    · exact h.child b hb e
  · rw [node_setColor]
    split_ifs with hba
    · exact h.parent a ha
    · exact h.parent b hb
  · rw [node_setColor, if_neg fun hba : b = a => hb (hba ▸ ha)]

omit [DecidableEq α] in
theorem Closed.setRoot (h : Closed F s) (hp : Inside F p) : Within F s (s.setRoot p) :=
  ⟨⟨hp, h.child, h.parent⟩, fun _ _ => rfl⟩

theorem Closed.setParentOf (h : Closed F s) (ho : Inside F o) (hp : Inside F p) : Within F s (s.setParentOf o p) := by
  cases o with
  | none => exact h.refl
  | some a => exact h.setParent (ho a rfl) hp

theorem Closed.setColorOf (h : Closed F s) (ho : Inside F o) : Within F s (s.setColorOf o c) := by
  cases o with
  | none => exact h.refl
  | some a => exact h.setColor (ho a rfl)

theorem Closed.relink (h : Closed F s) (ho : Inside F o) (hq : Inside F q) : Within F s (s.relink d o p q) := by
  cases o with
  | none => exact h.setRoot hq
  | some a =>
    unfold Heap.relink
    dsimp only
    split_ifs
    · exact h.setChild (ho a rfl) hq
    · exact h.setChild (ho a rfl) hq

/-! ## The algorithms -/

theorem Closed.rotate (h : Closed F s) (ha : a ∈ F) (hrot : s.rotate d a = some s') : Within F s s' := by
  unfold Heap.rotate at hrot
  obtain ⟨right, hright, hrot⟩ := Option.bind_eq_some_iff.mp hrot
  obtain rfl := Option.some.inj hrot
  have hr : right ∈ F := h.child a ha d.other right hright
  have h₁ := h.setChild ha (h.child right hr d) (d := d.other)
  have h₂ := h₁.trans (h₁.closed.setParentOf (h.child right hr d) (inside_some ha))
  have h₃ := h₂.trans (h₂.closed.setParent hr (h₂.closed.parent a ha))
  have h₄ := h₃.trans (h₃.closed.relink (d := d) (p := some a) (h₃.closed.parent a ha) (inside_some hr))
  have h₅ := h₄.trans (h₄.closed.setChild hr (inside_some ha) (d := d))
  exact h₅.trans (h₅.closed.setParent ha (inside_some hr))

/-- The rotation of a program, too, stays in a closed set. -/
def StaysWithin (F : Set α) (rot : Side → α → Heap α → Option (Heap α)) : Prop :=
  ∀ d a s s', Closed F s → a ∈ F → rot d a s = some s' → Within F s s'

theorem staysWithin_rotate : StaysWithin F (@Heap.rotate α _) := fun _ _ _ _ h ha hrot => h.rotate ha hrot

variable {rot : Side → α → Heap α → Option (Heap α)} {par : Heap α → Option α} {node node' parent parent' : α}

theorem turnInner_within (hrot : StaysWithin F rot) (h : Closed F s) (hnode : node ∈ F) (hparent : parent ∈ F)
    (hturn : turnInner rot d node parent s = some (node', parent', s')) :
    Within F s s' ∧ node' ∈ F ∧ parent' ∈ F := by
  unfold turnInner at hturn
  split_ifs at hturn
  · obtain ⟨s₁, hs₁, hturn⟩ := Option.bind_eq_some_iff.mp hturn
    obtain ⟨rfl, hpair⟩ := Prod.mk.inj (Option.some.inj hturn)
    obtain ⟨rfl, rfl⟩ := Prod.mk.inj hpair
    exact ⟨hrot _ _ _ _ h hparent hs₁, hparent, hnode⟩
  · obtain ⟨rfl, hpair⟩ := Prod.mk.inj (Option.some.inj hturn)
    obtain ⟨rfl, rfl⟩ := Prod.mk.inj hpair
    exact ⟨h.refl, hnode, hparent⟩

theorem insertRound_within (hrot : StaysWithin F rot) (h : Closed F s) (hnode : node ∈ F) (hparent : parent ∈ F)
    (hround : insertRound rot node parent s = some (node', o, s')) : Within F s s' ∧ node' ∈ F := by
  unfold insertRound at hround
  obtain ⟨gparent, hgparent, hround⟩ := Option.bind_eq_some_iff.mp hround
  have hg : gparent ∈ F := h.parent parent hparent gparent hgparent
  dsimp only at hround
  generalize (if (s.node gparent).child .left = some parent then Side.left else Side.right) = e at hround
  split_ifs at hround
  · obtain ⟨rfl, hpair⟩ := Prod.mk.inj (Option.some.inj hround)
    obtain ⟨-, rfl⟩ := Prod.mk.inj hpair
    have h₁ := h.setColorOf (c := .black) (h.child gparent hg e.other)
    have h₂ := h₁.trans (h₁.closed.setColor hparent (c := .black))
    exact ⟨h₂.trans (h₂.closed.setColor hg), hg⟩
  · obtain ⟨⟨n, p, s₁⟩, hturn, hround⟩ := Option.bind_eq_some_iff.mp hround
    obtain ⟨s₂, hs₂, hround⟩ := Option.bind_eq_some_iff.mp hround
    obtain ⟨rfl, hpair⟩ := Prod.mk.inj (Option.some.inj hround)
    obtain ⟨-, rfl⟩ := Prod.mk.inj hpair
    obtain ⟨h₁, hn, hp⟩ := turnInner_within hrot h hnode hparent hturn
    have h₂ := h₁.trans (h₁.closed.setColor hp (c := .black))
    have h₃ := h₂.trans (h₂.closed.setColor hg (c := .red))
    exact ⟨h₃.trans (hrot _ _ _ _ h₃.closed hg hs₂), hn⟩

/-- What is read as the parent is in the set. -/
def ReadsInside (F : Set α) (par : Heap α → Option α) : Prop := ∀ s, Closed F s → Inside F (par s)

variable {w w' : α}

theorem turnSibling_within (hrot : StaysWithin F rot) (hpar : ReadsInside F par) (h : Closed F s) (hw : w ∈ F)
    (hturn : turnSibling rot par d w s = some (w', s')) : Within F s s' ∧ w' ∈ F := by
  unfold turnSibling at hturn
  split_ifs at hturn
  · obtain ⟨p₁, hp₁, hturn⟩ := Option.bind_eq_some_iff.mp hturn
    obtain ⟨p₂, hp₂, hturn⟩ := Option.bind_eq_some_iff.mp hturn
    obtain ⟨s₁, hs₁, hturn⟩ := Option.bind_eq_some_iff.mp hturn
    obtain ⟨p₃, hp₃, hturn⟩ := Option.bind_eq_some_iff.mp hturn
    obtain ⟨v, hv, hturn⟩ := Option.bind_eq_some_iff.mp hturn
    obtain ⟨rfl, rfl⟩ := Prod.mk.inj (Option.some.inj hturn)
    have h₁ := h.setColor hw (c := .black)
    have h₂ := h₁.trans (h₁.closed.setColor (hpar _ h₁.closed p₁ hp₁) (c := .red))
    have h₃ := h₂.trans (hrot _ _ _ _ h₂.closed (hpar _ h₂.closed p₂ hp₂) hs₁)
    exact ⟨h₃, h₃.closed.child p₃ (hpar _ h₃.closed p₃ hp₃) d.other _ hv⟩
  · obtain ⟨rfl, rfl⟩ := Prod.mk.inj (Option.some.inj hturn)
    exact ⟨h.refl, hw⟩

theorem turnNephew_within (hrot : StaysWithin F rot) (hpar : ReadsInside F par) (h : Closed F s) (hw : w ∈ F)
    (hturn : turnNephew rot par d w s = some (w', s')) : Within F s s' ∧ w' ∈ F := by
  unfold turnNephew at hturn
  split_ifs at hturn
  · obtain ⟨near, hnear, hturn⟩ := Option.bind_eq_some_iff.mp hturn
    obtain ⟨s₁, hs₁, hturn⟩ := Option.bind_eq_some_iff.mp hturn
    obtain ⟨p, hp, hturn⟩ := Option.bind_eq_some_iff.mp hturn
    obtain ⟨v, hv, hturn⟩ := Option.bind_eq_some_iff.mp hturn
    obtain ⟨rfl, rfl⟩ := Prod.mk.inj (Option.some.inj hturn)
    have h₁ := h.setColor (h.child w hw d near hnear) (c := .black)
    have h₂ := h₁.trans (h₁.closed.setColor hw (c := .red))
    have h₃ := h₂.trans (hrot _ _ _ _ h₂.closed hw hs₁)
    exact ⟨h₃, h₃.closed.child p (hpar _ h₃.closed p hp) d.other _ hv⟩
  · obtain ⟨rfl, rfl⟩ := Prod.mk.inj (Option.some.inj hturn)
    exact ⟨h.refl, hw⟩

theorem turnParent_within (hrot : StaysWithin F rot) (hpar : ReadsInside F par) (h : Closed F s) (hw : w ∈ F)
    (hturn : turnParent rot par d w s = some s') : Within F s s' := by
  unfold turnParent at hturn
  obtain ⟨p₁, hp₁, hturn⟩ := Option.bind_eq_some_iff.mp hturn
  obtain ⟨p₂, hp₂, hturn⟩ := Option.bind_eq_some_iff.mp hturn
  obtain ⟨p₃, hp₃, hturn⟩ := Option.bind_eq_some_iff.mp hturn
  have h₁ := h.setColor hw (c := (s.node p₁).color)
  have h₂ := h₁.trans (h₁.closed.setColor (hpar _ h₁.closed p₂ hp₂) (c := .black))
  have h₃ := h₂.trans (h₂.closed.setColorOf (h₂.closed.child w hw d.other) (c := .black))
  exact h₃.trans (hrot _ _ _ _ h₃.closed (hpar _ h₃.closed p₃ hp₃) hturn)

theorem deleteRound_within (hrot : StaysWithin F rot) (hpar : ReadsInside F par) (h : Closed F s) {done : Bool}
    (hround : deleteRound rot par d s = some (done, s')) : Within F s s' := by
  unfold deleteRound at hround
  obtain ⟨p, hp, hround⟩ := Option.bind_eq_some_iff.mp hround
  obtain ⟨w, hw, hround⟩ := Option.bind_eq_some_iff.mp hround
  obtain ⟨⟨w₁, s₁⟩, hturn, hround⟩ := Option.bind_eq_some_iff.mp hround
  obtain ⟨h₁, hw₁⟩ := turnSibling_within hrot hpar h (h.child p (hpar s h p hp) d.other w hw) hturn
  dsimp only at hround
  split_ifs at hround
  · obtain ⟨-, rfl⟩ := Prod.mk.inj (Option.some.inj hround)
    exact h₁.trans (h₁.closed.setColor hw₁)
  · obtain ⟨⟨w₂, s₂⟩, hneph, hround⟩ := Option.bind_eq_some_iff.mp hround
    obtain ⟨s₃, hs₃, hround⟩ := Option.bind_eq_some_iff.mp hround
    obtain ⟨-, rfl⟩ := Prod.mk.inj (Option.some.inj hround)
    obtain ⟨h₂, hw₂⟩ := turnNephew_within hrot hpar h₁.closed hw₁ hneph
    exact h₁.trans (h₂.trans (turnParent_within hrot hpar h₂.closed hw₂ hs₃))

theorem Closed.transplant (h : Closed F s) (ha : a ∈ F) (hp : Inside F p) : Within F s (s.transplant a p) := by
  have h₁ := h.relink (d := .left) (p := some a) (h.parent a ha) hp
  exact h₁.trans (h₁.closed.setParentOf hp (h₁.closed.parent a ha))

theorem Closed.detach (h : Closed F s) (ha : a ∈ F) (hb : b ∈ F) (hp : Inside F p)
    (hdetach : s.detach a b p = some s') : Within F s s' := by
  unfold Heap.detach at hdetach
  split_ifs at hdetach
  · obtain rfl := Option.some.inj hdetach
    exact h.setParentOf hp (inside_some hb)
  · obtain ⟨right, hright, hdetach⟩ := Option.bind_eq_some_iff.mp hdetach
    obtain rfl := Option.some.inj hdetach
    have h₁ := h.transplant hb (h.child b hb .right)
    have h₂ := h₁.trans (h₁.closed.setChild hb (h₁.closed.child a ha .right) (d := .right))
    exact h₂.trans (h₂.closed.setParent (h₂.closed.child b hb .right right hright) (inside_some hb))

theorem Closed.substitute (h : Closed F s) (ha : a ∈ F) (hb : b ∈ F) (hsub : s.substitute a b = some s') :
    Within F s s' := by
  unfold Heap.substitute at hsub
  obtain ⟨left, hleft, hsub⟩ := Option.bind_eq_some_iff.mp hsub
  obtain rfl := Option.some.inj hsub
  have h₁ := h.transplant ha (inside_some hb)
  have h₂ := h₁.trans (h₁.closed.setChild hb (h₁.closed.child a ha .left) (d := .left))
  have h₃ := h₂.trans (h₂.closed.setParent (h₂.closed.child b hb .left left hleft) (inside_some hb))
  exact h₃.trans (h₃.closed.setColor hb)

end Writes

end RbTree
