import Kenux.Cfs.Proofs.Insert

/-!
# Removal from a timeline

While the loop of `__delete_fixup` starts at a missing child, the sentinel's parent is the node below which
that child is missing: `rbtree_delete` has just set it, and no round of the loop writes it.
-/

namespace Cfs

open RbTree CTree

variable {α : Type*} [DecidableEq α] {s s' : Timeline α} {a b p y : α} {d : Side} {c c₂ : Color} {t u l r sib : CTree α}
  {k k₂ : List (Crumb α)} {fuel : ℕ} {F : Set α}

/-! ## The colors -/

omit [DecidableEq α] in
theorem readsParent (hpar : t = nil → s.parent none = some p) : ReadsParent (parentIn s t.root) d p t := by
  intro s' c u k h
  cases ht : t.root with
  | none => exact hpar (root_eq_none.mp ht)
  | some a =>
    have hhole : Represents s' (plug (⟨d, c, p, u⟩ :: k) t) := h
    exact hhole.parent_of_hole ht

omit [DecidableEq α] in
theorem readsInside {x : Option α} (hx : Inside F x) (hp : x = none → Inside F (s.parent none)) :
    ReadsInside F (parentIn s x) := by
  intro h hclosed
  cases x with
  | none => exact hp rfl
  | some a => exact hclosed.parent a (hx a rfl)

theorem Represents_blacken {h : Heap α} (hrep : Represents h (plug k t)) :
    Represents (h.setColorOf t.root .black) (plug k (t.recolor .black)) := by
  cases t with
  | nil => exact hrep
  | node c l a r => exact Represents.setColor (d := .left) hrep .black

/-- The loop ends at the root or at a red node, which it makes black. -/
theorem deleteFixup_stop (fuel : ℕ) (hnil : s.color none = .black) (hclosed : Closed F (heap s)) (hx : Inside F t.root)
    (h : Represents (heap s) (plug k t)) (hdone : k = [] ∨ t.rootColor = .red) :
    ∃ s', deleteFixup (fuel + 1) t.root s = some s' ∧ NilKept s s' ∧ Within F (heap s) (heap s') ∧
      Represents (heap s') (plug k (t.recolor .black)) := by
  have hstop : ¬(t.root ≠ s.root ∧ s.color t.root = .black) := by
    rintro ⟨hne, hblack⟩
    rcases hdone with rfl | hred
    · exact hne h.root.symm
    · rw [color_eq hnil, h.colorOf, hred] at hblack
      cases hblack
  refine ⟨_, if_neg hstop, blacken_nilKept hnil, ?_, ?_⟩
  · rw [heap_setColor]
    exact hclosed.setColorOf hx
  · rw [heap_setColor]
    exact Represents_blacken h

/-- The loop makes a tree that is short somewhere red-black. -/
theorem deleteFixup_spec (hnil : s.color none = .black) (hclosed : Closed F (heap s))
    (hmem : ∀ x ∈ (plug k t).toList, x ∈ F) (h : Represents (heap s) (plug k t)) (hshort : ShortIn k t)
    (hpar : t = nil → s.parent none = top k) (hfuel : k.length + 1 < fuel) :
    ∃ s' T, deleteFixup fuel t.root s = some s' ∧ NilKept s s' ∧ Within F (heap s) (heap s') ∧
      Represents (heap s') T ∧ T.RedBlack ∧ T.toList = (plug k t).toList := by
  induction fuel generalizing s k t with
  | zero => omega
  | succ fuel ih =>
    have hin : ∀ u : CTree α, (∀ x ∈ u.toList, x ∈ (plug k t).toList) → Inside F u.root := fun u hu x hx =>
      hmem x (hu x (mem_toList_root hx))
    have hroot : Inside F t.root := hin t fun x hx => (perm_plug k t).mem_iff.mpr (List.mem_append_left _ hx)
    by_cases hdone : k = [] ∨ t.rootColor = .red
    · obtain ⟨s', hs', hkept, hwithin, hrep⟩ := deleteFixup_stop fuel hnil hclosed hroot h hdone
      exact ⟨s', _, hs', hkept, hwithin, hrep, hshort.done hdone, toList_plug_congr (toList_recolor .black t)⟩
    · obtain ⟨hk, hred⟩ := not_or.mp hdone
      cases k with
      | nil => exact absurd rfl hk
      | cons f k =>
        obtain ⟨d, cp, p, sib⟩ := f
        have ht : t.rootColor = .black := by
          cases hc : t.rootColor with
          | red => exact absurd hc hred
          | black => rfl
        have hcolor : s.color t.root = .black := by
          rw [color_eq hnil, h.colorOf]
          exact ht
        have hgo : t.root ≠ s.root ∧ s.color t.root = .black := ⟨root_ne_of_hole h, hcolor⟩
        have hreads : ReadsParent (parentIn s t.root) d p t := readsParent hpar
        have hp : s.parent t.root = some p := by
          rw [← parentIn_eq (.refl s)]
          exact hreads _ _ _ _ h
        have hpF : p ∈ F := hmem p ((perm_plug _ t).mem_iff.mpr (List.mem_append_right _ List.mem_cons_self))
        have hinside : ReadsInside F (parentIn s t.root) := by
          refine readsInside hroot fun hnone => ?_
          rw [hpar (root_eq_none.mp hnone)]
          exact inside_some hpF
        have hside : (if t.root = s.child (s.parent t.root) .left then Side.left else .right) = d := by
          rw [hp]
          exact side_of_short h hshort
        simp only [List.length_cons] at hfuel
        unfold deleteFixup
        rw [if_pos hgo]
        rcases deleteRound_spec rotates_rotate hreads h hshort ht with
          ⟨h₁, T, hround, hrep, ⟨hblack, n, hvalid⟩, hlist⟩ | ⟨h₁, k', c, v, hround, hrep, hshort', hgrow, hlist⟩
        · have hwithin₁ := deleteRound_within staysWithin_rotate hinside hclosed hround
          obtain ⟨x', s₁, hs₁, rfl, hkept₁, hx'⟩ := deleteRound_sim (.refl s) hnil hside hround
          obtain rfl : x' = s₁.root := hx'
          have hroot₁ : s₁.root = T.root := hrep.root
          have hroot₁F : Inside F T.root := fun x hx => hwithin₁.closed.root x (hrep.root.trans hx)
          obtain ⟨fuel, rfl⟩ := Nat.exists_eq_add_one.mpr (show 0 < fuel by omega)
          obtain ⟨s₂, hs₂, hkept₂, hwithin₂, hrep₂⟩ := deleteFixup_stop (k := []) fuel (hkept₁.color hnil)
            hwithin₁.closed hroot₁F hrep (.inl rfl)
          rw [hs₁]
          dsimp only
          rw [hroot₁]
          exact ⟨s₂, _, hs₂, hkept₁.trans hkept₂, hwithin₁.trans hwithin₂, hrep₂, hvalid.redBlack,
            (toList_recolor .black T).trans hlist⟩
        · have hwithin₁ := deleteRound_within staysWithin_rotate hinside hclosed hround
          obtain ⟨x', s₁, hs₁, rfl, hkept₁, hx'⟩ := deleteRound_sim (.refl s) hnil hside hround
          have hx' : x' = s₁.parent t.root := hx'
          have hup : x' = (join d c t p v).root := by
            rw [hx', ← parentIn_eq hkept₁, hreads _ _ _ _ hrep, root_join]
          have hmem₁ : ∀ x ∈ (plug k' (join d c t p v)).toList, x ∈ F := by
            rw [hlist]
            exact hmem
          have hne : join d c t p v ≠ nil := fun heq => by
            have hnone : (join d c t p v).root = none := by rw [heq]; rfl
            rw [root_join] at hnone
            cases hnone
          rw [hs₁]
          dsimp only
          rw [hup]
          rcases hgrow with rfl | hred'
          · obtain ⟨s₂, T, hs₂, hkept₂, hwithin₂, hrep₂, hrb, hlist₂⟩ :=
              ih (hkept₁.color hnil) hwithin₁.closed hmem₁ hrep hshort' (fun heq => absurd heq hne) (by omega)
            exact ⟨s₂, T, hs₂, hkept₁.trans hkept₂, hwithin₁.trans hwithin₂, hrep₂, hrb, hlist₂.trans hlist⟩
          · have hdone' : k' = [] ∨ (join d c t p v).rootColor = .red := .inr (rootColor_join.trans hred')
            have hroot₁ : Inside F (join d c t p v).root := by
              rw [root_join]
              exact inside_some hpF
            obtain ⟨fuel, rfl⟩ := Nat.exists_eq_add_one.mpr (show 0 < fuel by omega)
            obtain ⟨s₂, hs₂, hkept₂, hwithin₂, hrep₂⟩ := deleteFixup_stop fuel (hkept₁.color hnil)
              hwithin₁.closed hroot₁ hrep hdone'
            exact ⟨s₂, _, hs₂, hkept₁.trans hkept₂, hwithin₁.trans hwithin₂, hrep₂, hshort'.done hdone',
              (toList_plug_congr (toList_recolor .black _)).trans hlist⟩

/-- What is left to do where a node with the color `c` was taken out. -/
theorem finish_spec (hnil : s.color none = .black) (hclosed : Closed F (heap s))
    (hmem : ∀ x ∈ (plug k u).toList, x ∈ F) (h : Represents (heap s) (plug k u))
    (hrb : (plug k (join d c nil a u)).RedBlack) (hpar : u = nil → s.parent none = top k) (hfuel : k.length + 1 < fuel) :
    ∃ s' T, (if c = .black then deleteFixup fuel u.root s else some s) = some s' ∧ s'.color none = .black ∧
      Within F (heap s) (heap s') ∧ Represents (heap s') T ∧ T.RedBlack ∧ T.toList = (plug k u).toList := by
  cases c with
  | red => exact ⟨s, _, rfl, hnil, hclosed.refl, h, redBlack_of_red hrb, rfl⟩
  | black =>
    obtain ⟨s', T, hs', hkept, hwithin, hrep, hrb', hlist⟩ :=
      deleteFixup_spec hnil hclosed hmem h (shortIn_of_redBlack hrb) hpar hfuel
    exact ⟨s', T, hs', hkept.color hnil, hwithin, hrep, hrb', hlist⟩

/-! ## The links -/

theorem heap_transplant {v : Option α} : heap (transplant (some a) v s) = (heap s).transplant a v := by
  unfold transplant Heap.transplant
  dsimp only
  have hparent : ∀ t : Timeline α, t.parent (some a) = ((heap t).node a).parent := fun _ => rfl
  rw [heap_setParent, hparent, heap_relink]
  rfl

theorem transplant_color {v : Option α} (hnil : s.color none = .black) :
    (transplant (some a) v s).color none = .black := by
  unfold transplant
  rw [color_setParent]
  exact NilKept.color relink_nilKept hnil

/-- The sentinel, too, gets the parent of the node whose place it takes. -/
theorem transplant_parent : (transplant (some a) none s).parent none = s.parent (some a) := by
  unfold transplant
  rw [parent_setParent_self, parent_relink]

theorem transplant_nilKept {v : α} : NilKept s (transplant (some a) (some v) s) := by
  have hrelink : NilKept s (s.relink .left (some a) (some v)) := relink_nilKept
  exact hrelink

/-- The first part of `replace`: the right subtree of `z` becomes that of `y`. -/
theorem detach_sim {z : α} {x : Option α} {h₁ : Heap α} (hnil : s.color none = .black)
    (hx : s.child (some y) .right = x) (h : (heap s).detach z y x = some h₁) :
    ∃ s₁, (if s.parent (some y) = some z then s.setParent x (some y)
      else
        let s := transplant (some y) (s.child (some y) .right) s
        let s := s.setChild (some y) .right (s.child (some z) .right)
        s.setParent (s.child (some y) .right) (some y)) = s₁ ∧ heap s₁ = h₁ ∧ s₁.color none = .black ∧
      (x = none → s₁.parent none = if s.parent (some y) = some z then some y else s.parent (some y)) := by
  unfold Heap.detach at h
  refine ⟨_, rfl, ?_⟩
  have hiff : s.parent (some y) = some z ↔ ((heap s).node y).parent = some z := Iff.rfl
  simp only [hiff]
  split_ifs at h ⊢ with hparent
  · obtain rfl := Option.some.inj h
    refine ⟨heap_setParent, by rw [color_setParent, hnil], ?_⟩
    rintro rfl
    exact parent_setParent_self
  · obtain ⟨right, hright, h⟩ := Option.bind_eq_some_iff.mp h
    obtain rfl := Option.some.inj h
    have hchild : ((heap s).node y).child .right = x := hx
    rw [hchild] at hright ⊢
    rw [hx]
    generalize hs₁ : transplant (some y) x s = s₁
    have hheap₁ : heap s₁ = (heap s).transplant y x := by
      rw [← hs₁]
      exact heap_transplant
    rw [← hheap₁] at hright ⊢
    have hheap₂ : heap (s₁.setChild (some y) .right (s₁.child (some z) .right)) =
        (heap s₁).setChild y .right (((heap s₁).node z).child .right) := heap_setChild
    rw [← hheap₂] at hright ⊢
    have hright : (s₁.setChild (some y) .right (s₁.child (some z) .right)).child (some y) .right = some right := hright
    rw [hright]
    refine ⟨heap_setParent, ?_, ?_⟩
    · have hcolor : s₁.color none = .black := by
        rw [← hs₁]
        exact transplant_color hnil
      exact hcolor
    · rintro rfl
      have hparent : s₁.parent none = s.parent (some y) := by
        rw [← hs₁]
        exact transplant_parent
      exact hparent

theorem replace_sim {z : α} {x : Option α} {h₁ h₂ : Heap α} (hnil : s.color none = .black)
    (hx : s.child (some y) .right = x) (hdetach : (heap s).detach z y x = some h₁) (hsub : h₁.substitute z y = some h₂) :
    heap (replace (some z) (some y) x s) = h₂ ∧ (replace (some z) (some y) x s).color none = .black ∧
      (x = none → (replace (some z) (some y) x s).parent none =
        if s.parent (some y) = some z then some y else s.parent (some y)) := by
  obtain ⟨s₁, hs₁, rfl, hnil₁, hpar₁⟩ := detach_sim hnil hx hdetach
  unfold Heap.substitute at hsub
  obtain ⟨left, hleft, hsub⟩ := Option.bind_eq_some_iff.mp hsub
  obtain rfl := Option.some.inj hsub
  unfold replace
  rw [hs₁]
  dsimp only
  generalize hs₂ : transplant (some z) (some y) s₁ = s₂
  have hheap₂ : heap s₂ = (heap s₁).transplant z (some y) := by
    rw [← hs₂]
    exact heap_transplant
  have hkept₂ : NilKept s₁ s₂ := by
    rw [← hs₂]
    exact transplant_nilKept
  rw [← hheap₂] at hleft ⊢
  have hheap₃ : heap (s₂.setChild (some y) .left (s₂.child (some z) .left)) =
      (heap s₂).setChild y .left (((heap s₂).node z).child .left) := heap_setChild
  rw [← hheap₃] at hleft ⊢
  have hleft : (s₂.setChild (some y) .left (s₂.child (some z) .left)).child (some y) .left = some left := hleft
  rw [hleft]
  have hkept : NilKept s₁ (((s₂.setChild (some y) .left (s₂.child (some z) .left)).setParent (some left)
      (some y)).setColor (some y)
      (((s₂.setChild (some y) .left (s₂.child (some z) .left)).setParent (some left) (some y)).color (some z))) :=
    hkept₂
  refine ⟨?_, hkept.color hnil₁, fun hnone => ?_⟩
  · have hcolor : ∀ t : Timeline α, t.color (some z) = ((heap t).node z).color := fun _ => rfl
    rw [heap_setColor, hcolor, heap_setParent]
    rfl
  · rw [← hpar₁ hnone]
    exact congrArg Node.parent hkept

/-! ## The whole removal -/

omit [DecidableEq α] in
theorem treeMin_eq : treeMin s fuel (some a) = (leftmost (heap s) fuel a).map some := by
  induction fuel generalizing a with
  | zero => rfl
  | succ fuel ih =>
    unfold treeMin leftmost
    have hchild : s.child (some a) .left = ((heap s).node a).child .left := rfl
    rw [hchild]
    cases ((heap s).node a).child .left with
    | none => rfl
    | some b =>
      rw [if_pos (by rintro ⟨⟩)]
      exact ih

/-- The task at `a` has at most one child. -/
theorem deleteSingle_spec (hnil : s.color none = .black) (h : Represents (heap s) (plug k (join d c nil a u)))
    (hrb : (plug k (join d c nil a u)).RedBlack) (hfuel : (plug k (join d c nil a u)).toList.length + 1 < fuel) :
    ∃ s' T, (if s.color (some a) = .black then deleteFixup fuel u.root (transplant (some a) u.root s)
        else some (transplant (some a) u.root s)) = some s' ∧ s'.color none = .black ∧
      Within {x | x ∈ (plug k (join d c nil a u)).toList} (heap s) (heap s') ∧ Represents (heap s') T ∧ T.RedBlack ∧
      T.toList = (plug k u).toList := by
  have hlen := length_plug k (join d c nil a u)
  have hcolor : s.color (some a) = c := h.isNode.color
  have hparent : s.parent (some a) = top k := h.isNode.parent
  have hperm : (plug k (join d c nil a u)).toList.Perm (a :: (plug k u).toList) :=
    (perm_plug k _).trans ((perm_join.append_right _).trans ((perm_plug k u).symm.cons a))
  have hmem : ∀ x ∈ (plug k u).toList, x ∈ {x | x ∈ (plug k (join d c nil a u)).toList} := fun x hx =>
    hperm.mem_iff.mpr (List.mem_cons_of_mem _ hx)
  have ha : a ∈ {x | x ∈ (plug k (join d c nil a u)).toList} := hperm.mem_iff.mpr List.mem_cons_self
  have hroot : Inside {x | x ∈ (plug k (join d c nil a u)).toList} u.root := fun x hx =>
    hmem x ((perm_plug k u).mem_iff.mpr (List.mem_append_left _ (mem_toList_root hx)))
  have hwithin₁ := h.closed.transplant ha hroot
  rw [← heap_transplant] at hwithin₁
  have hrep₁ : Represents (heap (transplant (some a) u.root s)) (plug k u) := by
    rw [heap_transplant]
    exact h.transplant
  have hpar : u = nil → (transplant (some a) u.root s).parent none = top k := by
    rintro rfl
    exact transplant_parent.trans hparent
  have hfuel' : k.length + 1 < fuel := by omega
  obtain ⟨s', T, hs', hnil', hwithin, hrep, hrb', hlist⟩ :=
    finish_spec (transplant_color hnil) hwithin₁.closed hmem hrep₁ hrb hpar hfuel'
  rw [hcolor]
  exact ⟨s', T, hs', hnil', hwithin₁.trans hwithin, hrep, hrb', hlist⟩

/-- `y` is the next node in order. -/
theorem deleteBetween_spec {b : α} (hnil : s.color none = .black)
    (h : Represents (heap s) (plug k (node c l a (plug k₂ (node c₂ nil y u))))) (hl : l.root = some b)
    (hrb : (plug k (node c l a (plug k₂ (node c₂ nil y u)))).RedBlack)
    (hfuel : (plug k (node c l a (plug k₂ (node c₂ nil y u)))).toList.length + 1 < fuel) :
    ∃ s' T, (if s.color (some y) = .black then
        deleteFixup fuel (s.child (some y) .right) (replace (some a) (some y) (s.child (some y) .right) s)
        else some (replace (some a) (some y) (s.child (some y) .right) s)) = some s' ∧ s'.color none = .black ∧
      Within {x | x ∈ (plug k (node c l a (plug k₂ (node c₂ nil y u)))).toList} (heap s) (heap s') ∧
      Represents (heap s') T ∧ T.RedBlack ∧ T.toList = (plug k (node c l y (plug k₂ u))).toList := by
  have hsplit : ∀ (x : α) (t : CTree α), plug k (node c l x (plug k₂ t)) =
      plug (k₂ ++ ⟨.right, c, x, l⟩ :: k) t := fun x t => (plug_append k₂ (⟨.right, c, x, l⟩ :: k) t).symm
  have hk : Represents (heap s) (plug (k₂ ++ ⟨.right, c, a, l⟩ :: k) (join .left c₂ nil y u)) := hsplit a _ ▸ h
  have hlen := length_plug (k₂ ++ ⟨.right, c, a, l⟩ :: k) (join .left c₂ nil y u)
  have hcolor : s.color (some y) = c₂ := hk.isNode.color
  have hright : s.child (some y) .right = u.root := hk.isNode.far
  have hparent : s.parent (some y) = top (k₂ ++ ⟨.right, c, a, l⟩ :: k) := hk.isNode.parent
  obtain ⟨h₁, h₂, hdetach, hsub, hrep₂⟩ := h.between hl
  obtain ⟨hheap, hnil₂, hpar₂⟩ := replace_sim hnil hright hdetach hsub
  have hperm : (plug k (node c l a (plug k₂ (node c₂ nil y u)))).toList.Perm
      (a :: (plug (k₂ ++ ⟨.right, c, y, l⟩ :: k) u).toList) := by
    rw [← hsplit]
    have hall : ∀ x t, (plug k (node c l x t)).toList.Perm (x :: (l.toList ++ t.toList ++ ctxNodes k)) :=
      fun x t => (perm_plug k _).trans (perm_join (d := .left) (c := c) |>.append_right _)
    have hinner : ∀ t, (plug k₂ t).toList.Perm (t.toList ++ ctxNodes k₂) := perm_plug k₂
    have hy : (node c₂ nil y u).toList = y :: u.toList := rfl
    have hmid : (l.toList ++ (plug k₂ (node c₂ nil y u)).toList ++ ctxNodes k).Perm
        (y :: (l.toList ++ (plug k₂ u).toList ++ ctxNodes k)) := by
      refine (((hinner _).append_left _).append_right _).trans ?_
      rw [hy]
      refine List.Perm.trans ?_ ((((hinner u).symm.append_left _).append_right _).cons y)
      simp only [List.append_assoc, List.cons_append]
      exact List.perm_middle
    exact (hall a _).trans ((hmid.trans (hall y _).symm).cons a)
  have hmem : ∀ x ∈ (plug (k₂ ++ ⟨.right, c, y, l⟩ :: k) u).toList,
      x ∈ {x | x ∈ (plug k (node c l a (plug k₂ (node c₂ nil y u)))).toList} := fun x hx =>
    hperm.mem_iff.mpr (List.mem_cons_of_mem _ hx)
  have ha : a ∈ {x | x ∈ (plug k (node c l a (plug k₂ (node c₂ nil y u)))).toList} :=
    hperm.mem_iff.mpr List.mem_cons_self
  have hyF : y ∈ {x | x ∈ (plug k (node c l a (plug k₂ (node c₂ nil y u)))).toList} := by
    show y ∈ (plug k (node c l a (plug k₂ (node c₂ nil y u)))).toList
    rw [hsplit, (perm_plug _ _).mem_iff]
    exact List.mem_append_left _ List.mem_cons_self
  have hroot : Inside {x | x ∈ (plug k (node c l a (plug k₂ (node c₂ nil y u)))).toList} u.root := fun x hx =>
    hmem x ((perm_plug _ u).mem_iff.mpr (List.mem_append_left _ (mem_toList_root hx)))
  have hwithin₁ := h.closed.detach ha hyF hroot hdetach
  have hwithin₂ := hwithin₁.trans (hwithin₁.closed.substitute ha hyF hsub)
  rw [hsplit, ← hheap] at hrep₂
  rw [← hheap] at hwithin₂
  have hrb₂ : (plug (k₂ ++ ⟨.right, c, y, l⟩ :: k) (join .left c₂ nil y u)).RedBlack := by
    have hrelabel := hrb.relabel (b := y)
    rw [hsplit] at hrelabel
    exact hrelabel
  have hpar : u = nil → (replace (some a) (some y) u.root s).parent none = top (k₂ ++ ⟨.right, c, y, l⟩ :: k) := by
    rintro rfl
    rw [hpar₂ rfl, hparent]
    cases k₂ with
    | nil => exact if_pos rfl
    | cons f k₂ => exact if_neg fun heq => h.ne_of_right (Option.some.inj heq)
  have hfuel' : (k₂ ++ ⟨.right, c, y, l⟩ :: k).length + 1 < fuel := by
    rw [hsplit] at hfuel
    rw [List.length_append, List.length_cons] at hlen ⊢
    exact lt_of_le_of_lt (Nat.add_le_add_right hlen 1) hfuel
  obtain ⟨s', T, hs', hnil', hwithin, hrep, hrb', hlist⟩ :=
    finish_spec hnil₂ hwithin₂.closed hmem hrep₂ hrb₂ hpar hfuel'
  rw [hcolor, hright]
  refine ⟨s', T, hs', hnil', hwithin₂.trans hwithin, hrep, hrb', hlist.trans ?_⟩
  rw [← hsplit]

/-- The node is out of the tree after a removal, and nothing outside the tree is different. -/
theorem rbtreeDelete_spec {T : CTree α} (hnil : s.color none = .black) (h : Represents (heap s) T) (hrb : T.RedBlack)
    (ha : a ∈ T.toList) (hfuel : T.toList.length + 1 < fuel) :
    ∃ s' T', rbtreeDelete fuel (some a) s = some s' ∧ s'.color none = .black ∧
      (∀ b, b ∉ T.toList → s'.node (some b) = s.node (some b)) ∧ Represents (heap s') T' ∧ T'.RedBlack ∧
      T'.toList = T.toList.erase a := by
  obtain ⟨k, c, l, r, rfl⟩ := exists_plug ha
  rw [erase_toList_plug h.nodup]
  have hnode := Represents.isNode (d := .left) (t := l) (u := r) h
  have hleft : s.child (some a) .left = l.root := hnode.near
  have hright : s.child (some a) .right = r.root := hnode.far
  have hresult : ∃ s' T', rbtreeDelete fuel (some a) s = some s' ∧ s'.color none = .black ∧
      Within {x | x ∈ (plug k (node c l a r)).toList} (heap s) (heap s') ∧ Represents (heap s') T' ∧ T'.RedBlack ∧
      T'.toList = before k ++ (l.toList ++ r.toList) ++ after k := by
    unfold rbtreeDelete
    rw [hleft, hright]
    cases hl : l.root with
    | none =>
      obtain rfl := root_eq_none.mp hl
      obtain ⟨s', T', hs', hrest, hwithin, hrep, hrb', hlist⟩ := deleteSingle_spec (d := .left) hnil h hrb hfuel
      exact ⟨s', T', hs', hrest, hwithin, hrep, hrb', hlist.trans (toList_plug k r)⟩
    | some b =>
      rw [if_neg (by rintro ⟨⟩)]
      cases hr : r.root with
      | none =>
        obtain rfl := root_eq_none.mp hr
        rw [if_pos rfl, ← hl]
        obtain ⟨s', T', hs', hrest, hwithin, hrep, hrb', hlist⟩ := deleteSingle_spec (d := .right) hnil h hrb hfuel
        refine ⟨s', T', hs', hrest, hwithin, hrep, hrb', hlist.trans ?_⟩
        rw [toList_plug, toList, List.append_nil]
      | some b' =>
        rw [if_neg (by rintro ⟨⟩)]
        have hhole : Represents (heap s) (plug (⟨.right, c, a, l⟩ :: k) r) := Represents.far (d := .left) h
        have hlen : r.toList.length ≤ fuel := by
          rw [toList_plug] at hfuel
          simp only [toList, List.length_append, List.length_cons] at hfuel
          omega
        obtain ⟨k₂, c₂, y, u, hy, rfl, hfirst⟩ := leftmost_spec hhole hr hlen
        rw [treeMin_eq, hy, Option.map_some, Option.bind_eq_bind, Option.bind_some]
        obtain ⟨s', T', hs', hrest, hwithin, hrep, hrb', hlist⟩ := deleteBetween_spec hnil h hl hrb hfuel
        refine ⟨s', T', hs', hrest, hwithin, hrep, hrb', hlist.trans ?_⟩
        rw [toList_plug, toList, toList_plug, toList_plug, hfirst]
        simp [toList]
  obtain ⟨s', T', hs', hnil', hwithin, hrep, hrb', hlist⟩ := hresult
  exact ⟨s', T', hs', hnil', fun b hb => hwithin.same b hb, hrep, hrb', hlist⟩

end Cfs
