import Kenux.Lib.RbTree.Heap

/-!
# Rebalancing after an insertion or a removal

One round of the removal's loop, over any operation that rotates, and what the rounds of both loops do to
trees: a tree in which the red root of a subtree may have a red parent (`RedIn`), and a tree in which a
subtree is one black node short (`ShortIn`).
-/

namespace RbTree

open CTree

variable {α : Type*}

/-- A missing node counts as black. -/
def Heap.colorOf (s : Heap α) : Option α → Color
  | some a => (s.node a).color
  | none => .black

def Heap.setColorOf [DecidableEq α] (s : Heap α) (o : Option α) (c : Color) : Heap α :=
  match o with
  | some a => s.setColor a c
  | none => s

/-- The operation rotates at a node with a child on the other side. -/
def Rotates (rot : Side → α → Heap α → Option (Heap α)) : Prop :=
  ∀ s k d c t a c' m b r, Represents s (plug k (join d c t a (join d c' m b r))) →
    ∃ s', rot d a s = some s' ∧ Represents s' (plug k (join d c' (join d c t a m) b r))

/-- The subtree in the hole is valid with a red root, and the context accepts its like under a black parent. -/
def RedIn (k : List (Crumb α)) (t : CTree α) : Prop :=
  t.rootColor = .red ∧ ∃ n, t.Valid n ∧ Accepts k n

/-- The subtree in the hole has one black node less than the context asks for, if its root is black; with a
red root it is right once that is made black. -/
def ShortIn (k : List (Crumb α)) (t : CTree α) : Prop :=
  ∃ n, Accepts k (n + 1) ∧ match t.rootColor with
    | .black => t.Valid n
    | .red => (t.recolor .black).Valid (n + 1)

section

variable {s s' : Heap α} {d e : Side} {c c' cp : Color} {t u m r sib nr fr n₁ n₂ : CTree α} {a b p q g x : α}
  {parent : Option α} {k : List (Crumb α)} {n : ℕ}

theorem Repr.colorOf (h : Repr s.node parent t) : s.colorOf t.root = t.rootColor := by
  cases t with
  | nil => rfl
  | node => exact h.1.color

theorem Represents.isNode (h : Represents s (plug k (join d c t a u))) :
    IsNode (s.node a) d c t.root u.root (top k) :=
  (repr_join.mp (represents_plug.mp h).2.1).1

theorem Represents.colorOf (h : Represents s (plug k t)) : s.colorOf t.root = t.rootColor :=
  (represents_plug.mp h).2.1.colorOf

/-- Each child of a node seen as the subtree in a hole. -/
theorem Represents.far (h : Represents s (plug k (join d c t a u))) :
    Represents s (plug (⟨d.other, c, a, t⟩ :: k) u) := by
  show Represents s (plug k (join d.other c u a t))
  rw [join_other]
  exact h

theorem Represents.near (h : Represents s (plug (⟨d.other, c, a, t⟩ :: k) u)) :
    Represents s (plug k (join d c t a u)) := by
  have h : Represents s (plug k (join d.other c u a t)) := h
  rw [join_other] at h
  exact h

/-- The parent of a node that is in the hole. -/
theorem Represents.parent_of_hole (h : Represents s (plug k t)) (ht : t.root = some a) : (s.node a).parent = top k := by
  obtain ⟨c, v, w, rfl⟩ := exists_join ht .left
  exact h.isNode.parent

theorem exists_black (hq : sib.root = some q) (hc : sib.rootColor = .black) :
    ∃ nr fr, sib = join d .black nr q fr := by
  obtain ⟨c, nr, fr, rfl⟩ := exists_join hq d
  rw [rootColor_join] at hc
  exact ⟨nr, fr, by rw [hc]⟩

theorem sibling_ne (h : Represents s (plug (⟨e, c, p, sib⟩ :: k) t)) (ht : t.root = some a) :
    sib.root ≠ some a := by
  intro hs
  have hnodup := (represents_plug.mp h).2.2
  exact (List.nodup_append.mp hnodup).2.2 a (mem_toList_root ht) a
    (List.mem_cons_of_mem _ (List.mem_append_left _ (mem_toList_root hs))) rfl

theorem root_ne_of_hole {f : Crumb α} (h : Represents s (plug (f :: k) t)) : t.root ≠ s.root := by
  obtain ⟨x, hx, hmem⟩ := exists_root_plug f k t
  rw [h.root, hx]
  intro ht
  exact (List.nodup_append.mp (represents_plug.mp h).2.2).2.2 x (mem_toList_root ht) x hmem rfl

/-- Which side of its parent the hole is on. -/
theorem side_of_hole [DecidableEq α] (h : Represents s (plug (⟨d, c, g, u⟩ :: k) t)) (ht : t.root = some p) :
    (if (s.node g).child .left = some p then Side.left else .right) = d := by
  have hnode := Represents.isNode (k := k) h
  cases d with
  | left =>
    have hnear : (s.node g).child .left = t.root := hnode.near
    rw [hnear, if_pos ht]
  | right =>
    have hfar : (s.node g).child .left = u.root := hnode.far
    rw [hfar, if_neg (sibling_ne h ht)]

theorem setColorOf_far [DecidableEq α] (h : Represents s (plug k (join d c t g u))) (c' : Color) :
    Represents (s.setColorOf u.root c') (plug k (join d c t g (u.recolor c'))) := by
  cases u with
  | nil => exact h
  | node cu l b r => exact Represents.near ((Represents.far h).setColor (d := .left) c')

/-! ## After an insertion -/

theorem redIn_leaf {k : List (Crumb α)} (h : (plug k (nil : CTree α)).RedBlack) :
    RedIn k (node .red nil x nil) := by
  obtain ⟨n, hn, hacc, -⟩ := accepts_of_redBlack h
  obtain rfl : n = 0 := hn
  exact ⟨rfl, 0, ⟨⟨rfl, rfl⟩, rfl, rfl⟩, hacc⟩

/-- A red root at the top, or below a black parent. -/
theorem RedIn.done (h : RedIn k t) (hctx : k = [] ∨ BlackTop k) :
    ((plug k t).recolor .black).RedBlack := by
  obtain ⟨-, n, hv, hacc⟩ := h
  rcases hctx with rfl | htop
  · exact hv.redBlack
  · obtain ⟨-, m, hm⟩ := hacc.redBlack hv (.inr htop)
    exact hm.redBlack

/-- A red parent has a black parent in turn. -/
theorem RedIn.grandparent (h : RedIn (⟨e, .red, p, sib⟩ :: k) t) :
    ∃ d g u k', k = ⟨d, .black, g, u⟩ :: k' := by
  obtain ⟨-, n, -, -, -, htop, -⟩ := h
  cases k with
  | nil => exact htop.elim
  | cons f k =>
    obtain ⟨d, c, g, u⟩ := f
    obtain rfl : c = .black := htop
    exact ⟨d, g, u, k, rfl⟩

/-- With a red uncle the grandparent becomes the red root. -/
theorem RedIn.recolor (h : RedIn (⟨e, .red, p, sib⟩ :: ⟨d, .black, g, u⟩ :: k) t) (hu : u.rootColor = .red) :
    RedIn k (join d .red (join e .black t p sib) g (u.recolor .black)) := by
  obtain ⟨-, n, hv, hsib, hsc, -, hvu, hacc⟩ := h
  refine ⟨rootColor_join, n + 1, valid_join_red.mpr ⟨⟨rootColor_join, ?_⟩, ?_, hvu.blacken hu⟩, hacc⟩
  · cases u <;> rfl
  · exact valid_join_black.mpr ⟨n, rfl, hv, hsib⟩

/-- With a black uncle the inner grandchild is first rotated out. -/
theorem RedIn.turn (h : RedIn (⟨d.other, .red, p, sib⟩ :: ⟨d, .black, g, u⟩ :: k) (join d .red t a r)) :
    RedIn (⟨d, .red, a, r⟩ :: ⟨d, .black, g, u⟩ :: k) (join d .red sib p t) := by
  obtain ⟨-, n, hv, hsib, hsc, -, hvu, hacc⟩ := h
  obtain ⟨⟨htc, hrc⟩, ht, hr⟩ := valid_join_red.mp hv
  exact ⟨rootColor_join, n, valid_join_red.mpr ⟨⟨hsc, htc⟩, hsib, ht⟩, hr, hrc, rfl, hvu, hacc⟩

/-- With a black uncle the rotation of the grandparent ends it. -/
theorem RedIn.rotate (h : RedIn (⟨d, .red, p, sib⟩ :: ⟨d, .black, g, u⟩ :: k) t) (hu : u.rootColor = .black) :
    ((plug k (join d .black t p (join d .red sib g u))).recolor .black).RedBlack := by
  obtain ⟨-, n, hv, hsib, hsc, -, hvu, hacc⟩ := h
  have hvalid : (join d .black t p (join d .red sib g u)).Valid (n + 1) :=
    valid_join_black.mpr ⟨n, rfl, hv, valid_join_red.mpr ⟨⟨hsc, hu⟩, hsib, hvu⟩⟩
  obtain ⟨-, m, hm⟩ := hacc.redBlack hvalid (.inl rootColor_join)
  exact hm.redBlack

/-! ## After a removal -/

theorem ShortIn.done (h : ShortIn k t) (hdone : k = [] ∨ t.rootColor = .red) :
    (plug k (t.recolor .black)).RedBlack := by
  obtain ⟨n, hacc, hv⟩ := h
  have hblack : (t.recolor .black).rootColor = .black := by cases t <;> rfl
  cases hc : t.rootColor with
  | red =>
    rw [hc] at hv
    exact hacc.redBlack hv (.inl hblack)
  | black =>
    rw [hc] at hv
    obtain rfl := hdone.resolve_right (by rw [hc]; rintro ⟨⟩)
    exact hv.redBlack

/-- A child that takes the place of a black node leaves the tree short. -/
theorem shortIn_of_redBlack (h : (plug k (join d .black nil a u)).RedBlack) : ShortIn k u := by
  obtain ⟨n, hv, hacc, -⟩ := accepts_of_redBlack h
  obtain ⟨m, rfl, hnil, hu⟩ := valid_join_black.mp hv
  refine ⟨m, hacc, ?_⟩
  cases hc : u.rootColor with
  | black => exact hu
  | red => exact hu.blacken hc

/-- The only child of a black node is red. -/
theorem rootColor_of_single (h : (plug k (join d .black nil a u)).RedBlack) (hu : u.root ≠ none) :
    u.rootColor = .red := by
  obtain ⟨n, hv, -, -⟩ := accepts_of_redBlack h
  obtain ⟨m, rfl, hnil, hvu⟩ := valid_join_black.mp hv
  obtain rfl : m = 0 := hnil
  cases u with
  | nil => exact absurd rfl hu
  | node c l x r =>
    cases c with
    | red => rfl
    | black =>
      obtain ⟨n, hn, -⟩ := hvu
      omega

/-- A child that takes the place of a red node fits. -/
theorem redBlack_of_red (h : (plug k (join d .red nil a u)).RedBlack) : (plug k u).RedBlack := by
  obtain ⟨n, hv, hacc, -⟩ := accepts_of_redBlack h
  obtain ⟨⟨-, hc⟩, -, hu⟩ := valid_join_red.mp hv
  exact hacc.redBlack hu (.inl hc)

/-- A subtree that is short has a sibling. -/
theorem ShortIn.sibling (h : ShortIn (⟨d, cp, p, sib⟩ :: k) t) : ∃ q, sib.root = some q := by
  obtain ⟨n, ⟨hsib, -⟩, -⟩ := h
  exact hsib.exists_root

theorem side_of_short [DecidableEq α] (h : Represents s (plug (⟨d, cp, p, sib⟩ :: k) t))
    (hshort : ShortIn (⟨d, cp, p, sib⟩ :: k) t) :
    (if t.root = (s.node p).child .left then Side.left else .right) = d := by
  have hnode := Represents.isNode (k := k) h
  obtain ⟨q, hq⟩ := hshort.sibling
  cases d with
  | left =>
    have hnear : (s.node p).child .left = t.root := hnode.near
    rw [hnear, if_pos rfl]
  | right =>
    have hfar : (s.node p).child .left = sib.root := hnode.far
    rw [hfar, if_neg]
    intro ht
    exact sibling_ne h (ht.trans hq) hq

theorem shortIn_black (ht : t.rootColor = .black) : ShortIn k t ↔ ∃ n, Accepts k (n + 1) ∧ t.Valid n := by
  unfold ShortIn
  rw [ht]

/-- A red sibling is rotated above the parent. -/
theorem ShortIn.turn (h : ShortIn (⟨d, cp, p, join d .red nr q fr⟩ :: k) t) (ht : t.rootColor = .black) :
    ShortIn (⟨d, .red, p, nr⟩ :: ⟨d, .black, q, fr⟩ :: k) t ∧ nr.rootColor = .black := by
  rw [shortIn_black ht] at h ⊢
  obtain ⟨n, ⟨hsib, hrest⟩, hv⟩ := h
  obtain ⟨⟨hnc, hfc⟩, hnr, hfr⟩ := valid_join_red.mp hsib
  cases cp with
  | red =>
    rw [rootColor_join] at hrest
    exact absurd hrest.1 (by rintro ⟨⟩)
  | black => exact ⟨⟨n, ⟨hnr, hnc, rfl, hfr, hrest⟩, hv⟩, hnc⟩

/-- A sibling with black children is made red, and the parent is short. -/
theorem ShortIn.up (h : ShortIn (⟨d, cp, p, join d .black nr q fr⟩ :: k) t) (ht : t.rootColor = .black)
    (hnc : nr.rootColor = .black) (hfc : fr.rootColor = .black) :
    ShortIn k (join d cp t p (join d .red nr q fr)) := by
  rw [shortIn_black ht] at h
  obtain ⟨n, ⟨hsib, hrest⟩, hv⟩ := h
  obtain ⟨m, hm, hnr, hfr⟩ := valid_join_black.mp hsib
  obtain rfl : n = m := by omega
  have hred : (join d .red nr q fr).Valid n := valid_join_red.mpr ⟨⟨hnc, hfc⟩, hnr, hfr⟩
  cases cp with
  | red =>
    refine ⟨n, hrest.2.2, ?_⟩
    rw [rootColor_join]
    show (recolor .black _).Valid (n + 1)
    rw [recolor_join]
    exact valid_join_black.mpr ⟨n, rfl, hv, hred⟩
  | black =>
    refine ⟨n + 1, hrest, ?_⟩
    rw [rootColor_join]
    exact valid_join_black.mpr ⟨n, rfl, hv, hred⟩

/-- A red child of the sibling on the near side is rotated above it. -/
theorem ShortIn.nephew (h : ShortIn (⟨d, cp, p, join d .black (join d .red n₁ b n₂) q fr⟩ :: k) t)
    (ht : t.rootColor = .black) (hfc : fr.rootColor = .black) :
    ShortIn (⟨d, cp, p, join d .black n₁ b (join d .red n₂ q fr)⟩ :: k) t := by
  rw [shortIn_black ht] at h ⊢
  obtain ⟨n, ⟨hsib, hrest⟩, hv⟩ := h
  obtain ⟨m, hm, hnr, hfr⟩ := valid_join_black.mp hsib
  obtain ⟨⟨hc₁, hc₂⟩, h₁, h₂⟩ := valid_join_red.mp hnr
  refine ⟨n, ⟨valid_join_black.mpr ⟨m, hm, h₁, valid_join_red.mpr ⟨⟨hc₂, hfc⟩, h₂, hfr⟩⟩, ?_⟩, hv⟩
  rw [rootColor_join] at hrest ⊢
  exact hrest

/-- With a red child of the sibling on the far side the rotation of the parent ends it. -/
theorem ShortIn.finish (h : ShortIn (⟨d, cp, p, join d .black nr q fr⟩ :: k) t) (ht : t.rootColor = .black)
    (hfc : fr.rootColor = .red) :
    (plug k (join d cp (join d .black t p nr) q (fr.recolor .black))).RedBlack := by
  rw [shortIn_black ht] at h
  obtain ⟨n, ⟨hsib, hrest⟩, hv⟩ := h
  obtain ⟨m, hm, hnr, hfr⟩ := valid_join_black.mp hsib
  obtain rfl : n = m := by omega
  have hnear : (join d .black t p nr).Valid (n + 1) := valid_join_black.mpr ⟨n, rfl, hv, hnr⟩
  have hblack : (fr.recolor .black).rootColor = .black := by cases fr <;> rfl
  cases cp with
  | red =>
    refine hrest.2.2.redBlack (valid_join_red.mpr ⟨⟨rootColor_join, hblack⟩, hnear, hfr.blacken hfc⟩) ?_
    exact .inr hrest.2.1
  | black =>
    refine hrest.redBlack (valid_join_black.mpr ⟨n + 1, rfl, hnear, hfr.blacken hfc⟩) (.inl rootColor_join)

end

/-! ## One round of the insertion's loop -/

section InsertRound

variable [DecidableEq α] (rot : Side → α → Heap α → Option (Heap α)) (d : Side) (node parent : α) (s : Heap α)

/-- The inner grandchild is rotated out; which node is the parent then, and which the child. -/
def turnInner : Option (α × α × Heap α) :=
  if (s.node parent).child d.other = some node then do
    let s ← rot d parent s
    pure (parent, node, s)
  else pure (node, parent, s)

/-- One round for a red node below a red parent: the node and its parent that the loop goes on with. -/
def insertRound : Option (α × Option α × Heap α) := do
  let gparent ← (s.node parent).parent
  let d := if (s.node gparent).child .left = some parent then .left else .right
  let uncle := (s.node gparent).child d.other
  if s.colorOf uncle = .red then
    let s := ((s.setColorOf uncle .black).setColor parent .black).setColor gparent .red
    pure (gparent, (s.node gparent).parent, s)
  else do
    let (node, parent, s) ← turnInner rot d node parent s
    let s ← rot d.other gparent ((s.setColor parent .black).setColor gparent .red)
    pure (node, some parent, s)

end InsertRound

section InsertRoundSpec

variable [DecidableEq α] {rot : Side → α → Heap α → Option (Heap α)} {d e : Side} {s : Heap α}
  {t sib u : CTree α} {node p g : α} {k : List (Crumb α)}

/-- After this the red child and its red parent are on the same side. -/
theorem turnInner_spec (hrot : Rotates rot)
    (h : Represents s (plug (⟨e, .red, p, sib⟩ :: ⟨d, .black, g, u⟩ :: k) t))
    (hred : RedIn (⟨e, .red, p, sib⟩ :: ⟨d, .black, g, u⟩ :: k) t) (ht : t.root = some node) :
    ∃ node' p' s' sib' t', turnInner rot d node p s = some (node', p', s') ∧
      Represents s' (plug (⟨d, .red, p', sib'⟩ :: ⟨d, .black, g, u⟩ :: k) t') ∧
      RedIn (⟨d, .red, p', sib'⟩ :: ⟨d, .black, g, u⟩ :: k) t' ∧ t'.root = some node' ∧
      (plug (⟨d, .red, p', sib'⟩ :: ⟨d, .black, g, u⟩ :: k) t').toList =
        (plug (⟨e, .red, p, sib⟩ :: ⟨d, .black, g, u⟩ :: k) t).toList := by
  have hnode := Represents.isNode (k := ⟨d, .black, g, u⟩ :: k) h
  unfold turnInner
  rcases d.eq_or_other e with rfl | rfl
  · rw [hnode.far, if_neg (sibling_ne h ht)]
    exact ⟨node, p, s, sib, t, rfl, h, hred, ht, rfl⟩
  · have hchild := hnode.near
    rw [hchild, if_pos ht]
    obtain ⟨c, t₁, t₂, rfl⟩ := exists_join ht d
    obtain rfl : c = .red := by
      have := hred.1
      rwa [rootColor_join] at this
    have h : Represents s (plug (⟨d, .black, g, u⟩ :: k) (join d .red sib p (join d .red t₁ node t₂))) :=
      Represents.near h
    obtain ⟨s', hs', hrep⟩ := hrot _ _ _ _ _ _ _ _ _ _ h
    refine ⟨p, node, s', t₂, join d .red sib p t₁, ?_, hrep, hred.turn, root_join, ?_⟩
    · rw [hs']
      rfl
    · show (plug (⟨d, .black, g, u⟩ :: k) _).toList = (plug (⟨d, .black, g, u⟩ :: k) _).toList
      refine toList_plug_congr ?_
      cases d <;> simp [join, toList, Side.other]

/-- What a round leaves: a red node further up, or a node below a black parent in a tree that is red-black
but for the color of its root. -/
theorem insertRound_spec (hrot : Rotates rot) (h : Represents s (plug (⟨e, .red, p, sib⟩ :: k) t))
    (hred : RedIn (⟨e, .red, p, sib⟩ :: k) t) (ht : t.root = some node) :
    ∃ node' s' k' t', insertRound rot node p s = some (node', top k', s') ∧ Represents s' (plug k' t') ∧
      t'.root = some node' ∧ (plug k' t').toList = (plug (⟨e, .red, p, sib⟩ :: k) t).toList ∧
      ((k'.length < k.length ∧ RedIn k' t') ∨ BlackTop k' ∧ ((plug k' t').recolor .black).RedBlack) := by
  have hp := Represents.isNode (k := k) h
  obtain ⟨d, g, u, k, rfl⟩ := hred.grandparent
  have hside := side_of_hole (k := k) (t := join e .red t p sib) h root_join
  have hg := Represents.isNode (k := k) (t := join e .red t p sib) h
  have hcolor : s.colorOf u.root = u.rootColor :=
    Represents.colorOf (k := ⟨d.other, .black, g, join e .red t p sib⟩ :: k) (Represents.far h)
  unfold insertRound
  rw [hp.parent, top, List.head?_cons, Option.map_some, Option.bind_eq_bind, Option.bind_some]
  dsimp only
  rw [hside, hg.far, hcolor]
  cases hu : u.rootColor with
  | red =>
    rw [if_pos rfl]
    have h₁ : Represents (s.setColorOf u.root .black) (plug (⟨d, .black, g, u.recolor .black⟩ :: k)
        (join e .red t p sib)) := setColorOf_far (k := k) h .black
    have h₂ : Represents ((s.setColorOf u.root .black).setColor p .black)
        (plug k (join d .black (join e .black t p sib) g (u.recolor .black))) := h₁.setColor .black
    have h₃ := h₂.setColor .red
    rw [h₃.isNode.parent]
    refine ⟨g, _, k, _, rfl, h₃, root_join, ?_, .inl ⟨Nat.lt_succ_self _, hred.recolor hu⟩⟩
    refine toList_plug_congr (u := join d .black (join e .red t p sib) g u) ?_
    cases d <;> cases e <;> simp [join, toList, toList_recolor]
  | black =>
    rw [if_neg (by decide)]
    obtain ⟨node', p', s₁, sib', t', hturn, h₁, hred₁, ht', hlist₁⟩ := turnInner_spec hrot h hred ht
    rw [hturn, Option.bind_eq_bind, Option.bind_some]
    have h₂ : Represents ((s₁.setColor p' .black).setColor g .red) (plug k
        (join d.other .red u g (join d.other .black sib' p' t'))) := by
      rw [join_other, join_other]
      have hp' : Represents (s₁.setColor p' .black) (plug (⟨d, .black, g, u⟩ :: k)
          (join d .black t' p' sib')) := Represents.setColor (k := ⟨d, .black, g, u⟩ :: k) h₁ .black
      exact Represents.setColor (k := k) hp' .red
    obtain ⟨s₂, hs₂, hrep⟩ := hrot _ _ _ _ _ _ _ _ _ _ h₂
    rw [join_other, join_other] at hrep
    dsimp only
    rw [hs₂]
    refine ⟨node', s₂, ⟨d, .black, p', join d .red sib' g u⟩ :: k, t', rfl, hrep, ht', ?_, .inr ⟨rfl, hred₁.rotate hu⟩⟩
    rw [← hlist₁]
    show (plug k _).toList = (plug k _).toList
    refine toList_plug_congr ?_
    cases d <;> simp [join, toList]

/-- The function goes on with the node of each round while the parent is red. -/
structure InsertLoop (rot : Side → α → Heap α → Option (Heap α))
    (loop : ℕ → α → Option α → Heap α → Option (Heap α)) : Prop where
  stop : ∀ fuel node s, (∀ p, (s.node node).parent = some p → (s.node p).color = .black) →
    loop (fuel + 1) node (s.node node).parent s = some s
  round : ∀ fuel node p s, (s.node node).parent = some p → (s.node p).color = .red →
    loop (fuel + 1) node (some p) s = (insertRound rot node p s).bind fun x => loop fuel x.1 x.2.1 x.2.2

variable {loop : ℕ → α → Option α → Heap α → Option (Heap α)} {fuel : ℕ}

/-- The loop ends at the root and below a black parent. -/
theorem InsertLoop.ends (hloop : InsertLoop rot loop) (h : Represents s (plug k t)) (ht : t.root = some node)
    (htop : k = [] ∨ BlackTop k) (hfuel : 0 < fuel) : loop fuel node (top k) s = some s := by
  obtain ⟨fuel, rfl⟩ := Nat.exists_eq_add_one.mpr hfuel
  have hparent := h.parent_of_hole ht
  rw [← hparent]
  refine hloop.stop fuel node s fun p hp => ?_
  rw [hparent] at hp
  cases k with
  | nil => cases hp
  | cons f k =>
    obtain rfl : f.node = p := Option.some.inj hp
    exact (Represents.isNode (k := k) h).color.trans (htop.resolve_left (by rintro ⟨⟩))

/-- The loop ends with a tree that is red-black but for the color of its root. -/
theorem InsertLoop.spec (hloop : InsertLoop rot loop) (hrot : Rotates rot) (h : Represents s (plug k t))
    (hred : RedIn k t) (ht : t.root = some node) (hfuel : k.length < fuel) :
    ∃ s' T, loop fuel node (top k) s = some s' ∧ Represents s' T ∧ (T.recolor .black).RedBlack ∧
      T.toList = (plug k t).toList := by
  induction fuel generalizing s k t node with
  | zero => omega
  | succ fuel ih =>
    by_cases hdone : k = [] ∨ BlackTop k
    · exact ⟨s, _, hloop.ends h ht hdone (Nat.succ_pos _), h, hred.done hdone, rfl⟩
    · cases k with
      | nil => exact (hdone (.inl rfl)).elim
      | cons f k =>
        obtain ⟨e, c, p, sib⟩ := f
        cases c with
        | black => exact (hdone (.inr rfl)).elim
        | red =>
          obtain ⟨node', s₁, k₁, t₁, hround, h₁, ht₁, hlist₁, hnext⟩ := insertRound_spec hrot h hred ht
          have hstep := hloop.round fuel node p s (h.parent_of_hole ht) (Represents.isNode (k := k) h).color
          rw [hround, Option.bind_some] at hstep
          simp only [List.length_cons] at hfuel
          rcases hnext with ⟨hlen, hred₁⟩ | ⟨htop, hrb⟩
          · obtain ⟨s', T, hs', hrep, hrb, hlist⟩ := ih h₁ hred₁ ht₁ (by omega)
            exact ⟨s', T, hstep.trans hs', hrep, hrb, hlist.trans hlist₁⟩
          · exact ⟨s₁, _, hstep.trans (hloop.ends h₁ ht₁ (.inr htop) (by omega)), h₁, hrb, hlist₁⟩

end InsertRoundSpec

/-! ## One round of the removal's loop -/

section Round

variable [DecidableEq α] (rot : Side → α → Heap α → Option (Heap α)) (par : Heap α → Option α) (d : Side)
  (sibling : α) (s : Heap α)

/-- A red sibling is rotated above the parent. -/
def turnSibling : Option (α × Heap α) :=
  if (s.node sibling).color = .red then do
    let s := s.setColor sibling .black
    let parent ← par s
    let s := s.setColor parent .red
    let parent ← par s
    let s ← rot d parent s
    let parent ← par s
    let sibling ← (s.node parent).child d.other
    pure (sibling, s)
  else pure (sibling, s)

/-- A red nephew on the near side is rotated above the sibling, if that on the far side is black. -/
def turnNephew : Option (α × Heap α) :=
  if s.colorOf ((s.node sibling).child d.other) = .black then do
    let near ← (s.node sibling).child d
    let s := (s.setColor near .black).setColor sibling .red
    let s ← rot d.other sibling s
    let parent ← par s
    let sibling ← (s.node parent).child d.other
    pure (sibling, s)
  else pure (sibling, s)

/-- The last rotation. -/
def turnParent : Option (Heap α) := do
  let parent ← par s
  let s := s.setColor sibling (s.node parent).color
  let parent ← par s
  let s := s.setColor parent .black
  let s := s.setColorOf ((s.node sibling).child d.other) .black
  let parent ← par s
  rot d parent s

/-- One round for the child on side `d` of the node that `par` reads: `true` when the loop ends with it,
`false` when it goes on at the parent. -/
def deleteRound : Option (Bool × Heap α) := do
  let parent ← par s
  let sibling ← (s.node parent).child d.other
  let (sibling, s) ← turnSibling rot par d sibling s
  if s.colorOf ((s.node sibling).child d) = .black ∧ s.colorOf ((s.node sibling).child d.other) = .black then
    pure (false, s.setColor sibling .red)
  else do
    let (sibling, s) ← turnNephew rot par d sibling s
    let s ← turnParent rot par d sibling s
    pure (true, s)

end Round

/-- What is read as the parent is the parent of `t`, wherever that is. -/
def ReadsParent (par : Heap α → Option α) (d : Side) (p : α) (t : CTree α) : Prop :=
  ∀ s c u k, Represents s (plug k (join d c t p u)) → par s = some p

section RoundSpec

variable [DecidableEq α] {rot : Side → α → Heap α → Option (Heap α)} {par : Heap α → Option α} {d : Side}
  {s : Heap α} {cp : Color}
  {t sib nr fr n₁ n₂ : CTree α} {p q b : α} {k : List (Crumb α)}

/-- After this the sibling is black; the context has grown if it was not. -/
theorem turnSibling_spec (hrot : Rotates rot) (hpar : ReadsParent par d p t)
    (h : Represents s (plug (⟨d, cp, p, sib⟩ :: k) t))
    (hq : sib.root = some q) (hshort : ShortIn (⟨d, cp, p, sib⟩ :: k) t) (ht : t.rootColor = .black) :
    ∃ q' s' cp' nr' fr' k', turnSibling rot par d q s = some (q', s') ∧
      Represents s' (plug (⟨d, cp', p, join d .black nr' q' fr'⟩ :: k') t) ∧
      ShortIn (⟨d, cp', p, join d .black nr' q' fr'⟩ :: k') t ∧
      (plug (⟨d, cp', p, join d .black nr' q' fr'⟩ :: k') t).toList =
        (plug (⟨d, cp, p, sib⟩ :: k) t).toList ∧ (k' = k ∨ cp' = .red) := by
  obtain ⟨c, nr, fr, rfl⟩ := exists_join hq d
  have hcolor : (s.node q).color = c := (Represents.isNode (Represents.far h)).color
  unfold turnSibling
  rw [hcolor]
  cases c with
  | black =>
    rw [if_neg (by decide)]
    exact ⟨q, s, cp, nr, fr, k, rfl, h, hshort, rfl, .inl rfl⟩
  | red =>
    rw [if_pos rfl]
    obtain ⟨hturn, hnc⟩ := hshort.turn ht
    obtain ⟨q', hq'⟩ := hturn.sibling
    obtain ⟨nr', fr', rfl⟩ := exists_black (d := d) hq' hnc
    have hblack : Represents (s.setColor q .black)
        (plug k (join d cp t p (join d .black (join d .black nr' q' fr') q fr))) :=
      Represents.near ((Represents.far h).setColor .black)
    have hred := hblack.setColor .red
    obtain ⟨s', hs', hrep⟩ := hrot _ _ _ _ _ _ _ _ _ _ hred
    have hsib : (s'.node p).child d.other = some q' := by
      have hnode := (Represents.isNode (k := ⟨d, .black, q, fr⟩ :: k) hrep).far
      rw [root_join] at hnode
      exact hnode
    refine ⟨q', s', .red, nr', fr', ⟨d, .black, q, fr⟩ :: k, ?_, hrep, hturn, ?_, .inr rfl⟩
    · simp only [Option.bind_eq_bind, Option.bind_some, hpar _ _ _ _ hblack, hpar _ _ _ _ hred, hs',
        hpar _ _ _ (⟨d, .black, q, fr⟩ :: k) hrep, hsib]
      rfl
    · show (plug k _).toList = (plug k _).toList
      refine toList_plug_congr (toList_rotate.trans ?_)
      rw [toList_join_color cp]
      cases d <;> simp [join, toList]

/-- After this the child of the sibling on the far side is red. -/
theorem turnNephew_spec (hrot : Rotates rot) (hpar : ReadsParent par d p t)
    (h : Represents s (plug (⟨d, cp, p, join d .black nr q fr⟩ :: k) t))
    (hshort : ShortIn (⟨d, cp, p, join d .black nr q fr⟩ :: k) t) (ht : t.rootColor = .black)
    (hred : ¬(nr.rootColor = .black ∧ fr.rootColor = .black)) :
    ∃ q' s' nr' fr', turnNephew rot par d q s = some (q', s') ∧
      Represents s' (plug (⟨d, cp, p, join d .black nr' q' fr'⟩ :: k) t) ∧
      ShortIn (⟨d, cp, p, join d .black nr' q' fr'⟩ :: k) t ∧ fr'.rootColor = .red ∧
      (plug (⟨d, cp, p, join d .black nr' q' fr'⟩ :: k) t).toList =
        (plug (⟨d, cp, p, join d .black nr q fr⟩ :: k) t).toList := by
  have hq := Represents.isNode (Represents.far h)
  have hfar : s.colorOf ((s.node q).child d.other) = fr.rootColor := by
    rw [hq.far]
    exact Represents.colorOf (k := ⟨d.other, .black, q, nr⟩ :: _) (Represents.far (Represents.far h))
  unfold turnNephew
  rw [hfar]
  cases hfc : fr.rootColor with
  | red =>
    rw [if_neg (by decide)]
    exact ⟨q, s, nr, fr, rfl, h, hshort, hfc, rfl⟩
  | black =>
    rw [if_pos rfl]
    obtain ⟨b, hb⟩ : ∃ b, nr.root = some b := by
      cases nr with
      | nil => exact absurd ⟨rfl, hfc⟩ hred
      | node c l b r => exact ⟨b, rfl⟩
    obtain ⟨c, n₁, n₂, rfl⟩ := exists_join hb d
    obtain rfl : c = .red := by
      rw [rootColor_join] at hred
      cases c with
      | red => rfl
      | black => exact absurd ⟨rfl, hfc⟩ hred
    have hnear : (s.node q).child d = some b := by
      rw [hq.near, root_join]
    have hblack : Represents (s.setColor b .black)
        (plug (⟨d, .black, q, fr⟩ :: ⟨d.other, cp, p, t⟩ :: k) (join d .black n₁ b n₂)) :=
      Represents.setColor (k := ⟨d, .black, q, fr⟩ :: _) (Represents.far h) .black
    have hturn : Represents ((s.setColor b .black).setColor q .red) (plug (⟨d.other, cp, p, t⟩ :: k)
        (join d.other .red fr q (join d.other .black n₂ b n₁))) := by
      rw [join_other, join_other]
      exact Represents.setColor (k := ⟨d.other, cp, p, t⟩ :: k) hblack .red
    obtain ⟨s', hs', hrep⟩ := hrot _ _ _ _ _ _ _ _ _ _ hturn
    rw [join_other, join_other] at hrep
    have hrep' := Represents.near hrep
    have hsib : (s'.node p).child d.other = some b := by
      rw [hrep'.isNode.far, root_join]
    refine ⟨b, s', n₁, join d .red n₂ q fr, ?_, hrep', hshort.nephew ht hfc, rootColor_join, ?_⟩
    · simp only [Option.bind_eq_bind, Option.bind_some, hnear, hs', hpar _ _ _ _ hrep', hsib]
      rfl
    · show (plug k _).toList = (plug k _).toList
      refine toList_plug_congr ?_
      cases d <;> simp [join, toList]

/-- The last rotation makes the tree a red-black tree. -/
theorem turnParent_spec (hrot : Rotates rot) (hpar : ReadsParent par d p t)
    (h : Represents s (plug (⟨d, cp, p, join d .black nr q fr⟩ :: k) t))
    (hshort : ShortIn (⟨d, cp, p, join d .black nr q fr⟩ :: k) t) (ht : t.rootColor = .black)
    (hfc : fr.rootColor = .red) :
    ∃ s' T, turnParent rot par d q s = some s' ∧ Represents s' T ∧ T.RedBlack ∧
      T.toList = (plug (⟨d, cp, p, join d .black nr q fr⟩ :: k) t).toList := by
  obtain ⟨b, hb⟩ : ∃ b, fr.root = some b := by
    cases fr with
    | nil => cases hfc
    | node c l b r => exact ⟨b, rfl⟩
  obtain ⟨c, n₁, n₂, rfl⟩ := exists_join hb d
  have hcp : (s.node p).color = cp := (Represents.isNode (k := k) h).color
  have hsib : Represents (s.setColor q cp) (plug k (join d cp t p (join d cp nr q (join d c n₁ b n₂)))) :=
    Represents.near ((Represents.far h).setColor cp)
  have hblack : Represents ((s.setColor q cp).setColor p .black)
      (plug k (join d .black t p (join d cp nr q (join d c n₁ b n₂)))) := hsib.setColor .black
  have hfar : (((s.setColor q cp).setColor p .black).node q).child d.other = some b := by
    rw [(Represents.isNode (Represents.far hblack)).far, root_join]
  have hfb := (Represents.far (Represents.far hblack)).setColor .black
  have hall : Represents (((s.setColor q cp).setColor p .black).setColor b .black)
      (plug k (join d .black t p (join d cp nr q (join d .black n₁ b n₂)))) :=
    Represents.near (Represents.near hfb)
  obtain ⟨s', hs', hrep⟩ := hrot _ _ _ _ _ _ _ _ _ _ hall
  refine ⟨s', _, ?_, hrep, ?_, ?_⟩
  · unfold turnParent
    rw [hpar _ _ _ k h, Option.bind_eq_bind, Option.bind_some, hcp]
    dsimp only
    rw [hpar _ _ _ _ hsib, Option.bind_some, hfar, Heap.setColorOf, hpar _ _ _ _ hall, Option.bind_some]
    exact hs'
  · have hdone := hshort.finish ht hfc
    rw [recolor_join] at hdone
    exact hdone
  · show _ = (plug k _).toList
    refine toList_plug_congr ?_
    cases d <;> simp [join, toList]

/-- What a round of the loop leaves: a red-black tree, or a tree that is short at the parent. -/
theorem deleteRound_spec (hrot : Rotates rot) (hpar : ReadsParent par d p t)
    (h : Represents s (plug (⟨d, cp, p, sib⟩ :: k) t))
    (hshort : ShortIn (⟨d, cp, p, sib⟩ :: k) t) (ht : t.rootColor = .black) :
    (∃ s' T, deleteRound rot par d s = some (true, s') ∧ Represents s' T ∧ T.RedBlack ∧
      T.toList = (plug (⟨d, cp, p, sib⟩ :: k) t).toList) ∨
    ∃ s' k' c v, deleteRound rot par d s = some (false, s') ∧ Represents s' (plug k' (join d c t p v)) ∧
      ShortIn k' (join d c t p v) ∧ (k' = k ∨ c = .red) ∧
      (plug k' (join d c t p v)).toList = (plug (⟨d, cp, p, sib⟩ :: k) t).toList := by
  obtain ⟨q, hq⟩ := hshort.sibling
  have hchild : (s.node p).child d.other = some q := by
    rw [(Represents.isNode (k := k) h).far, hq]
  obtain ⟨q', s₁, cp', nr, fr, k', hturn, h₁, hshort₁, hlist₁, hctx⟩ := turnSibling_spec hrot hpar h hq hshort ht
  have hnode := Represents.isNode (Represents.far h₁)
  have hnear : s₁.colorOf ((s₁.node q').child d) = nr.rootColor := by
    rw [hnode.near]
    exact Represents.colorOf (k := ⟨d, .black, q', fr⟩ :: ⟨d.other, cp', p, t⟩ :: k') (Represents.far h₁)
  have hfar : s₁.colorOf ((s₁.node q').child d.other) = fr.rootColor := by
    rw [hnode.far]
    exact Represents.colorOf (k := ⟨d.other, .black, q', nr⟩ :: _) (Represents.far (Represents.far h₁))
  unfold deleteRound
  rw [hpar _ _ _ k h, Option.bind_eq_bind, Option.bind_some, hchild, Option.bind_eq_bind, Option.bind_some, hturn, Option.bind_eq_bind, Option.bind_some]
  dsimp only
  rw [hnear, hfar]
  by_cases hblack : nr.rootColor = .black ∧ fr.rootColor = .black
  · right
    rw [if_pos hblack]
    refine ⟨_, k', cp', join d .red nr q' fr, rfl, ?_, hshort₁.up ht hblack.1 hblack.2, hctx, ?_⟩
    · exact Represents.near ((Represents.far h₁).setColor .red)
    · rw [← hlist₁]
      show (plug k' _).toList = (plug k' _).toList
      refine toList_plug_congr ?_
      cases d <;> simp [join, toList]
  · left
    rw [if_neg hblack]
    obtain ⟨q'', s₂, nr', fr', hneph, h₂, hshort₂, hfc, hlist₂⟩ := turnNephew_spec hrot hpar h₁ hshort₁ ht hblack
    obtain ⟨s₃, T, hturn₃, h₃, hrb, hlist₃⟩ := turnParent_spec hrot hpar h₂ hshort₂ ht hfc
    refine ⟨s₃, T, ?_, h₃, hrb, hlist₃.trans (hlist₂.trans hlist₁)⟩
    rw [hneph, Option.bind_some, hturn₃]
    rfl

end RoundSpec

end RbTree
