import Kenux.Lib.RbTree.Rebalance

/-!
# The writes of the textbook algorithms

The rotation, and the removal that puts the next node in order in the place of one with two children.
-/

namespace RbTree

open CTree

section Writes

variable {α : Type*} [DecidableEq α]

/-- The child of `node` on the other side of `d` is rotated above it. -/
def Heap.rotate (d : Side) (node : α) (s : Heap α) : Option (Heap α) := do
  let right ← (s.node node).child d.other
  let inner := (s.node right).child d
  let s := s.setChild node d.other inner
  let s := s.setParentOf inner (some node)
  let s := s.setParent right (s.node node).parent
  let s := s.relink d (s.node node).parent (some node) (some right)
  let s := s.setChild right d (some node)
  pure (s.setParent node (some right))

/-- `v` gets the place of `u`. -/
def Heap.transplant (s : Heap α) (u : α) (v : Option α) : Heap α :=
  let s := s.relink .left (s.node u).parent (some u) v
  s.setParentOf v (s.node u).parent

/-- The right subtree of `z` becomes that of `y`, without `y`. -/
def Heap.detach (s : Heap α) (z y : α) (x : Option α) : Option (Heap α) :=
  if (s.node y).parent = some z then some (s.setParentOf x (some y))
  else do
    let s := s.transplant y ((s.node y).child .right)
    let s := s.setChild y .right ((s.node z).child .right)
    let right ← (s.node y).child .right
    pure (s.setParent right (some y))

/-- `y` takes the place of `z`. -/
def Heap.substitute (s : Heap α) (z y : α) : Option (Heap α) := do
  let s := s.transplant z (some y)
  let s := s.setChild y .left ((s.node z).child .left)
  let left ← (s.node y).child .left
  let s := s.setParent left (some y)
  pure (s.setColor y (s.node z).color)

end Writes

section Rules

variable {α : Type*} [DecidableEq α] {s s₁ s₂ : Heap α} {k k₂ : List (Crumb α)} {t u l r : CTree α} {a b y : α}
  {c c₂ : Color} {d : Side}

theorem rotates_rotate : Rotates (@Heap.rotate α _) := by
  intro s k d c t a c' m b r h
  have hp := h.apart
  have hna := h.isNode
  have hnb := Represents.isNode (Represents.far h)
  have hma : m.root ≠ some a := fun hm => hp.am (mem_toList_root hm)
  have hmb : m.root ≠ some b := fun hm => hp.bm (mem_toList_root hm)
  have hta : top k ≠ some a := fun ht => hp.ac (top_mem ht)
  have htb : top k ≠ some b := fun ht => hp.bc (top_mem ht)
  have hctx : ReprCtx s (some a) k := by
    have := (represents_plug.mp h).1
    rwa [root_join] at this
  have hparent : ((((s.setChild a d.other m.root).setParentOf m.root (some a)).node a).parent = top k) := by
    simp [hma, hna.parent, Node.setChild]
  unfold Heap.rotate
  rw [hna.far, root_join, Option.bind_eq_bind, Option.bind_some]
  dsimp only
  rw [hnb.near, hparent]
  have hparent' : ((((s.setChild a d.other m.root).setParentOf m.root (some a)).setParent b (top k)).node a).parent =
      top k := by
    simp [hma, hna.parent, hp.ab, Node.setChild]
  rw [hparent']
  refine ⟨_, rfl, h.rotated ?_ ?_ ?_ ?_ ?_⟩
  · simp [hp.ab, hma, hta]
  · simp [hp.ab.symm, hmb, htb, Node.setChild]
  · intro x hx
    have hxa : x ≠ a := fun hxa => hma (hxa ▸ hx)
    have hxb : x ≠ b := fun hxb => hmb (hxb ▸ hx)
    have hxt : top k ≠ some x := fun ht => hp.mc x (mem_toList_root hx) (top_mem ht)
    simp [hxa, hxb, hxt, hx]
  · refine relinked_relink (d := d) hctx hp.ac ?_ fun x hx => ?_
    · simp
    · have hxa : x ≠ a := fun hxa => hta (hxa ▸ hx)
      have hxb : x ≠ b := fun hxb => htb (hxb ▸ hx)
      have hxm : m.root ≠ some x := fun hm => hp.mc x (mem_toList_root hm) (top_mem hx)
      simp [hxa, hxb, hxm, hx]
  · intro x hxa hxb hxm hxt
    simp [hxa, hxb, hxm, hxt]

omit [DecidableEq α] in
/-- A node and its only child are not above it. -/
theorem Represents.above (h : Represents s (plug k (join d c nil a u))) :
    a ∉ ctxNodes k ∧ ∀ x, u.root = some x → top k ≠ some x := by
  have hperm : (a :: (u.toList ++ ctxNodes k)).Nodup :=
    (perm_join.append_right _).nodup_iff.mp (represents_plug.mp h).2.2
  obtain ⟨ha, hnodup⟩ := List.nodup_cons.mp hperm
  exact ⟨fun hac => ha (List.mem_append_right _ hac), fun x hx ht =>
    (List.nodup_append.mp hnodup).2.2 x (mem_toList_root hx) x (top_mem ht) rfl⟩

/-- A node with one child gives its place to it. -/
theorem Represents.transplant (h : Represents s (plug k (join d c nil a u))) :
    Represents (s.transplant a u.root) (plug k u) := by
  obtain ⟨hctx, -, -⟩ := represents_plug.mp h
  rw [root_join] at hctx
  obtain ⟨ha, hdisj⟩ := h.above
  have hta : top k ≠ some a := fun ht => ha (top_mem ht)
  have hparent := h.isNode.parent
  unfold Heap.transplant
  simp only [node_relink, hparent, if_neg hta]
  refine h.spliced (fun x hx => ?_) ?_ fun x hxa hxu hxt => ?_
  · simp [hx, hdisj x hx]
  · refine relinked_relink (d := .left) hctx ha (by simp) fun x hx => ?_
    have hxu : u.root ≠ some x := fun hu => hdisj x hu hx
    simp [hx, hxu]
  · simp [hxu, hxt]

/-- What `detach` leaves, seen from the heap without `y` in the tree. -/
structure Detached (s₁ s₂ : Heap α) (a y : α) (r : CTree α) : Prop where
  root : s₂.root = s₁.root
  right : (s₂.node y).child .right = r.root
  child : ∀ x, r.root = some x → s₂.node x = { s₁.node x with parent := some y }
  left : (s₂.node a).child .left = (s₁.node a).child .left
  parent : (s₂.node a).parent = (s₁.node a).parent
  color : (s₂.node a).color = (s₁.node a).color
  other : ∀ x, x ≠ y → x ≠ a → r.root ≠ some x → s₂.node x = s₁.node x

theorem Represents.substitute (h : Represents s₁ (plug k (node c l a r))) (hl : l.root = some b)
    (hy : y ∉ (plug k (node c l a r)).toList) (hd : Detached s₁ s₂ a y r) :
    ∃ s', s₂.substitute a y = some s' ∧ Represents s' (plug k (node c l y r)) := by
  have h : Represents s₁ (plug k (join .left c l a r)) := h
  have hp := Represents.replaceable h hy
  have hctx := (represents_plug.mp h).1
  rw [root_join] at hctx
  have hnode := h.isNode
  have hlb := hp.left b hl
  have hta : top k ≠ some a := fun ht => (hp.parent a ht).1 rfl
  have hty : top k ≠ some y := fun ht => (hp.parent y ht).2 rfl
  have hother : ∀ x, top k = some x → s₂.node x = s₁.node x := fun x hx =>
    hd.other x (hp.parent x hx).2 (hp.parent x hx).1 fun hr => (hp.right x hr).2.2 hx
  unfold Heap.substitute Heap.transplant
  simp only [Heap.setParentOf, node_relink, hd.parent, hnode.parent, if_neg hta, node_setParent, Ne.symm hp.ne, if_false,
    hd.left, hnode.near, hl, node_setChild, if_true, Node.setChild, Function.update_self, Option.bind_eq_bind,
    Option.bind_some, hd.color, hnode.color, hlb.1.symm]
  refine ⟨_, rfl, h.replaced hp.out ?_ ?_ ?_ ?_ ?_⟩
  · have hright : (s₁.node a).child .right = r.root := hnode.far
    apply node_ext
    · simp [hlb.2.1.symm, hty, hnode.near, hl, Node.setChild]
    · simp [hlb.2.1.symm, hty, hright, hd.right, Node.setChild]
    · simp [hlb.2.1.symm, hty, hnode.parent, Node.setChild]
    · simp [hlb.2.1.symm, hty, hnode.color]
  · intro x hx
    obtain rfl : b = x := Option.some.inj (hl.symm.trans hx)
    simp [hlb, hd.other b hlb.2.1 hlb.1 hlb.2.2.1]
  · intro x hx
    have hbx : x ≠ b := fun heq => hlb.2.2.1 (heq ▸ hx)
    simp [hp.right x hx, hbx, hd.child x hx]
  · refine relinked_relink (d := .left) hctx hp.old ?_ fun x hx => ?_
    · simp [hd.root]
    · have hbx : x ≠ b := fun heq => hlb.2.2.2 (heq ▸ hx)
      simp [hx, hp.parent x hx, hbx, hother x hx, Node.setChild]
  · intro x hxa hxy hxl hxr hxt
    have hbx : x ≠ b := fun heq => hxl (heq ▸ hl)
    simp [hxy, hbx, hxt, hd.other x hxy hxa hxr]

/-- `y` is the right child of `a`. -/
theorem Represents.detach_child (h : Represents s (plug k (join .left c l a (join .left c₂ nil y u)))) :
    ∃ s₂, s.detach a y u.root = some s₂ ∧ Detached (s.transplant y u.root) s₂ a y u := by
  have hp := h.apart
  have hnode := Represents.isNode (Represents.far h)
  have hparent : (s.node y).parent = some a := hnode.parent
  have hleft : (s.node a).child .left ≠ some y := by
    rw [h.isNode.near]
    exact fun hl => hp.bt (mem_toList_root hl)
  have huy : u.root ≠ some y := fun hu => hp.br (mem_toList_root hu)
  have hua : u.root ≠ some a := fun hu => hp.ar (mem_toList_root hu)
  have hright : (s.node y).child .right = u.root := hnode.far
  unfold Heap.detach Heap.transplant
  refine ⟨_, if_pos hparent, ?_⟩
  simp only [node_relink, hparent]
  constructor
  · simp
  · simp [huy, hright]
  · intro x hx
    have hxa : a ≠ x := fun hxa => hua (hxa ▸ hx)
    simp [hx, hxa]
  · simp [hua, hleft, Node.setChild, Side.other]
  · simp [hua, hleft, Node.setChild]
  · simp [hua, hleft, Node.setChild]
  · intro x hxy hxa hxu
    simp [hxu, Ne.symm hxa]

/-- `y` is deeper in the right subtree of `a`. -/
theorem Represents.detach_deeper (h : Represents (s.transplant y u.root) (plug k (node c l a r))) (hr : r.root = some b)
    (hy : y ∉ (plug k (node c l a r)).toList) (hparent : (s.node y).parent ≠ some a)
    (hright : (s.node y).child .right = u.root) :
    ∃ s₂, s.detach a y u.root = some s₂ ∧ Detached (s.transplant y u.root) s₂ a y r := by
  have hp := Represents.replaceable h hy
  have hb := hp.right b hr
  have hfar : ((s.transplant y u.root).node a).child .right = r.root :=
    (Represents.isNode (d := .left) (t := l) h).far
  unfold Heap.detach
  rw [if_neg hparent, hright]
  simp only [hfar, hr, node_setChild, if_true, Node.setChild, Function.update_self, Option.bind_eq_bind,
    Option.bind_some]
  refine ⟨_, rfl, ?_⟩
  constructor
  · rfl
  · simp [hb.2.1.symm, hr, Node.setChild]
  · intro x hx
    obtain rfl : b = x := Option.some.inj (hr.symm.trans hx)
    simp [hb]
  · simp [hb.1.symm, hp.ne.symm]
  · simp [hb.1.symm, hp.ne.symm]
  · simp [hb.1.symm, hp.ne.symm]
  · intro x hxy hxa hxr
    have hxb : x ≠ b := fun heq => hxr (heq ▸ hr)
    simp [hxy, hxb]

/-- The next task in order takes the place of one with two children. -/
theorem Represents.between (h : Represents s (plug k (node c l a (plug k₂ (node c₂ nil y u))))) (hl : l.root = some b) :
    ∃ s₂ s', s.detach a y u.root = some s₂ ∧ s₂.substitute a y = some s' ∧
      Represents s' (plug k (node c l y (plug k₂ u))) := by
  have hsplit : ∀ t, plug k (node c l a (plug k₂ t)) = plug (k₂ ++ ⟨.right, c, a, l⟩ :: k) t :=
    fun t => (plug_append k₂ (⟨.right, c, a, l⟩ :: k) t).symm
  have hk : Represents s (plug (k₂ ++ ⟨.right, c, a, l⟩ :: k) (join .left c₂ nil y u)) := hsplit _ ▸ h
  have h₁ := hk.transplant
  have hy : y ∉ (plug (k₂ ++ ⟨.right, c, a, l⟩ :: k) u).toList := by
    rw [(perm_plug _ _).mem_iff]
    exact (List.nodup_cons.mp (represents_plug.mp hk).2.2).1
  rw [← hsplit] at h₁ hy
  obtain ⟨s₂, hs₂, hd⟩ : ∃ s₂, s.detach a y u.root = some s₂ ∧
      Detached (s.transplant y u.root) s₂ a y (plug k₂ u) := by
    cases k₂ with
    | nil => exact h.detach_child
    | cons f k₂ =>
      obtain ⟨x, hx, hmem⟩ := exists_root_plug f k₂ u
      refine Represents.detach_deeper h₁ hx hy ?_ hk.isNode.far
      rw [hk.isNode.parent]
      exact fun hf => h.ne_of_right (Option.some.inj hf)
  obtain ⟨s', hs', hrep⟩ := Represents.substitute h₁ hl hy hd
  exact ⟨s₂, s', hs₂, hs', hrep⟩

end Rules

end RbTree
