import Kenux.Lib.RbTree.Tree

/-!
# Red-black trees in a heap

Nodes carry their children, their parent and their color. `Represents` says which tree the nodes reached
from the root make up; by `represents_plug` it can be read at any place of the tree, as what the context
asks of the heap and what the subtree asks of it. The rules for the writes of a program are stated for a
subtree in any context.
-/

namespace RbTree

open CTree

variable {α : Type*}

structure Node (α : Type*) where
  child : Side → Option α
  parent : Option α
  color : Color

structure Heap (α : Type*) where
  node : α → Node α
  root : Option α

def Node.setChild (x : Node α) (d : Side) (p : Option α) : Node α :=
  { x with child := Function.update x.child d p }

/-- The fields of a node, seen from one side. -/
structure IsNode (x : Node α) (d : Side) (c : Color) (near far parent : Option α) : Prop where
  near : x.child d = near
  far : x.child d.other = far
  parent : x.parent = parent
  color : x.color = c

/-- The nodes of the subtree, below `parent`. -/
def Repr (n : α → Node α) : Option α → CTree α → Prop
  | _, .nil => True
  | parent, .node c l a r =>
    IsNode (n a) .left c l.root r.root parent ∧ Repr n (some a) l ∧ Repr n (some a) r

/-- The nodes of the context, and the pointer to the hole. -/
def ReprCtx (s : Heap α) : Option α → List (Crumb α) → Prop
  | hole, [] => s.root = hole
  | hole, f :: k => IsNode (s.node f.node) f.side f.color hole f.sibling.root (top k) ∧
      Repr s.node (some f.node) f.sibling ∧ ReprCtx s (some f.node) k

/-- The heap has the tree. -/
structure Represents (s : Heap α) (t : CTree α) : Prop where
  root : s.root = t.root
  repr : Repr s.node none t
  nodup : t.toList.Nodup

section

variable {s s' : Heap α} {n n' : α → Node α} {x : Node α} {d e : Side} {c : Color} {t u : CTree α} {a b : α}
  {near far parent parent' hole new : Option α} {k : List (Crumb α)}

theorem node_ext {x z : Node α} (hl : x.child .left = z.child .left) (hr : x.child .right = z.child .right)
    (hp : x.parent = z.parent) (hc : x.color = z.color) : x = z := by
  obtain ⟨cx, px, kx⟩ := x
  obtain ⟨cz, pz, kz⟩ := z
  obtain rfl : px = pz := hp
  obtain rfl : kx = kz := hc
  obtain rfl : cx = cz := by
    funext d
    cases d with
    | left => exact hl
    | right => exact hr
  rfl

theorem IsNode.flip (h : IsNode x d c near far parent) : IsNode x d.other c far near parent :=
  ⟨h.far, by rw [Side.other_other]; exact h.near, h.parent, h.color⟩

theorem isNode_other : IsNode x d.other c far near parent ↔ IsNode x d c near far parent :=
  ⟨fun h => by simpa using h.flip, IsNode.flip⟩

theorem repr_join : Repr n parent (join d c t a u) ↔
    IsNode (n a) d c t.root u.root parent ∧ Repr n (some a) t ∧ Repr n (some a) u := by
  cases d with
  | left => exact .rfl
  | right => exact and_congr (isNode_other (d := .right)) and_comm

theorem represents_plug : Represents s (plug k t) ↔
    ReprCtx s t.root k ∧ Repr s.node (top k) t ∧ (t.toList ++ ctxNodes k).Nodup := by
  have hpieces : (s.root = (plug k t).root ∧ Repr s.node none (plug k t)) ↔
      ReprCtx s t.root k ∧ Repr s.node (top k) t := by
    induction k generalizing t with
    | nil => exact .rfl
    | cons f k ih =>
      show s.root = (plug k _).root ∧ Repr s.node none (plug k _) ↔ _
      rw [ih, root_join, repr_join]
      show _ ↔ (IsNode (s.node f.node) f.side f.color t.root f.sibling.root (top k) ∧
        Repr s.node (some f.node) f.sibling ∧ ReprCtx s (some f.node) k) ∧ Repr s.node (some f.node) t
      tauto
  rw [← and_assoc, ← hpieces, ← (perm_plug k t).nodup_iff]
  exact ⟨fun h => ⟨⟨h.root, h.repr⟩, h.nodup⟩, fun h => ⟨h.1.1, h.1.2, h.2⟩⟩

/-! ## What other writes leave alone -/

theorem Repr.congr (h : Repr n parent t) (hn : ∀ y ∈ t.toList, n' y = n y) : Repr n' parent t := by
  induction t generalizing parent with
  | nil => trivial
  | node c l a r ihl ihr =>
    obtain ⟨ha, hl, hr⟩ := h
    refine ⟨?_, ihl hl fun y hy => hn y ?_, ihr hr fun y hy => hn y ?_⟩
    · rw [hn a (by simp [toList])]
      exact ha
    · simp [toList, hy]
    · simp [toList, hy]

/-- A subtree gets another parent. -/
theorem Repr.reparent (h : Repr n parent t) (hnodup : t.toList.Nodup)
    (hroot : ∀ y, t.root = some y → n' y = { n y with parent := parent' })
    (hn : ∀ y ∈ t.toList, t.root ≠ some y → n' y = n y) : Repr n' parent' t := by
  cases t with
  | nil => trivial
  | node c l a r =>
    obtain ⟨ha, hl, hr⟩ := h
    have hperm : (a :: (l.toList ++ r.toList)).Nodup := List.perm_middle.nodup_iff.mp hnodup
    have hne : ∀ y ∈ l.toList ++ r.toList, n' y = n y := by
      intro y hy
      refine hn y ?_ fun heq => ?_
      · rw [toList, List.mem_append, List.mem_cons]
        rcases List.mem_append.mp hy with hy | hy
        · exact .inl hy
        · exact .inr (.inr hy)
      · obtain rfl := Option.some.inj heq
        exact (List.nodup_cons.mp hperm).1 hy
    refine ⟨?_, hl.congr fun y hy => hne y (List.mem_append_left _ hy),
      hr.congr fun y hy => hne y (List.mem_append_right _ hy)⟩
    rw [hroot a rfl]
    exact ⟨ha.near, ha.far, rfl, ha.color⟩

theorem ReprCtx.congr (h : ReprCtx s hole k) (hroot : s'.root = s.root)
    (hn : ∀ y ∈ ctxNodes k, s'.node y = s.node y) : ReprCtx s' hole k := by
  induction k generalizing hole with
  | nil => exact hroot.trans h
  | cons f k ih =>
    obtain ⟨hf, hsib, hctx⟩ := h
    refine ⟨?_, hsib.congr fun y hy => hn y ?_, ih hctx fun y hy => hn y ?_⟩
    · rw [hn f.node List.mem_cons_self]
      exact hf
    · exact List.mem_cons_of_mem _ (List.mem_append_left _ hy)
    · exact List.mem_cons_of_mem _ (List.mem_append_right _ hy)

theorem top_mem {y : α} (h : top k = some y) : y ∈ ctxNodes k := by
  cases k with
  | nil => cases h
  | cons f k =>
    obtain rfl := Option.some.inj h
    exact List.mem_cons_self

/-- The pointer to the hole of the context is made to `new`. -/
def Relinked (s s' : Heap α) (new : Option α) : List (Crumb α) → Prop
  | [] => s'.root = new
  | f :: _ => s'.root = s.root ∧
      s'.node f.node = (s.node f.node).setChild f.side new

theorem ReprCtx.relinked (h : ReprCtx s hole k) (hlink : Relinked s s' new k)
    (hnodup : (ctxNodes k).Nodup) (hn : ∀ y ∈ ctxNodes k, top k ≠ some y → s'.node y = s.node y) :
    ReprCtx s' new k := by
  cases k with
  | nil => exact hlink
  | cons f k =>
    obtain ⟨hf, hsib, hctx⟩ := h
    obtain ⟨hroot, hnode⟩ := hlink
    have hne : ∀ y ∈ f.sibling.toList ++ ctxNodes k, s'.node y = s.node y := by
      intro y hy
      refine hn y (List.mem_cons_of_mem _ hy) fun heq => ?_
      obtain rfl : f.node = y := Option.some.inj heq
      exact (List.nodup_cons.mp hnodup).1 hy
    refine ⟨?_, hsib.congr fun y hy => hne y (List.mem_append_left _ hy),
      hctx.congr hroot fun y hy => hne y (List.mem_append_right _ hy)⟩
    rw [hnode]
    exact ⟨Function.update_self .., (Function.update_of_ne f.side.other_ne ..).trans hf.far, hf.parent, hf.color⟩

end

/-! ## Writes -/

section Writes

variable [DecidableEq α]

def Heap.mod (s : Heap α) (a : α) (f : Node α → Node α) : Heap α :=
  { s with node := Function.update s.node a (f (s.node a)) }

def Heap.setChild (s : Heap α) (a : α) (d : Side) (p : Option α) : Heap α :=
  s.mod a fun x => x.setChild d p

def Heap.setParent (s : Heap α) (a : α) (p : Option α) : Heap α := s.mod a fun x => { x with parent := p }

def Heap.setColor (s : Heap α) (a : α) (c : Color) : Heap α := s.mod a fun x => { x with color := c }

def Heap.setRoot (s : Heap α) (p : Option α) : Heap α := { s with root := p }

/-- The parent of a node that may be missing. -/
def Heap.setParentOf (s : Heap α) (o p : Option α) : Heap α :=
  match o with
  | some a => s.setParent a p
  | none => s

/-- The link from `parent` to `old`, or from the root, is made to `new`; the child on side `d` is compared. -/
def Heap.relink (s : Heap α) (d : Side) (parent old new : Option α) : Heap α :=
  match parent with
  | some p => if (s.node p).child d = old then s.setChild p d new else s.setChild p d.other new
  | none => s.setRoot new

variable {s s' : Heap α} {d e : Side} {c c' : Color} {t u m r : CTree α} {a b x : α}
  {o old new p hole : Option α} {k : List (Crumb α)}

@[simp] theorem node_setChild : (s.setChild a d p).node x =
    if x = a then (s.node a).setChild d p else s.node x :=
  Function.update_apply ..

@[simp] theorem node_setParent : (s.setParent a p).node x =
    if x = a then { s.node a with parent := p } else s.node x :=
  Function.update_apply ..

@[simp] theorem node_setColor : (s.setColor a c).node x =
    if x = a then { s.node a with color := c } else s.node x :=
  Function.update_apply ..

omit [DecidableEq α] in
@[simp] theorem node_setRoot : (s.setRoot p).node x = s.node x := rfl

@[simp] theorem root_setChild : (s.setChild a d p).root = s.root := rfl

@[simp] theorem root_setParent : (s.setParent a p).root = s.root := rfl

@[simp] theorem root_setColor : (s.setColor a c).root = s.root := rfl

omit [DecidableEq α] in
@[simp] theorem root_setRoot : (s.setRoot p).root = p := rfl

@[simp] theorem node_setParentOf : (s.setParentOf o p).node x =
    if o = some x then { s.node x with parent := p } else s.node x := by
  cases o with
  | none => rfl
  | some a =>
    show (s.setParent a p).node x = _
    rw [node_setParent]
    by_cases h : x = a
    · rw [if_pos h, if_pos (congrArg some h.symm), h]
    · rw [if_neg h, if_neg fun heq => h (Option.some.inj heq).symm]

@[simp] theorem root_setParentOf : (s.setParentOf o p).root = s.root := by
  cases o <;> rfl

@[simp] theorem node_relink : (s.relink d p old new).node x =
    if p = some x then (s.node x).setChild (if (s.node x).child d = old then d else d.other) new
    else s.node x := by
  cases p with
  | none => rfl
  | some q =>
    unfold Heap.relink
    dsimp only
    by_cases h : x = q
    · subst h
      rw [if_pos rfl]
      split_ifs with hold
      · rw [node_setChild, if_pos rfl]
      · rw [node_setChild, if_pos rfl]
    · rw [if_neg fun heq => h (Option.some.inj heq).symm]
      split_ifs with hold
      · rw [node_setChild, if_neg h]
      · rw [node_setChild, if_neg h]

@[simp] theorem root_relink : (s.relink d p old new).root = if p = none then new else s.root := by
  cases p with
  | none => rfl
  | some q =>
    rw [if_neg (by rintro ⟨⟩)]
    unfold Heap.relink
    dsimp only
    split_ifs <;> rfl

omit [DecidableEq α] in
theorem Heap.ext_node (hroot : s.root = s'.root) (hnode : ∀ x, s.node x = s'.node x) : s = s' := by
  cases s
  cases s'
  exact congr (congrArg Heap.mk (funext hnode)) hroot

/-- The program finds the link to a subtree whichever child of the parent it compares first. -/
theorem relinked_relink (h : ReprCtx s (some a) k) (hsib : a ∉ ctxNodes k)
    (hroot : s'.root = if top k = none then new else s.root)
    (hnode : ∀ x, top k = some x →
      s'.node x = (s.node x).setChild (if (s.node x).child d = some a then d else d.other) new) :
    Relinked s s' new k := by
  cases k with
  | nil => exact hroot
  | cons f k =>
    refine ⟨hroot, ?_⟩
    rw [hnode f.node rfl]
    obtain ⟨hf, -, -⟩ := h
    have hside : (if (s.node f.node).child d = some a then d else d.other) = f.side := by
      rcases f.side.eq_or_other d with hd | hd
      · rw [hd, if_pos hf.near]
      · have hfar : (s.node f.node).child d = f.sibling.root := hd ▸ hf.far
        rw [if_neg, hd, Side.other_other]
        rw [hfar]
        intro heq
        exact hsib (List.mem_cons_of_mem _ (List.mem_append_left _ (mem_toList_root heq)))
    rw [hside]

theorem Represents.setColor (h : Represents s (plug k (join d c t a u))) (c' : Color) :
    Represents (s.setColor a c') (plug k (join d c' t a u)) := by
  rw [represents_plug] at h ⊢
  obtain ⟨hctx, hrepr, hnodup⟩ := h
  have hnodup' : (a :: (t.toList ++ u.toList) ++ ctxNodes k).Nodup :=
    (perm_join.append_right _).nodup_iff.mp hnodup
  have hne : ∀ y ∈ t.toList ++ u.toList ++ ctxNodes k, (s.setColor a c').node y = s.node y := by
    intro y hy
    rw [node_setColor, if_neg]
    rintro rfl
    exact (List.nodup_cons.mp hnodup').1 hy
  obtain ⟨ha, ht, hu⟩ := repr_join.mp hrepr
  refine ⟨?_, repr_join.mpr ⟨?_, ht.congr fun y hy => hne y ?_, hu.congr fun y hy => hne y ?_⟩, ?_⟩
  · rw [root_join] at hctx ⊢
    exact hctx.congr rfl fun y hy => hne y (List.mem_append_right _ hy)
  · rw [node_setColor, if_pos rfl]
    exact ⟨ha.near, ha.far, ha.parent, rfl⟩
  · exact List.mem_append_left _ (List.mem_append_left _ hy)
  · exact List.mem_append_left _ (List.mem_append_right _ hy)
  · rw [toList_join_color c]
    exact hnodup

end Writes

/-! ## Rotations, and nodes that come and go -/

section Rules

variable {s s' : Heap α} {d : Side} {c c' : Color} {t u m r : CTree α} {a b x : α} {k : List (Crumb α)}

/-- The parts of a tree at two nodes, one the child of the other, have no node in common. -/
structure Apart (k : List (Crumb α)) (t : CTree α) (a : α) (m : CTree α) (b : α) (r : CTree α) : Prop where
  ab : a ≠ b
  a_t : a ∉ t.toList
  am : a ∉ m.toList
  ar : a ∉ r.toList
  ac : a ∉ ctxNodes k
  bt : b ∉ t.toList
  bm : b ∉ m.toList
  br : b ∉ r.toList
  bc : b ∉ ctxNodes k
  tm : ∀ x ∈ t.toList, x ∉ m.toList
  tc : ∀ x ∈ t.toList, x ∉ ctxNodes k
  mr : ∀ x ∈ m.toList, x ∉ r.toList
  mc : ∀ x ∈ m.toList, x ∉ ctxNodes k
  rc : ∀ x ∈ r.toList, x ∉ ctxNodes k
  m : m.toList.Nodup
  k : (ctxNodes k).Nodup

theorem Represents.apart (h : Represents s (plug k (join d c t a (join d c' m b r)))) :
    Apart k t a m b r := by
  have hnodup := (represents_plug.mp h).2.2
  have hperm : (join d c t a (join d c' m b r)).toList.Perm (a :: (t.toList ++ (b :: (m.toList ++ r.toList)))) :=
    perm_join.trans ((perm_join.append_left _).cons a)
  have hall := (hperm.append_right (ctxNodes k)).nodup_iff.mp hnodup
  simp only [List.cons_append, List.append_assoc, List.nodup_cons, List.mem_append, List.mem_cons, not_or,
    List.nodup_append] at hall
  obtain ⟨⟨hat, hab, ham, har, hac⟩, -, ⟨⟨hbm, hbr, hbc⟩, hm, ⟨-, hctx, hrc⟩, hmrc⟩, ht⟩ := hall
  exact ⟨hab, hat, ham, har, hac, fun hb => ht b hb b (.inl rfl) rfl, hbm, hbr, hbc,
    fun x hx hm => ht x hx x (.inr (.inl hm)) rfl, fun x hx hc => ht x hx x (.inr (.inr (.inr hc))) rfl,
    fun x hx hr => hmrc x hx x (.inl hr) rfl, fun x hx hc => hmrc x hx x (.inr hc) rfl,
    fun x hx hc => hrc x hx x hc rfl, hm, hctx⟩

/-- A rotation: what the nodes have to be afterwards, however they were written. -/
theorem Represents.rotated (h : Represents s (plug k (join d c t a (join d c' m b r))))
    (ha : s'.node a = { (s.node a).setChild d.other m.root with parent := some b })
    (hb : s'.node b = { (s.node b).setChild d (some a) with parent := top k })
    (hm : ∀ x, m.root = some x → s'.node x = { s.node x with parent := some a })
    (hlink : Relinked s s' (some b) k)
    (hother : ∀ x, x ≠ a → x ≠ b → m.root ≠ some x → top k ≠ some x → s'.node x = s.node x) :
    Represents s' (plug k (join d c' (join d c t a m) b r)) := by
  have hp := h.apart
  obtain ⟨hctx, hrepr, hnodup⟩ := represents_plug.mp h
  obtain ⟨hna, ht, hmk⟩ := repr_join.mp hrepr
  obtain ⟨hnb, hmr, hr⟩ := repr_join.mp hmk
  have hsame : ∀ x, x ≠ a → x ≠ b → x ∉ m.toList → x ∉ ctxNodes k → s'.node x = s.node x :=
    fun x hxa hxb hxm hxc => hother x hxa hxb (fun hr => hxm (mem_toList_root hr)) fun ht => hxc (top_mem ht)
  rw [root_join] at hctx
  refine represents_plug.mpr ⟨?_, repr_join.mpr ⟨?_, repr_join.mpr ⟨?_, ?_, ?_⟩, ?_⟩, ?_⟩
  · rw [root_join]
    refine hctx.relinked hlink hp.k fun y hy htop => hother y ?_ ?_ ?_ htop
    · rintro rfl
      exact hp.ac hy
    · rintro rfl
      exact hp.bc hy
    · exact fun hr => hp.mc y (mem_toList_root hr) hy
  · rw [hb, root_join]
    exact ⟨Function.update_self .., (Function.update_of_ne d.other_ne ..).trans hnb.far, rfl, hnb.color⟩
  · rw [ha]
    exact ⟨(Function.update_of_ne d.other_ne.symm ..).trans hna.near, Function.update_self .., rfl, hna.color⟩
  · exact ht.congr fun y hy => hsame y (fun hya => hp.a_t (hya ▸ hy)) (fun hyb => hp.bt (hyb ▸ hy))
      (hp.tm y hy) (hp.tc y hy)
  · refine hmr.reparent hp.m hm fun y hy hroot => hother y ?_ ?_ hroot fun htop => hp.mc y hy (top_mem htop)
    · exact fun hya => hp.am (hya ▸ hy)
    · exact fun hyb => hp.bm (hyb ▸ hy)
  · exact hr.congr fun y hy => hsame y (fun hya => hp.ar (hya ▸ hy)) (fun hyb => hp.br (hyb ▸ hy))
      (fun hym => hp.mr y hym hy) (hp.rc y hy)
  · have hlist : (join d c' (join d c t a m) b r).toList = _ := toList_rotate
    rw [hlist]
    exact hnodup

/-- A red leaf is put into the hole. -/
theorem Represents.attached (h : Represents s (plug k nil)) (hx : x ∉ ctxNodes k)
    (hnode : IsNode (s'.node x) .left .red none none (top k)) (hlink : Relinked s s' (some x) k)
    (hother : ∀ y, y ≠ x → top k ≠ some y → s'.node y = s.node y) :
    Represents s' (plug k (node .red nil x nil)) := by
  obtain ⟨hctx, -, hnodup⟩ := represents_plug.mp h
  refine represents_plug.mpr ⟨hctx.relinked hlink hnodup fun y hy htop => hother y ?_ htop,
    ⟨hnode, trivial, trivial⟩, List.nodup_cons.mpr ⟨hx, hnodup⟩⟩
  rintro rfl
  exact hx hy

/-- A node with at most one child gives its place to that child. -/
theorem Represents.spliced (h : Represents s (plug k (join d c nil a u)))
    (hu : ∀ y, u.root = some y → s'.node y = { s.node y with parent := top k })
    (hlink : Relinked s s' u.root k)
    (hother : ∀ y, y ≠ a → u.root ≠ some y → top k ≠ some y → s'.node y = s.node y) :
    Represents s' (plug k u) := by
  obtain ⟨hctx, hrepr, hnodup⟩ := represents_plug.mp h
  obtain ⟨-, -, hru⟩ := repr_join.mp hrepr
  have hperm : (a :: (u.toList ++ ctxNodes k)).Nodup := (perm_join.append_right _).nodup_iff.mp hnodup
  obtain ⟨ha, hnodup'⟩ := List.nodup_cons.mp hperm
  obtain ⟨hnu, hnc, hdisj⟩ := List.nodup_append.mp hnodup'
  refine represents_plug.mpr ⟨?_, ?_, hnodup'⟩
  · refine hctx.relinked hlink hnc fun y hy htop => hother y ?_ ?_ htop
    · rintro rfl
      exact ha (List.mem_append_right _ hy)
    · exact fun hr => hdisj y (mem_toList_root hr) y hy rfl
  · refine hru.reparent hnu hu fun y hy hroot => hother y ?_ hroot fun htop => hdisj y hy y (top_mem htop) rfl
    rintro rfl
    exact ha (List.mem_append_left _ hy)

/-- A node, its children and its parent, and one outside the tree are all different. -/
structure Replaceable (k : List (Crumb α)) (l : CTree α) (a : α) (r : CTree α) (x : α) : Prop where
  ne : x ≠ a
  left : ∀ y, l.root = some y → y ≠ a ∧ y ≠ x ∧ r.root ≠ some y ∧ top k ≠ some y
  right : ∀ y, r.root = some y → y ≠ a ∧ y ≠ x ∧ top k ≠ some y
  parent : ∀ y, top k = some y → y ≠ a ∧ y ≠ x
  out : x ∉ l.toList ∧ x ∉ r.toList ∧ x ∉ ctxNodes k
  old : a ∉ ctxNodes k

theorem Represents.replaceable {l : CTree α} (h : Represents s (plug k (node c l a r)))
    (hx : x ∉ (plug k (node c l a r)).toList) : Replaceable k l a r x := by
  have h : Represents s (plug k (join .left c l a r)) := h
  have hperm : (a :: (l.toList ++ r.toList ++ ctxNodes k)).Nodup :=
    (perm_join.append_right _).nodup_iff.mp (represents_plug.mp h).2.2
  simp only [List.append_assoc, List.nodup_cons, List.nodup_append, List.mem_append, not_or] at hperm
  obtain ⟨⟨hal, har, hac⟩, -, ⟨-, -, hrc⟩, hlrc⟩ := hperm
  rw [(perm_plug k _).mem_iff] at hx
  simp only [toList, List.mem_append, List.mem_cons, not_or] at hx
  obtain ⟨⟨hxl, hxa, hxr⟩, hxc⟩ := hx
  refine ⟨hxa, fun y hy => ?_, fun y hy => ?_, fun y hy => ?_, ⟨hxl, hxr, hxc⟩, hac⟩
  · have hmem := mem_toList_root hy
    exact ⟨fun heq => hal (heq ▸ hmem), fun heq => hxl (heq ▸ hmem),
      fun hr => hlrc y hmem y (.inl (mem_toList_root hr)) rfl, fun ht => hlrc y hmem y (.inr (top_mem ht)) rfl⟩
  · have hmem := mem_toList_root hy
    exact ⟨fun heq => har (heq ▸ hmem), fun heq => hxr (heq ▸ hmem), fun ht => hrc y hmem y (top_mem ht) rfl⟩
  · exact ⟨fun heq => hac (heq ▸ top_mem hy), fun heq => hxc (heq ▸ top_mem hy)⟩

/-- A node inside the right subtree of a node is another one. -/
theorem Represents.ne_of_right {l : CTree α} {f : Crumb α} {k' : List (Crumb α)}
    (h : Represents s (plug k (node c l a (plug (f :: k') t)))) : f.node ≠ a := by
  have hnodup := (represents_plug.mp h).2.2
  simp only [toList, List.append_assoc, List.nodup_append, List.cons_append, List.nodup_cons, List.mem_append,
    not_or] at hnodup
  rintro rfl
  exact hnodup.2.1.1.1 ((perm_plug _ _).mem_iff.mpr (List.mem_append_right _ List.mem_cons_self))

/-- A new node takes the place of another. -/
theorem Represents.replaced (h : Represents s (plug k (join d c t a u)))
    (hx : x ∉ t.toList ∧ x ∉ u.toList ∧ x ∉ ctxNodes k)
    (hnode : s'.node x = s.node a) (ht : ∀ y, t.root = some y → s'.node y = { s.node y with parent := some x })
    (hu : ∀ y, u.root = some y → s'.node y = { s.node y with parent := some x })
    (hlink : Relinked s s' (some x) k)
    (hother : ∀ y, y ≠ a → y ≠ x → t.root ≠ some y → u.root ≠ some y → top k ≠ some y →
      s'.node y = s.node y) : Represents s' (plug k (join d c t x u)) := by
  obtain ⟨hctx, hrepr, hnodup⟩ := represents_plug.mp h
  obtain ⟨hna, hrt, hru⟩ := repr_join.mp hrepr
  have hperm : (a :: (t.toList ++ u.toList ++ ctxNodes k)).Nodup :=
    (perm_join.append_right _).nodup_iff.mp hnodup
  obtain ⟨ha, hnodup'⟩ := List.nodup_cons.mp hperm
  obtain ⟨htu, hnc, hdisj⟩ := List.nodup_append.mp hnodup'
  obtain ⟨hnt, hnu, hdisj'⟩ := List.nodup_append.mp htu
  simp only [List.mem_append, not_or] at ha hdisj
  obtain ⟨hxt, hxu, hxc⟩ := hx
  rw [root_join] at hctx
  refine represents_plug.mpr ⟨?_, repr_join.mpr ⟨?_, ?_, ?_⟩, ?_⟩
  · rw [root_join]
    refine hctx.relinked hlink hnc fun y hy htop => hother y ?_ ?_ ?_ ?_ htop
    · exact fun hya => ha.2 (hya ▸ hy)
    · exact fun hyx => hxc (hyx ▸ hy)
    · exact fun hr => hdisj y (.inl (mem_toList_root hr)) y hy rfl
    · exact fun hr => hdisj y (.inr (mem_toList_root hr)) y hy rfl
  · rw [hnode]
    exact hna
  · refine hrt.reparent hnt ht fun y hy hroot => hother y ?_ ?_ hroot ?_ ?_
    · exact fun hya => ha.1.1 (hya ▸ hy)
    · exact fun hyx => hxt (hyx ▸ hy)
    · exact fun hr => hdisj' y hy y (mem_toList_root hr) rfl
    · exact fun htop => hdisj y (.inl hy) y (top_mem htop) rfl
  · refine hru.reparent hnu hu fun y hy hroot => hother y ?_ ?_ ?_ hroot ?_
    · exact fun hya => ha.1.2 (hya ▸ hy)
    · exact fun hyx => hxu (hyx ▸ hy)
    · exact fun hr => hdisj' y (mem_toList_root hr) y hy rfl
    · exact fun htop => hdisj y (.inr hy) y (top_mem htop) rfl
  · refine (perm_join.append_right _).nodup_iff.mpr (List.nodup_cons.mpr ⟨fun hmem => ?_, hnodup'⟩)
    rcases List.mem_append.mp hmem with hmem | hmem
    · exact (List.mem_append.mp hmem).elim hxt hxu
    · exact hxc hmem

end Rules

end RbTree
