import Mathlib.Data.List.Nodup
import Mathlib.Data.List.Perm.Basic

/-!
# Red-black trees and their contexts

Trees whose nodes have a color, and trees with a hole: a list of crumbs, the innermost first, each a node
with one subtree missing. Left and right are treated alike through `Side`. A context accepts the trees of
one black height, and with a black parent of the hole also those with a red root.
-/

namespace RbTree

inductive Side where
  | left | right
  deriving DecidableEq

def Side.other : Side → Side
  | .left => .right
  | .right => .left

inductive Color where
  | red | black
  deriving DecidableEq

inductive CTree (α : Type*) where
  | nil
  | node (c : Color) (l : CTree α) (a : α) (r : CTree α)

/-- A node whose hole is on side `side`, and the subtree on the other side. -/
structure Crumb (α : Type*) where
  side : Side
  color : Color
  node : α
  sibling : CTree α

variable {α : Type*}

@[simp] theorem Side.other_other (d : Side) : d.other.other = d := by
  cases d <;> rfl

theorem Side.other_ne (d : Side) : d.other ≠ d := by
  cases d <;> decide

theorem Side.eq_or_other (d e : Side) : e = d ∨ e = d.other := by
  cases d <;> cases e <;> decide

namespace CTree

/-- The node with `t` on side `d` and `u` on the other. -/
def join : Side → Color → CTree α → α → CTree α → CTree α
  | .left, c, t, a, u => node c t a u
  | .right, c, t, a, u => node c u a t

/-- The nodes in order. -/
def toList : CTree α → List α
  | nil => []
  | node _ l a r => l.toList ++ a :: r.toList

def root : CTree α → Option α
  | nil => none
  | node _ _ a _ => some a

def rootColor : CTree α → Color
  | nil => .black
  | node c _ _ _ => c

def recolor (c : Color) : CTree α → CTree α
  | nil => nil
  | node _ l a r => node c l a r

/-- No red node has a red child, and every path down to a leaf has `n` black nodes. -/
def Valid : CTree α → ℕ → Prop
  | nil, n => n = 0
  | node .red l _ r, n => (l.rootColor = .black ∧ r.rootColor = .black) ∧ l.Valid n ∧ r.Valid n
  | node .black l _ r, n => ∃ m, n = m + 1 ∧ l.Valid m ∧ r.Valid m

/-- A red-black tree. -/
def RedBlack (t : CTree α) : Prop := t.rootColor = .black ∧ ∃ n, t.Valid n

section

variable {d : Side} {c : Color} {t u : CTree α} {a x : α} {n : ℕ}

@[simp] theorem root_join : (join d c t a u).root = some a := by
  cases d <;> rfl

@[simp] theorem rootColor_join : (join d c t a u).rootColor = c := by
  cases d <;> rfl

@[simp] theorem recolor_join (c' : Color) : (join d c t a u).recolor c' = join d c' t a u := by
  cases d <;> rfl

theorem join_other : join d.other c t a u = join d c u a t := by
  cases d <;> rfl

theorem root_eq_none : t.root = none ↔ t = nil := by
  cases t with
  | nil => exact iff_of_true rfl rfl
  | node => exact iff_of_false (by rintro ⟨⟩) (by rintro ⟨⟩)

theorem toList_eq_nil : t.toList = [] ↔ t = nil := by
  cases t with
  | nil => exact iff_of_true rfl rfl
  | node => exact iff_of_false (by simp [toList]) (by rintro ⟨⟩)

/-- A tree with a root is a node, seen from either side. -/
theorem exists_join (h : t.root = some a) (d : Side) : ∃ c v w, t = join d c v a w := by
  cases t with
  | nil => cases h
  | node c l b r =>
    obtain rfl := Option.some.inj h
    cases d with
    | left => exact ⟨c, l, r, rfl⟩
    | right => exact ⟨c, r, l, rfl⟩

theorem mem_join : x ∈ (join d c t a u).toList ↔ x = a ∨ x ∈ t.toList ∨ x ∈ u.toList := by
  cases d <;> simp only [join, toList, List.mem_append, List.mem_cons] <;> tauto

theorem perm_join : (join d c t a u).toList.Perm (a :: (t.toList ++ u.toList)) := by
  cases d with
  | left => exact List.perm_middle
  | right => exact List.perm_middle.trans (List.perm_append_comm.cons a)

theorem mem_toList_root (h : t.root = some x) : x ∈ t.toList := by
  obtain ⟨c, v, w, rfl⟩ := exists_join h .left
  exact mem_join.mpr (.inl rfl)

theorem toList_recolor (c : Color) (t : CTree α) : (t.recolor c).toList = t.toList := by
  cases t <;> rfl

theorem toList_join_color (c' : Color) : (join d c t a u).toList = (join d c' t a u).toList := by
  cases d <;> rfl

/-- A rotation keeps the order. -/
theorem toList_rotate {c' : Color} {b : α} {m r : CTree α} :
    (join d c' (join d c t a m) b r).toList = (join d c t a (join d c' m b r)).toList := by
  cases d <;> simp only [join, toList, List.append_assoc, List.cons_append]

theorem valid_join_red : (join d .red t a u).Valid n ↔
    (t.rootColor = .black ∧ u.rootColor = .black) ∧ t.Valid n ∧ u.Valid n := by
  cases d with
  | left => exact .rfl
  | right =>
    show _ ∧ _ ∧ _ ↔ _
    rw [and_comm (a := u.Valid n), and_comm (a := u.rootColor = .black)]

theorem valid_join_black : (join d .black t a u).Valid n ↔ ∃ m, n = m + 1 ∧ t.Valid m ∧ u.Valid m := by
  cases d with
  | left => exact .rfl
  | right => exact exists_congr fun m => and_congr_right fun _ => and_comm

theorem Valid.blacken (h : t.Valid n) (hred : t.rootColor = .red) : (t.recolor .black).Valid (n + 1) := by
  cases t with
  | nil => cases hred
  | node c l a r =>
    obtain rfl : c = .red := hred
    exact ⟨n, rfl, h.2⟩

/-- With a black root the red root of a valid tree is no matter. -/
theorem Valid.redBlack (h : t.Valid n) : (t.recolor .black).RedBlack := by
  cases hc : t.rootColor with
  | red =>
    refine ⟨?_, n + 1, h.blacken hc⟩
    cases t <;> rfl
  | black =>
    have hsame : t.recolor .black = t := by
      cases t with
      | nil => rfl
      | node c l a r =>
        obtain rfl : c = .black := hc
        rfl
    rw [hsame]
    exact ⟨hc, n, h⟩

/-- A tree with a black height is not empty. -/
theorem Valid.exists_root (h : t.Valid (n + 1)) : ∃ a, t.root = some a := by
  cases t with
  | nil => cases h
  | node c l a r => exact ⟨a, rfl⟩

end

end CTree

open CTree

/-! ## Contexts -/

/-- The tree with `t` in the hole. -/
def plug : List (Crumb α) → CTree α → CTree α
  | [], t => t
  | f :: k, t => plug k (join f.side f.color t f.node f.sibling)

/-- The parent of the hole. -/
def top (k : List (Crumb α)) : Option α := k.head?.map Crumb.node

/-- The nodes outside the hole, in no particular order. -/
def ctxNodes : List (Crumb α) → List α
  | [] => []
  | f :: k => f.node :: (f.sibling.toList ++ ctxNodes k)

/-- The nodes before the hole. -/
def before : List (Crumb α) → List α
  | [] => []
  | f :: k => before k ++ match f.side with
    | .left => []
    | .right => f.sibling.toList ++ [f.node]

/-- The nodes behind the hole. -/
def after : List (Crumb α) → List α
  | [] => []
  | f :: k => (match f.side with
    | .left => f.node :: f.sibling.toList
    | .right => []) ++ after k

/-- The parent of the hole is black. -/
def BlackTop : List (Crumb α) → Prop
  | [] => False
  | f :: _ => f.color = .black

/-- The context makes a valid tree with a black root of a valid tree of black height `n`, if the root of that
is black or the parent of the hole. -/
def Accepts : List (Crumb α) → ℕ → Prop
  | [], _ => True
  | f :: k, n => f.sibling.Valid n ∧ match f.color with
    | .red => f.sibling.rootColor = .black ∧ BlackTop k ∧ Accepts k n
    | .black => Accepts k (n + 1)

section

variable {k k' : List (Crumb α)} {t u : CTree α} {a x : α} {d : Side} {c : Color} {n : ℕ}

theorem plug_append (k k' : List (Crumb α)) (t : CTree α) :
    plug (k ++ k') t = plug k' (plug k t) := by
  induction k generalizing t with
  | nil => rfl
  | cons f k ih => exact ih _

theorem toList_plug (k : List (Crumb α)) (t : CTree α) :
    (plug k t).toList = before k ++ t.toList ++ after k := by
  induction k generalizing t with
  | nil => simp [plug, before, after]
  | cons f k ih =>
    unfold plug before after
    rw [ih]
    cases f.side <;> simp [join, toList]

theorem perm_plug (k : List (Crumb α)) (t : CTree α) :
    (plug k t).toList.Perm (t.toList ++ ctxNodes k) := by
  induction k generalizing t with
  | nil =>
    unfold plug ctxNodes
    rw [List.append_nil]
  | cons f k ih =>
    unfold plug ctxNodes
    refine (ih _).trans ((perm_join.append_right _).trans ?_)
    rw [List.cons_append, List.append_assoc]
    exact List.perm_middle.symm

theorem before_append (k k' : List (Crumb α)) : before (k ++ k') = before k' ++ before k := by
  induction k with
  | nil => exact (List.append_nil _).symm
  | cons f k ih =>
    show before (k ++ k') ++ _ = before k' ++ (before k ++ _)
    rw [ih, List.append_assoc]

theorem toList_plug_congr (h : t.toList = u.toList) : (plug k t).toList = (plug k u).toList := by
  rw [toList_plug, toList_plug, h]

theorem length_plug (k : List (Crumb α)) (t : CTree α) : k.length ≤ (plug k t).toList.length := by
  rw [(perm_plug k t).length_eq, List.length_append]
  have hnodes : k.length ≤ (ctxNodes k).length := by
    induction k with
    | nil => exact Nat.zero_le _
    | cons f k ih =>
      unfold ctxNodes
      rw [List.length_cons, List.length_cons, List.length_append]
      omega
  omega

/-- The root of a tree lies outside a hole below it. -/
theorem exists_root_plug (f : Crumb α) (k : List (Crumb α)) (t : CTree α) :
    ∃ x, (plug (f :: k) t).root = some x ∧ x ∈ ctxNodes (f :: k) := by
  induction k generalizing f t with
  | nil => exact ⟨f.node, root_join, List.mem_cons_self⟩
  | cons g k ih =>
    obtain ⟨x, hx, hmem⟩ := ih g (join f.side f.color t f.node f.sibling)
    exact ⟨x, hx, List.mem_cons_of_mem _ (List.mem_append_right _ hmem)⟩

/-- Every node of a tree is the root of a subtree. -/
theorem exists_plug (h : a ∈ t.toList) : ∃ k c l r, t = plug k (node c l a r) := by
  induction t with
  | nil => cases h
  | node c l b r ihl ihr =>
    rcases List.mem_append.mp h with hl | hr
    · obtain ⟨k, c', l', r', rfl⟩ := ihl hl
      exact ⟨k ++ [⟨.left, c, b, r⟩], c', l', r', by rw [plug_append]; rfl⟩
    · rcases List.mem_cons.mp hr with rfl | hr
      · exact ⟨[], c, l, r, rfl⟩
      · obtain ⟨k, c', l', r', rfl⟩ := ihr hr
        exact ⟨k ++ [⟨.right, c, b, l⟩], c', l', r', by rw [plug_append]; rfl⟩

/-- A context that accepts a tree makes a valid tree of it. -/
theorem Accepts.redBlack (h : Accepts k n) (ht : t.Valid n) (hc : t.rootColor = .black ∨ BlackTop k) :
    (plug k t).RedBlack := by
  induction k generalizing t n with
  | nil => exact ⟨hc.resolve_right id, n, ht⟩
  | cons f k ih =>
    obtain ⟨hsib, hrest⟩ := h
    unfold plug
    cases hf : f.color with
    | red =>
      rw [hf] at hrest
      obtain ⟨hsc, htop, hctx⟩ := hrest
      have htc : t.rootColor = .black := hc.resolve_right fun hb => by
        rw [BlackTop, hf] at hb
        cases hb
      exact ih hctx (valid_join_red.mpr ⟨⟨htc, hsc⟩, ht, hsib⟩) (.inr htop)
    | black =>
      rw [hf] at hrest
      exact ih hrest (valid_join_black.mpr ⟨n, rfl, ht, hsib⟩) (.inl rootColor_join)

/-- Every subtree of a red-black tree is valid, and the context accepts its like. -/
theorem accepts_of_redBlack (h : (plug k t).RedBlack) :
    ∃ n, t.Valid n ∧ Accepts k n ∧ (t.rootColor = .black ∨ BlackTop k) := by
  induction k generalizing t with
  | nil =>
    obtain ⟨hc, n, ht⟩ := h
    exact ⟨n, ht, trivial, .inl hc⟩
  | cons f k ih =>
    obtain ⟨n, hmk, hctx, hc⟩ := ih h
    rw [rootColor_join] at hc
    cases hf : f.color with
    | red =>
      rw [hf] at hmk hc
      obtain ⟨⟨htc, hsc⟩, ht, hsib⟩ := valid_join_red.mp hmk
      have htop := hc.resolve_left (by rintro ⟨⟩)
      refine ⟨n, ht, ⟨hsib, ?_⟩, .inl htc⟩
      rw [hf]
      exact ⟨hsc, htop, hctx⟩
    | black =>
      rw [hf] at hmk
      obtain ⟨m, rfl, ht, hsib⟩ := valid_join_black.mp hmk
      refine ⟨m, ht, ⟨hsib, ?_⟩, .inr hf⟩
      rw [hf]
      exact hctx

theorem CTree.RedBlack.relabel {l r : CTree α} {b : α} (h : (plug k (node c l a r)).RedBlack) :
    (plug k (node c l b r)).RedBlack := by
  obtain ⟨n, hv, hacc, hc⟩ := accepts_of_redBlack h
  refine hacc.redBlack ?_ hc
  cases c <;> exact hv

theorem erase_toList_plug [DecidableEq α] {l r : CTree α} (h : (plug k (node c l a r)).toList.Nodup) :
    (plug k (node c l a r)).toList.erase a = before k ++ (l.toList ++ r.toList) ++ after k := by
  have hsplit : (plug k (node c l a r)).toList =
      (before k ++ l.toList) ++ a :: (r.toList ++ after k) := by
    rw [toList_plug]
    simp [toList]
  rw [hsplit] at h ⊢
  have hb : a ∉ before k ++ l.toList := fun ha =>
    (List.nodup_append.mp h).2.2 a ha a List.mem_cons_self rfl
  rw [List.erase_append_right _ hb, List.erase_cons_head]
  simp

end

end RbTree
