import Kenux.Lib.RbTree.Order
import Kenux.Lib.Run
import Mathlib.Data.UInt

/-!
# The CFS run queue (`arch/x86_64/cfs.c`)

A pointer to an `rb_node_t` is an `Option`, where `none` is `&sentinel`, the nil node of every tree; the
sentinel is a node like the others, and the code reads and writes it. `color` 1 is red; a branch of the source
and its mirror image are one branch over a `Side`. The null links of a task that is on no queue are left out,
as `rbtree_insert` sets all of them.
-/

namespace Cfs

open RbTree

/-- The nodes, and the tree of one timeline. -/
structure Timeline (α : Type*) where
  node : Option α → Node α
  root : Option α

variable {α : Type*}

def Timeline.child (s : Timeline α) (x : Option α) (d : Side) : Option α := (s.node x).child d

def Timeline.parent (s : Timeline α) (x : Option α) : Option α := (s.node x).parent

def Timeline.color (s : Timeline α) (x : Option α) : Color := (s.node x).color

def Timeline.setRoot (s : Timeline α) (y : Option α) : Timeline α := { s with root := y }

variable [DecidableEq α]

def Timeline.mod (s : Timeline α) (x : Option α) (f : Node α → Node α) : Timeline α :=
  { s with node := Function.update s.node x (f (s.node x)) }

def Timeline.setChild (s : Timeline α) (x : Option α) (d : Side) (y : Option α) : Timeline α :=
  s.mod x fun n => n.setChild d y

def Timeline.setParent (s : Timeline α) (x y : Option α) : Timeline α := s.mod x fun n => { n with parent := y }

def Timeline.setColor (s : Timeline α) (x : Option α) (c : Color) : Timeline α := s.mod x fun n => { n with color := c }

/-- The link from the parent of `u` to `u` is made to `v`; the child on side `d` is compared. -/
def Timeline.relink (s : Timeline α) (d : Side) (u v : Option α) : Timeline α :=
  if s.parent u = none then s.setRoot v
  else if u = s.child (s.parent u) d then s.setChild (s.parent u) d v
  else s.setChild (s.parent u) d.other v

/-- `__rotate_left` for `.left`, `__rotate_right` for `.right`. -/
def rotate (d : Side) (x : Option α) (s : Timeline α) : Timeline α :=
  let y := s.child x d.other
  let s := s.setChild x d.other (s.child y d)
  let s := if s.child y d ≠ none then s.setParent (s.child y d) x else s
  let s := s.setParent y (s.parent x)
  let s := s.relink d x y
  let s := s.setChild y d x
  s.setParent x y

/-! ## `rbtree_insert` -/

/-- `z` is rotated out, if it is the inner grandchild. -/
def insertTurn (d : Side) (z : Option α) (s : Timeline α) : Option α × Timeline α :=
  if z = s.child (s.parent z) d.other then (s.parent z, rotate d (s.parent z) s)
  else (z, s)

/-- One round of the loop of `__insert_fixup`. -/
def insertRound (z : Option α) (s : Timeline α) : Option α × Timeline α :=
  let d := if s.parent z = s.child (s.parent (s.parent z)) .left then Side.left else .right
  let y := s.child (s.parent (s.parent z)) d.other
  if s.color y = .red then
    let s := s.setColor (s.parent z) .black
    let s := s.setColor y .black
    let s := s.setColor (s.parent (s.parent z)) .red
    (s.parent (s.parent z), s)
  else
    let (z, s) := insertTurn d z s
    let s := s.setColor (s.parent z) .black
    let s := s.setColor (s.parent (s.parent z)) .red
    (z, rotate d.other (s.parent (s.parent z)) s)

def insertLoop : ℕ → Option α → Timeline α → Option (Timeline α)
  | 0, _, _ => none
  | fuel + 1, z, s =>
    if s.color (s.parent z) = .red then
      let (z, s) := insertRound z s
      insertLoop fuel z s
    else some s

def insertFixup (fuel : ℕ) (z : Option α) (s : Timeline α) : Option (Timeline α) := do
  let s ← insertLoop fuel z s
  pure (s.setColor s.root .black)

/-- The walk of `rbtree_insert` from `x` with `y` above it; the node it ends below. -/
def walk (key : α → UInt64) (node : α) (s : Timeline α) : ℕ → Option α → Option α → Option (Option α)
  | 0, _, _ => none
  | _ + 1, y, none => some y
  | fuel + 1, _, some x =>
    walk key node s fuel (some x) (if key node < key x then s.child (some x) .left else s.child (some x) .right)

/-- The new node below `y`, where the walk ended. -/
def attach (key : α → UInt64) (node : α) (y : Option α) (s : Timeline α) : Timeline α :=
  let s := s.setParent (some node) y
  match y with
  | none => s.setRoot (some node)
  | some y =>
    if key node < key y then s.setChild (some y) .left (some node)
    else s.setChild (some y) .right (some node)

/-- `key` is `__node_key`, the vruntime of the task of the node. -/
def rbtreeInsert (fuel : ℕ) (key : α → UInt64) (node : α) (s : Timeline α) : Option (Timeline α) := do
  let s := s.setChild (some node) .right none
  let s := s.setChild (some node) .left none
  let s := s.setColor (some node) .red
  let y ← walk key node s fuel none s.root
  insertFixup fuel (some node) (attach key node y s)

/-! ## `rbtree_delete` -/

/-- `__transplant` -/
def transplant (u v : Option α) (s : Timeline α) : Timeline α :=
  let s := s.relink .left u v
  s.setParent v (s.parent u)

/-- A red sibling is rotated above the parent. -/
def deleteTurnSibling (d : Side) (x w : Option α) (s : Timeline α) : Option α × Timeline α :=
  if s.color w = .red then
    let s := s.setColor w .black
    let s := s.setColor (s.parent x) .red
    let s := rotate d (s.parent x) s
    (s.child (s.parent x) d.other, s)
  else (w, s)

/-- A red child of the sibling on the near side is rotated above it, if the other one is black. -/
def deleteTurnNephew (d : Side) (x w : Option α) (s : Timeline α) : Option α × Timeline α :=
  if s.color (s.child w d.other) = .black then
    let s := s.setColor (s.child w d) .black
    let s := s.setColor w .red
    let s := rotate d.other w s
    (s.child (s.parent x) d.other, s)
  else (w, s)

/-- The last rotation. -/
def deleteTurnParent (d : Side) (x w : Option α) (s : Timeline α) : Timeline α :=
  let s := s.setColor w (s.color (s.parent x))
  let s := s.setColor (s.parent x) .black
  let s := s.setColor (s.child w d.other) .black
  rotate d (s.parent x) s

/-- One round of the loop of `__delete_fixup`. -/
def deleteRound (x : Option α) (s : Timeline α) : Option α × Timeline α :=
  let d := if x = s.child (s.parent x) .left then Side.left else .right
  let w := s.child (s.parent x) d.other
  let (w, s) := deleteTurnSibling d x w s
  if s.color (s.child w d) = .black ∧ s.color (s.child w d.other) = .black then
    let s := s.setColor w .red
    (s.parent x, s)
  else
    let (w, s) := deleteTurnNephew d x w s
    let s := deleteTurnParent d x w s
    (s.root, s)

/-- `__delete_fixup` -/
def deleteFixup : ℕ → Option α → Timeline α → Option (Timeline α)
  | 0, _, _ => none
  | fuel + 1, x, s =>
    if x ≠ s.root ∧ s.color x = .black then
      let (x, s) := deleteRound x s
      deleteFixup fuel x s
    else some (s.setColor x .black)

omit [DecidableEq α] in
/-- `__tree_min` -/
def treeMin (s : Timeline α) : ℕ → Option α → Option (Option α)
  | 0, _ => none
  | fuel + 1, x => if s.child x .left ≠ none then treeMin s fuel (s.child x .left) else some x

/-- `y` leaves its place for that of `z`, and `x` gets the old one. -/
def replace (z y x : Option α) (s : Timeline α) : Timeline α :=
  let s :=
    if s.parent y = z then s.setParent x y
    else
      let s := transplant y (s.child y .right) s
      let s := s.setChild y .right (s.child z .right)
      s.setParent (s.child y .right) y
  let s := transplant z y s
  let s := s.setChild y .left (s.child z .left)
  let s := s.setParent (s.child y .left) y
  s.setColor y (s.color z)

def rbtreeDelete (fuel : ℕ) (z : Option α) (s : Timeline α) : Option (Timeline α) :=
  if s.child z .left = none then
    let yOriginalColor := s.color z
    let x := s.child z .right
    let s := transplant z (s.child z .right) s
    if yOriginalColor = .black then deleteFixup fuel x s else some s
  else if s.child z .right = none then
    let yOriginalColor := s.color z
    let x := s.child z .left
    let s := transplant z (s.child z .left) s
    if yOriginalColor = .black then deleteFixup fuel x s else some s
  else do
    let y ← treeMin s fuel (s.child z .right)
    let yOriginalColor := s.color y
    let x := s.child y .right
    let s := replace z y x s
    if yOriginalColor = .black then deleteFixup fuel x s else some s

omit [DecidableEq α] in
/-- `rbtree_min`: a null pointer for the empty tree. -/
def rbtreeMin (fuel : ℕ) (s : Timeline α) : Option (Option α) :=
  if s.root = none then some none else treeMin s fuel s.root

/-! ## Several timelines -/

/-- The static sentinel, all nodes, the trees, and the vruntimes of the tasks. -/
structure Timelines (ι α : Type*) where
  rbtreeInitialized : Bool
  node : Option α → Node α
  root : ι → Option α
  vruntime : α → UInt64

variable {ι : Type*}

/-- The sentinel after the first call of `rbtree_init`. -/
def initSentinel (initialized : Bool) (node : Option α → Node α) : Option α → Node α :=
  if initialized then node else Function.update node none ⟨fun _ => none, none, .black⟩

omit [DecidableEq α] in
/-- The memory that a function works on for the tree `i`. -/
def Timelines.tree (s : Timelines ι α) (i : ι) : Timeline α := ⟨s.node, s.root i⟩

variable [DecidableEq ι]

omit [DecidableEq α] in
def Timelines.setTree (s : Timelines ι α) (i : ι) (t : Timeline α) : Timelines ι α :=
  { s with node := t.node, root := Function.update s.root i t.root }

def rbtreeInit (s : Timelines ι α) (i : ι) : Timelines ι α :=
  { s with
    rbtreeInitialized := true
    node := initSentinel s.rbtreeInitialized s.node
    root := Function.update s.root i none }

inductive Op (ι α : Type*) where
  | init (i : ι)
  | insert (i : ι) (node : α)
  | delete (i : ι) (node : α)
  | setVruntime (node : α) (vruntime : UInt64)

def step (fuel : ℕ) (s : Timelines ι α) : Op ι α → Option (Timelines ι α)
  | .init i => some (rbtreeInit s i)
  | .insert i node => (rbtreeInsert fuel s.vruntime node (s.tree i)).map (s.setTree i)
  | .delete i node => (rbtreeDelete fuel (some node) (s.tree i)).map (s.setTree i)
  | .setVruntime node v => some { s with vruntime := Function.update s.vruntime node v }

end Cfs

/-!
## What the timelines are for

A timeline is the set of the tasks that were inserted and not deleted again; its tree is a red-black tree that
has them in the order of their vruntimes.
-/

namespace Cfs

open RbTree

variable {ι α : Type*}

/-- The nodes apart from the sentinel. -/
def heap (s : Timeline α) : Heap α := ⟨fun a => s.node (some a), s.root⟩

/-- The tasks of each timeline; `none` for one that `rbtree_init` has not set up. -/
abbrev Members (ι α : Type*) := ι → Option (Finset α)

/-- The task is in no timeline. -/
def Members.Off (m : Members ι α) (a : α) : Prop := ∀ i S, m i = some S → a ∉ S

/-- Tasks are put into a timeline that is set up while they are in none, are taken out of the one they are in,
and change their vruntime only outside. -/
def Members.Legal (m : Members ι α) : Op ι α → Prop
  | .init _ => True
  | .insert i a => m i ≠ none ∧ m.Off a
  | .delete i a => ∃ S, m i = some S ∧ a ∈ S
  | .setVruntime a _ => m.Off a

def Members.after [DecidableEq ι] [DecidableEq α] (m : Members ι α) : Op ι α → Members ι α
  | .init i => Function.update m i (some ∅)
  | .insert i a => Function.update m i ((m i).map (insert a))
  | .delete i a => Function.update m i ((m i).map fun S => S.erase a)
  | .setVruntime _ _ => m

/-- The tree is a red-black tree of the tasks of `S`, in the order of the vruntimes. -/
structure IsTimeline (key : α → UInt64) (s : Timeline α) (S : Finset α) (T : CTree α) : Prop where
  represents : Represents (heap s) T
  redBlack : T.RedBlack
  sorted : T.Sorted fun a b => key a ≤ key b
  mem : ∀ a, a ∈ T.toList ↔ a ∈ S

/-- `rbtree_min` returns a task of minimum vruntime, if there is one. -/
def MinCorrect (key : α → UInt64) (s : Timeline α) (S : Finset α) (fuel : ℕ) : Prop :=
  match rbtreeMin fuel s with
  | none => False
  | some none => S = ∅
  | some (some a) => a ∈ S ∧ ∀ b ∈ S, key a ≤ key b

/-- The timelines that are set up have their tasks, and their sentinel is black. -/
structure Correct (s : Timelines ι α) (m : Members ι α) (fuel : ℕ) : Prop where
  black : (∃ i, m i ≠ none) → (s.node none).color = .black
  tree : ∀ i S, m i = some S → ∃ T, IsTimeline s.vruntime (s.tree i) S T
  min : ∀ i S, m i = some S → MinCorrect s.vruntime (s.tree i) S fuel

end Cfs
