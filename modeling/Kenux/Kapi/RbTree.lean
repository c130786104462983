import Kenux.Lib.RbTree.Order
import Kenux.Lib.Run
import Mathlib.Algebra.Ring.Int.Defs

/-!
# The red-black tree of the kernel API (`api/kapi_rbtree.c`)

`kapi_rb_node_t` is a node of `RbTree.Heap`, `kapi_rb_root_t` its root, and the comparison is a parameter.
A branch of the source and its mirror image are one branch over a `Side`. Each loop has fuel; a step is
`none` when it dereferences a null pointer or runs out of fuel.
-/

namespace Kapi

open RbTree

variable {α : Type*} [DecidableEq α]

/-- `__kapi_rb_rotate_left` for `.left`, `__kapi_rb_rotate_right` for `.right`. -/
def kapiRbRotate (d : Side) (node : α) (s : Heap α) : Option (Heap α) := do
  let right ← (s.node node).child d.other
  let parent := (s.node node).parent
  let inner := (s.node right).child d
  let s := s.setChild node d.other inner
  let s := s.setParentOf inner (some node)
  let s := s.setChild right d (some node)
  let s := s.setParent right parent
  let s := s.relink d parent (some node) (some right)
  pure (s.setParent node (some right))

/-! ## `kapi_rb_insert` -/

variable (cmp : α → α → ℤ)

/-- The pointer that the walk from the root ends at, `none` for the root itself. -/
def findLink (s : Heap α) (node : α) (fuel : ℕ) : Option (Option (α × Side)) :=
  (descend (fun parent => if cmp node parent < 0 then .left else .right) s fuel s.root []).map List.head?

/-- The new node at the end of the walk. -/
def attach (s : Heap α) (node : α) (link : Option (α × Side)) : Heap α :=
  let s := s.setChild node .left none
  let s := s.setChild node .right none
  let s := s.setParent node (link.map Prod.fst)
  let s := s.setColor node .red
  match link with
  | some (parent, d) => s.setChild parent d (some node)
  | none => s.setRoot (some node)

def insertFix : ℕ → α → Option α → Heap α → Option (Heap α)
  | 0, _, _, _ => none
  | _ + 1, _, none, s => some s
  | fuel + 1, node, some parent, s =>
    if (s.node parent).color = .red then do
      let (node, parent, s) ← insertRound kapiRbRotate node parent s
      insertFix fuel node parent s
    else some s

def kapiRbInsert (fuel : ℕ) (node : α) (s : Heap α) : Option (Heap α) := do
  let link ← findLink cmp s node fuel
  let s := attach s node link
  let s ← insertFix fuel node (link.map Prod.fst) s
  let root ← s.root
  pure (s.setColor root .black)

/-! ## `kapi_rb_erase` -/

/-- The node gives its place to its only child. -/
def unlink (node : α) (child : Option α) (s : Heap α) : Heap α :=
  let parent := (s.node node).parent
  let s := s.setParentOf child parent
  s.relink .left parent (some node) child

/-- `node` gets the fields of `old`. -/
def copyFields (old node : α) (s : Heap α) : Heap α :=
  let s := s.setParent node (s.node old).parent
  let s := s.setColor node (s.node old).color
  let s := s.setChild node .right ((s.node old).child .right)
  s.setChild node .left ((s.node old).child .left)

/-- `node` takes the place of `old`. -/
def replace (old node : α) (s : Heap α) : Option (Heap α) := do
  let s := copyFields old node s
  let s := s.relink .left (s.node old).parent (some old) (some node)
  let left ← (s.node old).child .left
  let s := s.setParent left (some node)
  pure (s.setParentOf ((s.node old).child .right) (some node))

/-- The loop of the removal; the node that it ends at. -/
def eraseFix : ℕ → Option α → Option α → Heap α → Option (Option α × Heap α)
  | 0, _, _, _ => none
  | fuel + 1, child, parent, s =>
    if child ≠ s.root ∧ s.colorOf child = .black then do
      let parent ← parent
      let d := if child = (s.node parent).child .left then .left else .right
      let (done, s) ← deleteRound kapiRbRotate (fun _ => some parent) d s
      if done then pure (s.root, s)
      else eraseFix fuel (some parent) (s.node parent).parent s
    else some (child, s)

/-- From the label `color` on. -/
def rebalance (fuel : ℕ) (color : Color) (child parent : Option α) (s : Heap α) : Option (Heap α) :=
  match color with
  | .red => some s
  | .black => do
    let (child, s) ← eraseFix fuel child parent s
    match child with
    | some child => pure (s.setColor child .black)
    | none => pure s

def kapiRbErase (fuel : ℕ) (node : α) (s : Heap α) : Option (Heap α) :=
  match (s.node node).child .left, (s.node node).child .right with
  | none, child =>
    rebalance fuel (s.node node).color child (s.node node).parent (unlink node child s)
  | some left, none =>
    rebalance fuel (s.node node).color (some left) (s.node node).parent (unlink node (some left) s)
  | some _, some right => do
    let old := node
    let node ← leftmost s fuel right
    let child := (s.node node).child .right
    let parent := (s.node node).parent
    let color := (s.node node).color
    let s := unlink node child s
    let s ← replace old node s
    rebalance fuel color child (if parent = some old then some node else parent) s

/-! ## `kapi_rb_first` and `kapi_rb_next` -/

def kapiRbFirst (fuel : ℕ) (s : Heap α) : Option (Option α) :=
  match s.root with
  | none => some none
  | some node => (leftmost s fuel node).map some

/-- Up from `node` until it is no right child. -/
def climb (s : Heap α) : ℕ → α → Option α → Option (Option α)
  | 0, _, _ => none
  | _ + 1, _, none => some none
  | fuel + 1, node, some next =>
    if (s.node next).child .right = some node then climb s fuel next (s.node next).parent
    else some (some next)

def kapiRbNext (fuel : ℕ) (s : Heap α) (node : α) : Option (Option α) :=
  match (s.node node).child .right with
  | some right => (leftmost s fuel right).map some
  | none => climb s fuel node (s.node node).parent

/-- The nodes from `cur` on, by `kapi_rb_next`. -/
def visit (fuel : ℕ) (s : Heap α) : ℕ → Option α → Option (List α)
  | _, none => some []
  | 0, some _ => none
  | n + 1, some node => do
    let next ← kapiRbNext fuel s node
    let rest ← visit fuel s n next
    pure (node :: rest)

/-- The nodes that a loop over `kapi_rb_first` and `kapi_rb_next` visits. -/
def iterate (fuel : ℕ) (s : Heap α) : Option (List α) := do
  let first ← kapiRbFirst fuel s
  visit fuel s fuel first

/-! ## Runs -/

inductive Op (α : Type*) where
  | insert (node : α)
  | erase (node : α)

def step (fuel : ℕ) (s : Heap α) : Op α → Option (Heap α)
  | .insert node => kapiRbInsert cmp fuel node s
  | .erase node => kapiRbErase fuel node s

/-- The root is null; the fields of nodes that are in no tree may be anything. -/
def empty (node : α → Node α) : Heap α := ⟨node, none⟩

/-- The nodes inserted and not erased since. -/
def contents (held : List α) : List (Op α) → List α
  | [] => held
  | .insert node :: ops => contents (node :: held) ops
  | .erase node :: ops => contents (held.erase node) ops

/-- A node is inserted when it is not in the tree, and erased when it is. -/
def WellUsed (held : List α) : List (Op α) → Prop
  | [] => True
  | .insert node :: ops => node ∉ held ∧ WellUsed (node :: held) ops
  | .erase node :: ops => node ∈ held ∧ WellUsed (held.erase node) ops

/-- The comparison is that of a total preorder. -/
structure TotalPreorder (cmp : α → α → ℤ) : Prop where
  flip : ∀ a b, cmp a b < 0 ↔ 0 < cmp b a
  trans : ∀ a b c, cmp a b ≤ 0 → cmp b c ≤ 0 → cmp a c ≤ 0

end Kapi
