import Kenux.Lib.RbTree.Order
import Kenux.Lib.Run
import Mathlib.Algebra.BigOperators.Group.Finset.Defs
import Mathlib.Data.UInt

/-!
# The EEVDF run queue (`sched/src/eevdf.c`)

One run queue and the tasks that are put on it. The links of the tasks and `rb_root` are a `RbTree.Heap`,
where `rb_color` 1 is red; a branch of the source and its mirror image are one branch over a `Side`. Each
loop has fuel; a step is `none` when it dereferences a null pointer, divides by zero or runs out of fuel.
-/

namespace Eevdf

open RbTree

/-- `eevdf_entity_t`. -/
structure Entity where
  vruntime : UInt64
  deadline : UInt64
  slice : UInt64
  weight : UInt64
  nice : ℤ
  prio : ℤ
  totalRuntime : UInt64

/-- `eevdf_rq_t` and the tasks: which are on the queue, their entities and their links. -/
structure Rq (α : Type*) where
  entity : α → Entity
  onRq : α → Bool
  tree : Heap α
  leftmost : Option α
  minVruntime : UInt64
  totalWeight : UInt64
  nrRunning : UInt32
  clock : UInt64

/-- `EEVDF_WEIGHT_0`. -/
def weight0 : UInt64 := 1024

/-- `EEVDF_MIN_GRANULARITY`. -/
def minGranularity : UInt64 := 750000

/-- `EEVDF_BASE_SLICE`. -/
def baseSlice : UInt64 := 3000000

def prioToWeight : List UInt64 := [
  88, 110, 138, 172, 215, 269, 336, 421, 526, 658,
  823, 1024, 1277, 1597, 1996, 2494, 3117, 3893, 4863, 6074,
  7585, 9476, 11832, 14781, 18454, 23042, 28773, 35920, 44873, 56061,
  70032, 87456, 109196, 136365, 170299, 212636, 265600, 331600, 414000, 517000]

def eevdfCalcWeight (nice : ℤ) : UInt64 :=
  let idx := nice + 20
  let idx := if idx < 0 then 0 else idx
  let idx := if idx > 39 then 39 else idx
  prioToWeight.getD idx.toNat 0

def eevdfCalcSlice (weight totalWeight : UInt64) : UInt64 :=
  if totalWeight = 0 then baseSlice
  else
    let slice := (baseSlice * weight) / totalWeight
    if slice < minGranularity then minGranularity else slice

def eevdfCalcDeadline (vruntime slice : UInt64) : UInt64 := vruntime + slice

def eevdfEntityInit (nice : ℤ) : Entity where
  vruntime := 0
  deadline := baseSlice
  slice := baseSlice
  weight := eevdfCalcWeight nice
  nice := nice
  prio := nice + 20
  totalRuntime := 0

variable {α : Type*} [DecidableEq α]

/-! ## The tree -/

/-- `eevdf_rb_rotate_left` for `.left`, `eevdf_rb_rotate_right` for `.right`. -/
def eevdfRbRotate (d : Side) (node : α) (s : Heap α) : Option (Heap α) := do
  let right ← (s.node node).child d.other
  let inner := (s.node right).child d
  let s := s.setChild node d.other inner
  let s := s.setParentOf inner (some node)
  let s := s.setParent right (s.node node).parent
  let s := s.relink d (s.node node).parent (some node) (some right)
  let s := s.setChild right d (some node)
  pure (s.setParent node (some right))

/-- The loop of `eevdf_rb_insert_fixup`. -/
def insertFix : ℕ → α → Heap α → Option (Heap α)
  | 0, _, _ => none
  | fuel + 1, node, s =>
    match (s.node node).parent with
    | none => some s
    | some parent =>
      if (s.node parent).color = .red then do
        let (node, _, s) ← insertRound eevdfRbRotate node parent s
        insertFix fuel node s
      else some s

def eevdfRbInsertFixup (fuel : ℕ) (node : α) (s : Heap α) : Option (Heap α) := do
  let s ← insertFix fuel node s
  let root ← s.root
  pure (s.setColor root .black)

/-- The side of `parent` that the new task goes to. -/
def side (task parent : Entity) : Side :=
  if task.deadline < parent.deadline then .left
  else if task.deadline > parent.deadline then .right
  else if task.vruntime < parent.vruntime then .left
  else .right

/-- The new task at the end of the walk. -/
def attach (s : Heap α) (task : α) (link : Option (α × Side)) : Heap α :=
  let s := s.setParent task (link.map Prod.fst)
  let s := s.setChild task .left none
  let s := s.setChild task .right none
  let s := s.setColor task .red
  match link with
  | some (parent, d) => s.setChild parent d (some task)
  | none => s.setRoot (some task)

/-- `is_leftmost || !rq->rb_leftmost || task->entity.deadline < rq->rb_leftmost->entity.deadline`. -/
def isFirst (q : Rq α) (task : α) (isLeftmost : Bool) : Bool :=
  isLeftmost || match q.leftmost with
    | none => true
    | some first => (q.entity task).deadline < (q.entity first).deadline

def eevdfRbInsert (fuel : ℕ) (q : Rq α) (task : α) : Option (Rq α) := do
  let path ← descend (fun parent => side (q.entity task) (q.entity parent)) q.tree fuel q.tree.root []
  let tree := attach q.tree task path.head?
  let leftmost := if isFirst q task (path.all fun link => link.2 = .left) then some task else q.leftmost
  let tree ← if path = [] then some tree else eevdfRbInsertFixup fuel task tree
  pure { q with tree := tree, leftmost := leftmost }

/-- The leftmost task below the root. -/
def eevdfRbUpdateLeftmost (fuel : ℕ) (q : Rq α) : Option (Rq α) :=
  match q.tree.root with
  | none => some { q with leftmost := none }
  | some root => do
    let first ← leftmost q.tree fuel root
    pure { q with leftmost := some first }

def eevdfRbTransplant (u : α) (v : Option α) (s : Heap α) : Heap α :=
  let s := s.relink .left (s.node u).parent (some u) v
  s.setParentOf v (s.node u).parent

/-- The loop of `eevdf_rb_delete_fixup`; the node that it ends at. -/
def deleteFix : ℕ → Option α → Heap α → Option (Option α × Heap α)
  | 0, _, _ => none
  | fuel + 1, node, s =>
    if node ≠ s.root ∧ s.colorOf node = .black then do
      let task ← node
      let parent ← (s.node task).parent
      let d := if (s.node parent).child .left = node then .left else .right
      let (done, s) ← deleteRound eevdfRbRotate (fun s => (s.node task).parent) d s
      if done then deleteFix fuel s.root s
      else deleteFix fuel (s.node task).parent s
    else some (node, s)

def eevdfRbDeleteFixup (fuel : ℕ) (node : α) (s : Heap α) : Option (Heap α) := do
  let (node, s) ← deleteFix fuel (some node) s
  pure (s.setColorOf node .black)

/-- The task that gives up its place, and the child that gets that place. -/
def spliced (fuel : ℕ) (s : Heap α) (task : α) : Option (α × Option α) :=
  match (s.node task).child .left, (s.node task).child .right with
  | none, x => some (task, x)
  | some left, none => some (task, some left)
  | some _, some right => do
    let y ← leftmost s fuel right
    pure (y, (s.node y).child .right)

/-- The right subtree of `task` becomes that of `y`, without `y`. -/
def detach (task y : α) (x : Option α) (s : Heap α) : Option (Heap α) :=
  if (s.node y).parent = some task then some (s.setParentOf x (some y))
  else do
    let s := eevdfRbTransplant y ((s.node y).child .right) s
    let s := s.setChild y .right ((s.node task).child .right)
    let right ← (s.node y).child .right
    pure (s.setParent right (some y))

/-- `y` takes the place of `task`. -/
def substitute (task y : α) (s : Heap α) : Option (Heap α) := do
  let s := eevdfRbTransplant task (some y) s
  let s := s.setChild y .left ((s.node task).child .left)
  let left ← (s.node y).child .left
  let s := s.setParent left (some y)
  pure (s.setColor y (s.node task).color)

/-- `task` leaves the tree, and `x` gets the place of `y`. -/
def unlink (task y : α) (x : Option α) (s : Heap α) : Option (Heap α) :=
  if y = task then some (eevdfRbTransplant task x s)
  else do
    let s ← detach task y x s
    substitute task y s

/-- `y_original_color == 0 && x` asks for the fix-up. -/
def fixup (fuel : ℕ) (yOriginalColor : Color) (x : Option α) (s : Heap α) : Option (Heap α) :=
  match x with
  | some x => if yOriginalColor = .black then eevdfRbDeleteFixup fuel x s else some s
  | none => some s

def eevdfRbDelete (fuel : ℕ) (q : Rq α) (task : α) : Option (Rq α) := do
  let (y, x) ← spliced fuel q.tree task
  let yOriginalColor := (q.tree.node y).color
  let s ← unlink task y x q.tree
  let s ← fixup fuel yOriginalColor x s
  eevdfRbUpdateLeftmost fuel { q with tree := s }

/-! ## The operations -/

def eevdfRqInit (entity : α → Entity) (node : α → Node α) : Rq α :=
  { entity, onRq := fun _ => false, tree := ⟨node, none⟩, leftmost := none, minVruntime := 0, totalWeight := 0,
    nrRunning := 0, clock := 0 }

def Rq.setEntity (q : Rq α) (task : α) (e : Entity) : Rq α :=
  { q with entity := Function.update q.entity task e }

def Rq.setOnRq (q : Rq α) (task : α) (b : Bool) : Rq α :=
  { q with onRq := Function.update q.onRq task b }

/-- The slice and the deadline of a task for a total weight. -/
def Entity.renew (e : Entity) (totalWeight : UInt64) : Entity :=
  let slice := eevdfCalcSlice e.weight totalWeight
  { e with slice := slice, deadline := eevdfCalcDeadline e.vruntime slice }

def eevdfEnqueue (fuel : ℕ) (q : Rq α) (task : α) : Option (Rq α) := do
  let q := q.setEntity task ((q.entity task).renew q.totalWeight)
  let q ← eevdfRbInsert fuel q task
  let q := q.setOnRq task true
  let q := { q with nrRunning := q.nrRunning + 1, totalWeight := q.totalWeight + (q.entity task).weight }
  if q.nrRunning = 1 ∨ (q.entity task).vruntime < q.minVruntime then
    pure { q with minVruntime := (q.entity task).vruntime }
  else pure q

def eevdfDequeue (fuel : ℕ) (q : Rq α) (task : α) : Option (Rq α) :=
  if q.onRq task then do
    let q ← eevdfRbDelete fuel q task
    let q := q.setOnRq task false
    let q := { q with nrRunning := q.nrRunning - 1, totalWeight := q.totalWeight - (q.entity task).weight }
    match q.leftmost with
    | some first => pure (if 0 < q.nrRunning then { q with minVruntime := (q.entity first).vruntime } else q)
    | none => pure q
  else some q

def eevdfPickNext (q : Rq α) : Option α := q.leftmost

/-- The entity after it ran for `delta`. -/
def Entity.ran (e : Entity) (delta : UInt64) : Entity :=
  let vruntime := e.vruntime + (delta * weight0) / e.weight
  { e with
    vruntime := vruntime
    totalRuntime := e.totalRuntime + delta
    deadline := eevdfCalcDeadline vruntime e.slice }

def eevdfUpdateCurr (q : Rq α) (task : α) (delta : UInt64) : Option (Rq α) :=
  if (q.entity task).weight = 0 then none
  else
    let q := q.setEntity task ((q.entity task).ran delta)
    some { q with clock := q.clock + delta }

def Entity.setNice (e : Entity) (nice : ℤ) : Entity :=
  { e with nice := nice, prio := nice + 20, weight := eevdfCalcWeight nice }

def eevdfSetNice (q : Rq α) (task : α) (nice : ℤ) : Rq α :=
  if nice < -20 ∨ nice > 19 then q
  else q.setEntity task ((q.entity task).setNice nice)

def eevdfReweight (fuel : ℕ) (q : Rq α) (task : α) (newNice : ℤ) : Option (Rq α) := do
  let oldWeight := (q.entity task).weight
  let e := (q.entity task).setNice newNice
  let q := { q with totalWeight := q.totalWeight - oldWeight + e.weight }
  let q := q.setEntity task (e.renew q.totalWeight)
  if q.onRq task then do
    let q ← eevdfRbDelete fuel q task
    eevdfRbInsert fuel q task
  else pure q

inductive Op (α : Type*) where
  | enqueue (task : α)
  | dequeue (task : α)
  | updateCurr (task : α) (delta : UInt64)
  | setNice (task : α) (nice : ℤ)
  | reweight (task : α) (newNice : ℤ)

def step (fuel : ℕ) (q : Rq α) : Op α → Option (Rq α)
  | .enqueue task => eevdfEnqueue fuel q task
  | .dequeue task => eevdfDequeue fuel q task
  | .updateCurr task delta => eevdfUpdateCurr q task delta
  | .setNice task nice => some (eevdfSetNice q task nice)
  | .reweight task newNice => eevdfReweight fuel q task newNice

end Eevdf

/-!
## What the run queue is for

The tree of a run queue holds the queued tasks in the order of their current deadlines and vruntimes; with
`Kept` for a step, the conditions under which the code keeps it so.
-/

namespace Eevdf

open RbTree

variable {α : Type*}

/-- The order by `(deadline, vruntime)`. -/
def keyLe (e f : Entity) : Prop :=
  e.deadline < f.deadline ∨ (e.deadline = f.deadline ∧ e.vruntime ≤ f.vruntime)

/-- The queue has the tree: a red-black tree in the current order of its tasks, with `rb_leftmost` its
minimum. -/
structure Ordered (q : Rq α) (T : CTree α) : Prop where
  represents : Represents q.tree T
  redBlack : T.RedBlack
  sorted : T.Sorted fun a b => keyLe (q.entity a) (q.entity b)
  leftmost : q.leftmost = T.toList.head?

/-- The tree is that of the queued tasks. -/
structure HasTree (q : Rq α) (T : CTree α) : Prop extends Ordered q T where
  mem : ∀ a, a ∈ T.toList ↔ q.onRq a = true

/-- `eevdf_pick_next` returns a queued task of minimum deadline, if there is one. -/
def PicksMinimum (q : Rq α) : Prop :=
  match eevdfPickNext q with
  | some a => q.onRq a = true ∧ ∀ b, q.onRq b = true → (q.entity a).deadline ≤ (q.entity b).deadline
  | none => ∀ b, q.onRq b = false

/-- A valid run queue. -/
structure Valid (q : Rq α) : Prop where
  weight : ∀ a, (q.entity a).weight ≠ 0
  tree : ∃ T, HasTree q T
  picks : PicksMinimum q

variable [DecidableEq α]

/-- Only tasks that are on no queue are enqueued. -/
def WellUsed (q : Rq α) : Op α → Prop
  | .enqueue task => q.onRq task = false
  | _ => True

/-- The removal of the task takes a red node out of the tree, or a node whose child gets its place. -/
def TakesRed (fuel : ℕ) (s : Heap α) (task : α) : Prop :=
  ∃ y x, spliced fuel s task = some (y, x) ∧ ((s.node y).color = .red ∨ x ≠ none)

/-- The same, or the removal takes the last node. -/
def Leaves (fuel : ℕ) (s : Heap α) (task : α) : Prop :=
  ∃ y x, spliced fuel s task = some (y, x) ∧ ((s.node y).color = .red ∨ x ≠ none ∨ s.root = some y)

/-- The new entity of a queued task stays between those before and behind it in the tree. -/
def StaysInPlace (q : Rq α) (task : α) (e : Entity) : Prop :=
  ∀ T xs ys, Represents q.tree T → T.toList = xs ++ task :: ys →
    (∀ a ∈ xs, keyLe (q.entity a) e) ∧ ∀ a ∈ ys, keyLe e (q.entity a)

/-- No task is enqueued on an empty queue; a queued task is dequeued if it `Leaves` and reweighted if its
removal `TakesRed`; and if the task that ran is queued, it stays in its place. -/
def Kept (fuel : ℕ) (q : Rq α) : Op α → Prop
  | .enqueue _ => q.tree.root ≠ none
  | .dequeue task => q.onRq task = true → Leaves fuel q.tree task
  | .updateCurr task delta => q.onRq task = true → StaysInPlace q task ((q.entity task).ran delta)
  | .setNice _ _ => True
  | .reweight task _ => q.onRq task = true → TakesRed fuel q.tree task

/-- The counters of the queue are those of its tasks. -/
def Sums (q : Rq α) : Prop :=
  ∃ S : Finset α, (∀ a, a ∈ S ↔ q.onRq a = true) ∧ q.nrRunning.toNat = S.card ∧
    q.totalWeight.toNat = ∑ a ∈ S, (q.entity a).weight.toNat

/-- A task on the queue is not enqueued again, and the counter has room for one more; `eevdf_set_nice` leaves
the weight of a task on the queue as it is, and `eevdf_reweight` that of a task off the queue. -/
def Counted (q : Rq α) : Op α → Prop
  | .enqueue task => q.onRq task = false ∧ q.nrRunning.toNat + 1 < 2 ^ 32
  | .dequeue _ => True
  | .updateCurr _ _ => True
  | .setNice task nice =>
    nice < -20 ∨ nice > 19 ∨ q.onRq task = false ∨ eevdfCalcWeight nice = (q.entity task).weight
  | .reweight task newNice => q.onRq task = true ∨ eevdfCalcWeight newNice = (q.entity task).weight

/-- The time that `eevdf_update_curr` divides by the weight. -/
def scaled (delta : UInt64) : ℕ := (delta * weight0).toNat

/-- What `eevdf_update_curr` adds to the vruntime of a task. -/
def charge (q q' : Rq α) (task : α) : UInt64 := (q'.entity task).vruntime - (q.entity task).vruntime

/-- A condition on each step of a run. -/
def Along (fuel : ℕ) (ok : Rq α → Op α → Prop) (q : Rq α) : List (Op α) → Prop
  | [] => True
  | op :: ops => ok q op ∧ ∀ q', step fuel q op = some q' → Along fuel ok q' ops

end Eevdf
