import Kenux.Cfs.Model

/-!
# Tasks on a CFS run queue

The run queue is `global_rq` with the tasks of the system. A step is `none` when it divides by zero, loops
without end, or clears the links of a queued task.
-/

namespace Cfs

open RbTree

/-- `cfs_task_t`. -/
structure Task where
  vruntime : UInt64
  sumExecRuntime : UInt64
  nice : ℤ
  loadWeight : UInt64
  onRq : Bool

/-- `cfs_rq_t` and the tasks. -/
structure Rq (α : Type*) where
  timeline : Timeline α
  task : α → Task
  curr : Option α
  minVruntime : UInt64
  execClock : UInt64
  nrRunning : UInt32
  nrTasks : UInt32

/-- `CFS_NICE_0_LOAD`. -/
def nice0Load : UInt64 := 1024

/-- `CFS_TARGET_LATENCY`. -/
def targetLatency : UInt64 := 6000000

def niceToWeight : List UInt64 := [
  88761, 71755, 56483, 46273, 36291,
  29154, 23254, 18705, 14949, 11916,
  9548, 7620, 6100, 4904, 3906,
  3121, 2501, 1991, 1586, 1277,
  1024, 820, 655, 526, 423,
  335, 272, 215, 172, 137,
  110, 87, 70, 56, 45,
  36, 29, 23, 18, 15]

def cfsNiceToWeight (nice : ℤ) : UInt64 :=
  let nice := if nice < -20 then -20 else nice
  let nice := if nice > 19 then 19 else nice
  niceToWeight.getD (nice + 20).toNat 0

variable {α : Type*} [DecidableEq α]

/-- At boot, before any other call of `rbtree_init`. -/
def cfsInit (node : Option α → Node α) (task : α → Task) : Rq α where
  timeline := ⟨initSentinel false node, none⟩
  task := task
  curr := none
  minVruntime := 0
  execClock := 0
  nrRunning := 0
  nrTasks := 0

def Rq.setTask (rq : Rq α) (a : α) (t : Task) : Rq α := { rq with task := Function.update rq.task a t }

omit [DecidableEq α] in
/-- `__node_key` -/
def Rq.key (rq : Rq α) (a : α) : UInt64 := (rq.task a).vruntime

/-- What `cfs_task_init` makes of the memory of a task. -/
def cfsTaskInit (minVruntime : UInt64) (nice : ℤ) : Task where
  vruntime := minVruntime
  sumExecRuntime := 0
  nice := nice
  loadWeight := cfsNiceToWeight nice
  onRq := false

/-- `rq->min_vruntime - CFS_TARGET_LATENCY * 4`. -/
def Rq.floor (rq : Rq α) : UInt64 := rq.minVruntime - targetLatency * 4

def cfsEnqueueTask (fuel : ℕ) (rq : Rq α) (a : α) : Option (Rq α) :=
  if (rq.task a).onRq then some rq
  else do
    let rq := if (rq.task a).vruntime < rq.floor then rq.setTask a { rq.task a with vruntime := rq.floor } else rq
    let timeline ← rbtreeInsert fuel rq.key a rq.timeline
    let rq := { rq with timeline := timeline }
    let rq := rq.setTask a { rq.task a with onRq := true }
    pure { rq with nrRunning := rq.nrRunning + 1, nrTasks := rq.nrTasks + 1 }

def cfsDequeueTask (fuel : ℕ) (rq : Rq α) (a : α) : Option (Rq α) :=
  if (rq.task a).onRq then do
    let timeline ← rbtreeDelete fuel (some a) rq.timeline
    let rq := { rq with timeline := timeline }
    let rq := rq.setTask a { rq.task a with onRq := false }
    let rq := { rq with nrRunning := rq.nrRunning - 1 }
    pure (if 0 < rq.nrTasks then { rq with nrTasks := rq.nrTasks - 1 } else rq)
  else some rq

/-- `delta_exec`; `none` for a division by zero. -/
def deltaExec (loadWeight deltaNs : UInt64) : Option UInt64 :=
  if loadWeight = nice0Load then some deltaNs
  else if loadWeight = 0 then none
  else some (deltaNs * nice0Load / loadWeight)

def cfsAccountExec (rq : Rq α) (a : α) (deltaNs : UInt64) : Option (Rq α) :=
  (deltaExec (rq.task a).loadWeight deltaNs).map fun delta =>
    let t := rq.task a
    let rq := rq.setTask a { t with
      vruntime := t.vruntime + delta
      sumExecRuntime := t.sumExecRuntime + deltaNs }
    { rq with execClock := rq.execClock + deltaNs }

omit [DecidableEq α] in
/-- `min_vruntime` is raised to the vruntime of a task, if there is one and it is greater. -/
def Rq.raise (rq : Rq α) (o : Option α) : Rq α :=
  match o with
  | none => rq
  | some a => if (rq.task a).vruntime > rq.minVruntime then { rq with minVruntime := (rq.task a).vruntime } else rq

omit [DecidableEq α] in
def cfsUpdateMinVruntime (fuel : ℕ) (rq : Rq α) : Option (Rq α) := do
  let node ← rbtreeMin fuel rq.timeline
  let rq := rq.raise node
  pure (rq.raise rq.curr)

inductive RqOp (α : Type*) where
  | taskInit (a : α) (nice : ℤ)
  | enqueue (a : α)
  | dequeue (a : α)
  | accountExec (a : α) (deltaNs : UInt64)
  | updateMin

def rqStep (fuel : ℕ) (rq : Rq α) : RqOp α → Option (Rq α)
  | .taskInit a nice =>
    if (rq.task a).onRq then none else some (rq.setTask a (cfsTaskInit rq.minVruntime nice))
  | .enqueue a => cfsEnqueueTask fuel rq a
  | .dequeue a => cfsDequeueTask fuel rq a
  | .accountExec a deltaNs => cfsAccountExec rq a deltaNs
  | .updateMin => cfsUpdateMinVruntime fuel rq

/-! ## The history of a run -/

/-- A run queue with the weighted time that each task has run for, and the tasks in the order in which they
joined the queue. -/
structure Traced (α : Type*) where
  rq : Rq α
  ran : α → ℕ
  joined : List α

/-- The weighted time of a step without overflow. -/
def weighted (loadWeight deltaNs : UInt64) : ℕ := deltaNs.toNat * 1024 / loadWeight.toNat

def Traced.after (t : Traced α) (rq : Rq α) : RqOp α → Traced α
  | .taskInit a _ => ⟨rq, Function.update t.ran a 0, t.joined.erase a⟩
  | .enqueue a => ⟨rq, t.ran, if a ∈ t.joined then t.joined else t.joined ++ [a]⟩
  | .dequeue _ => ⟨rq, t.ran, t.joined⟩
  | .accountExec a deltaNs =>
    ⟨rq, Function.update t.ran a (t.ran a + weighted (t.rq.task a).loadWeight deltaNs), t.joined⟩
  | .updateMin => ⟨rq, t.ran, t.joined⟩

def tracedStep (fuel : ℕ) (t : Traced α) (op : RqOp α) : Option (Traced α) :=
  (rqStep fuel t.rq op).map fun rq => t.after rq op

/-- A step without an overflow, in the subtraction of `cfs_enqueue_task` and the arithmetic of
`cfs_account_exec`. -/
def NoWrap (t : Traced α) : RqOp α → Prop
  | .enqueue a => (t.rq.task a).onRq = true ∨ (targetLatency * 4).toNat ≤ t.rq.minVruntime.toNat
  | .accountExec a deltaNs => (t.rq.task a).vruntime.toNat + weighted (t.rq.task a).loadWeight deltaNs < 2 ^ 64 ∧
      deltaNs.toNat * 1024 < 2 ^ 64
  | _ => True

omit [DecidableEq α] in
/-- A task that ran for less time than one that joined earlier never compares as having run for more. -/
def Fair (t : Traced α) : Prop :=
  ∀ a b, [b, a].Sublist t.joined → t.ran a < t.ran b → ¬(t.rq.task b).vruntime < (t.rq.task a).vruntime

/-- No task is put on the queue. -/
def LeavesOff (t : Traced α) : RqOp α → Prop
  | .enqueue a => (t.rq.task a).onRq = true
  | _ => True

/-- The time that is charged to a task in the course of a run, in ns. -/
def charged (a : α) : List (RqOp α) → ℕ
  | [] => 0
  | .accountExec b deltaNs :: ops => (if b = a then deltaNs.toNat else 0) + charged a ops
  | _ :: ops => charged a ops

end Cfs
