import Kenux.Lib.DepthFirst
import Kenux.Lib.Run

/-!
# The scheduler (`buildsystem/core/runner.py`)

`BuildRunner._schedule` with the thread pool it submits targets to. A step is one of the scheduling thread or of a
worker, and any order of steps may happen. Futures are numbered as they are submitted; sets are lists in any order.
-/

/-!
## The build graph (`buildsystem/core/model.py`)

Paths are absolute and normalized. A dict keeps the order in which its keys were added; since the outputs of the targets
differ, the dict of outputs is what a search through the targets finds.
-/

namespace Build

abbrev Path := String

/-- `Target`, with the fields that the graph and the scheduler read. -/
structure Target where
  name : String
  outputs : List Path
  inputs : List Path
  implicitInputs : List Path
  dependsOn : List String
  deriving DecidableEq

def Target.allInputs (t : Target) : List Path := t.inputs ++ t.implicitInputs

/-- `GraphError`, by the messages of its raises. -/
inductive GraphError where
  | duplicateName (name : String)
  | duplicateOutput (output : Path) (owner target : String)
  | unknownTarget (target name : String)
  | cycle (name : String)
  deriving DecidableEq

/-- `BuildGraph`: names and outputs are unique. -/
structure BuildGraph where
  targets : List Target
  names_nodup : (targets.map Target.name).Nodup
  outputs_nodup : (targets.flatMap Target.outputs).Nodup

def BuildGraph.empty : BuildGraph := ⟨[], List.nodup_nil, List.nodup_nil⟩

/-- `self.targets.get(name)`. -/
def BuildGraph.lookup (g : BuildGraph) (name : String) : Option Target := g.targets.find? fun t => t.name = name

/-- `producer`. -/
def BuildGraph.producer (g : BuildGraph) (path : Path) : Option Target := g.targets.find? fun t => path ∈ t.outputs

/-- A path that an earlier target, or the target itself before it, has as an output. -/
def duplicate (taken : List Path) : List Path → Option Path
  | [] => none
  | p :: ps => if p ∈ taken then some p else duplicate (p :: taken) ps

theorem nodup_of_duplicate {taken ps : List Path} (h : duplicate taken ps = none) (ht : taken.Nodup) :
    (taken ++ ps).Nodup := by
  induction ps generalizing taken with
  | nil => simpa using ht
  | cons p ps ih =>
    unfold duplicate at h
    split at h
    · cases h
    case isFalse hp =>
      have hnd := ih h (List.nodup_cons.mpr ⟨hp, ht⟩)
      exact (List.perm_middle.nodup_iff).mpr hnd

/-- `add`. -/
def BuildGraph.add (g : BuildGraph) (t : Target) : Except GraphError BuildGraph :=
  if hn : t.name ∈ g.targets.map Target.name then .error (.duplicateName t.name)
  else
    match hd : duplicate (g.targets.flatMap Target.outputs) t.outputs with
    | some p => .error (.duplicateOutput p (((g.producer p).map Target.name).getD t.name) t.name)
    | none =>
      .ok
        { targets := g.targets ++ [t]
          names_nodup := by
            rw [List.map_append, List.map_singleton, List.nodup_append]
            refine ⟨g.names_nodup, by simp, fun a ha b hb hab => hn ?_⟩
            obtain rfl : b = t.name := by simpa using hb
            exact hab ▸ ha
          outputs_nodup := by
            rw [List.flatMap_append, List.flatMap_singleton]
            exact nodup_of_duplicate hd g.outputs_nodup }

/-- One dependency; `seen` holds the names of the result. -/
def addDependency (result : List Target) (d : Target) : List Target :=
  if d.name ∈ result.map Target.name then result else result ++ [d]

/-- The first loop of `dependencies`. -/
def BuildGraph.addProducers (g : BuildGraph) : List Path → List Target → List Target
  | [], result => result
  | path :: paths, result =>
    match g.producer path with
    | some d => g.addProducers paths (addDependency result d)
    | none => g.addProducers paths result

/-- The second loop of `dependencies`. -/
def BuildGraph.addNamed (g : BuildGraph) (t : Target) : List String → List Target → Except GraphError (List Target)
  | [], result => .ok result
  | name :: names, result =>
    match g.lookup name with
    | none => .error (.unknownTarget t.name name)
    | some d => g.addNamed t names (addDependency result d)

/-- `dependencies`. -/
def BuildGraph.dependencies (g : BuildGraph) (t : Target) : Except GraphError (List Target) :=
  g.addNamed t t.dependsOn (g.addProducers t.allInputs [])

/-- The names of the dependencies of the target of a name. -/
def BuildGraph.succs (g : BuildGraph) (name : String) : Except GraphError (List String) :=
  match g.lookup name with
  | none => .ok []
  | some t => (g.dependencies t).map fun ds => ds.map Target.name

/-- The `GraphError` that `closure` raises. -/
def graphError : DepthFirst.Error String GraphError → GraphError
  | .cycle name => .cycle name
  | .succs e => e

/-- `closure`; targets are given by their names. The recursion is never deeper than there are targets. -/
def BuildGraph.closure (g : BuildGraph) (roots : List String) : Option (Except GraphError (List String)) :=
  (DepthFirst.postorder g.succs (g.targets.length + 1) roots).map fun r => r.mapError graphError

/-- The state of a future. A cancelled one is seen by `wait` when a worker has come to it. -/
inductive Status where
  | pending | started | finished | failed | cancelled | notified
  deriving DecidableEq

/-- `wait` counts the future as complete. -/
def Status.done (s : Status) : Bool := s = .finished || s = .failed || s = .notified

/-- Where the scheduling thread is: at the head of the outer loop, in the loop over a batch of complete futures, or
behind the loops with what is returned or raised. -/
inductive Place where
  | loop
  | batch (complete : List ℕ)
  | returned (ok : Bool)
  deriving DecidableEq

/-- What happened to a target. -/
inductive Event where
  | started (name : String)
  | finished (name : String)
  | failed (name : String)
  deriving DecidableEq

/-- The targets of a closure and the sets of dependencies within it. -/
structure Plan where
  names : List String
  required : String → List String

/-- The local variables, the pool, and what happened, the latest first. -/
structure Sched where
  dependencies : String → List String
  ready : List String
  running : List ℕ
  futures : List String
  status : ℕ → Status
  failed : Bool
  completed : ℕ
  place : Place
  log : List Event

/-- The plan of a closure. -/
def BuildGraph.plan (g : BuildGraph) (closure : List String) : Plan :=
  { names := closure
    required := fun name =>
      match g.succs name with
      | .ok ds => ds.filter fun d => d ∈ closure
      | .error _ => [] }

def Plan.init (p : Plan) : Sched :=
  { dependencies := p.required
    ready := p.names.filter fun name => (p.required name).isEmpty
    running := []
    futures := []
    status := fun _ => .pending
    failed := false
    completed := 0
    place := .loop
    log := [] }

/-- `dependents[name]`, in some order. -/
def Plan.dependents (p : Plan) (name : String) : List String := p.names.filter fun d => name ∈ p.required d

/-- The loop over the dependents of a target that has finished. -/
def release (name : String) : List String → (String → List String) → List String → (String → List String) × List String
  | [], deps, ready => (deps, ready)
  | d :: ds, deps, ready =>
    let rest := (deps d).filter (· ≠ name)
    release name ds (Function.update deps d rest) (if rest.isEmpty then ready ++ [d] else ready)

/-- `pending.cancel()` for all that are running: it has an effect on those not started. -/
def Sched.cancel (s : Sched) : Sched :=
  { s with status := fun f => if f ∈ s.running ∧ s.status f = .pending then .cancelled else s.status f }

/-- The futures whose target is being executed. -/
def Sched.active (s : Sched) : ℕ := (List.range s.futures.length).countP fun f => s.status f = .started

inductive Step where
  | submit
  | await (complete : List ℕ)
  | settle (dependents : List String)
  | leave
  | start (f : ℕ)
  | finish (f : ℕ) (ok : Bool)
  | drop (f : ℕ)

/-- The next place in a loop over a batch. -/
def nextPlace : List ℕ → Place
  | [] => .loop
  | rest => .batch rest

/-- One step; `workers` is `max(1, worker_threads)`. -/
def schedStep (p : Plan) (workers : ℕ) (s : Sched) : Step → Option Sched
  | .submit =>
    match s.ready.getLast? with
    | none => none
    | some name =>
      if s.place = .loop ∧ s.failed = false then
        some
          { s with
            ready := s.ready.dropLast
            running := s.running ++ [s.futures.length]
            futures := s.futures ++ [name]
            status := Function.update s.status s.futures.length .pending }
      else none
  | .await complete =>
    if s.place = .loop ∧ (s.ready = [] ∨ s.failed = true) ∧ complete ≠ [] ∧ complete.Nodup ∧
        (∀ f ∈ complete, f ∈ s.running) ∧ ∀ f ∈ s.running, (f ∈ complete ↔ (s.status f).done = true) then
      some { s with place := .batch complete }
    else none
  | .settle dependents =>
    match s.place with
    | .batch (f :: rest) =>
      let s := { s with running := s.running.erase f }
      match s.futures[f]? with
      | none => none
      | some name =>
        if s.status f = .finished then
          if dependents.Perm (p.dependents name) then
            let r := release name dependents s.dependencies s.ready
            some { s with dependencies := r.1, ready := r.2, completed := s.completed + 1, place := nextPlace rest }
          else none
        else some { s.cancel with failed := true, place := .loop }
    | _ => none
  | .leave =>
    if s.place = .loop ∧ (s.ready = [] ∨ s.failed = true) ∧ s.running = [] then
      some { s with place := .returned (!s.failed && s.completed = p.names.length) }
    else none
  | .start f =>
    match s.futures[f]? with
    | none => none
    | some name =>
      if s.status f = .pending ∧ s.active < workers then
        some { s with status := Function.update s.status f .started, log := .started name :: s.log }
      else none
  | .finish f ok =>
    match s.futures[f]? with
    | none => none
    | some name =>
      if s.status f = .started then
        if ok then some { s with status := Function.update s.status f .finished, log := .finished name :: s.log }
        else some { s with status := Function.update s.status f .failed, log := .failed name :: s.log }
      else none
  | .drop f =>
    match s.futures[f]? with
    | none => none
    | some _ =>
      if s.status f = .cancelled ∧ s.active < workers then
        some { s with status := Function.update s.status f .notified }
      else none

theorem drop_inv {p : Plan} {workers : ℕ} {s t : Sched} {f : ℕ} (h : schedStep p workers s (.drop f) = some t) :
    ∃ name, s.futures[f]? = some name ∧ s.status f = .cancelled ∧
      t = { s with status := Function.update s.status f .notified } := by
  simp only [schedStep] at h
  split at h
  · cases h
  case h_2 name hname =>
    split at h
    case isTrue hc => exact ⟨name, hname, hc.1, (Option.some.inj h).symm⟩
    case isFalse => cases h

end Build
