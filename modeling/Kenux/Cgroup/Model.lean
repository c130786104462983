import Kenux.Lib.Run
import Mathlib.Data.UInt

/-!
# Control groups (`kernel/cgroup.c`)

A group lies at an address. The children of a group, chained by `sibling` from `children` on, are a list, and so are the
pids of `proc_pids` below `nr_procs`. Reading a group that was freed has no result. A loop over the parents of a group
has as many rounds as its level asks for; a longer chain would be a cycle.
-/

namespace Cgroup

/-- `struct cgroup`, less its id, locks, subsystems and cpu accounting. -/
structure Group where
  name : List UInt8
  parent : Option ℕ
  children : List ℕ
  level : ℕ
  pids : List UInt64
  memUsagePages : UInt64
  memLimitPages : UInt64
  deriving DecidableEq

def nameMax : ℕ := 64

def maxProcs : ℕ := 1024

/-- `MEM_LIMIT_MAX`. -/
def memLimitMax : UInt64 := 0xffffffffffffffff

/-- The groups by their addresses, and `cgroup_default`. -/
structure State where
  groups : ℕ → Option Group
  default : Option ℕ

def State.set (s : State) (p : ℕ) (g : Group) : State := { s with groups := Function.update s.groups p (some g) }

def State.free (s : State) (p : ℕ) : State := { s with groups := Function.update s.groups p none }

/-- The name that `strncpy` leaves. -/
def stored (name : List UInt8) : List UInt8 := name.take (nameMax - 1)

/-- The new group of `cgroup_create`. -/
def newGroup (parent : Option ℕ) (level : ℕ) (name : List UInt8) : Group :=
  { name := stored name
    parent := parent
    children := []
    level := level
    pids := []
    memUsagePages := 0
    memLimitPages := memLimitMax }

/-- `cgroup_create`; `alloc` is what `kzalloc` returns. -/
def cgroupCreate (s : State) (parent : Option ℕ) (name : Option (List UInt8)) (alloc : Option ℕ) :
    Option (Option ℕ × State) :=
  match name with
  | none => some (none, s)
  | some name =>
    if name = [] then some (none, s)
    else
      match alloc with
      | none => some (none, s)
      | some p =>
        match parent with
        | none => some (some p, s.set p (newGroup none 0 name))
        | some q =>
          match s.groups q with
          | none => none
          | some g =>
            some (some p, (s.set p (newGroup (some q) (g.level + 1) name)).set q { g with children := p :: g.children })

/-- `cgroup_destroy`, of a group without children. -/
def cgroupDestroy (s : State) (cgrp : Option ℕ) : Option State :=
  match cgrp with
  | none => some s
  | some p =>
    if some p = s.default then some s
    else
      match s.groups p with
      | none => none
      | some g =>
        if 0 < g.pids.length then some s
        else if g.children ≠ [] then some s
        else
          match g.parent with
          | none => some (s.free p)
          | some q =>
            match s.groups q with
            | none => none
            | some gq => some ((s.set q { gq with children := gq.children.erase p }).free p)

/-- `cgroup_attach_task`. -/
def cgroupAttachTask (s : State) (cgrp : Option ℕ) (pid : UInt64) : Option (ℤ × State) :=
  match cgrp with
  | none => some (-1, s)
  | some p =>
    if pid = 0 then some (-1, s)
    else
      match s.groups p with
      | none => none
      | some g =>
        if maxProcs ≤ g.pids.length then some (-1, s)
        else if pid ∈ g.pids then some (0, s)
        else some (0, s.set p { g with pids := g.pids ++ [pid] })

/-- `cgroup_detach_task`: the pids behind it move up. -/
def cgroupDetachTask (s : State) (cgrp : Option ℕ) (pid : UInt64) : Option (ℤ × State) :=
  match cgrp with
  | none => some (-1, s)
  | some p =>
    match s.groups p with
    | none => none
    | some g =>
      if pid ∈ g.pids then some (0, s.set p { g with pids := g.pids.erase pid }) else some (-1, s)

/-- `while (p) { ..; p = p->parent; }`, for a change of each group. -/
def eachAncestor (f : Group → Group) : ℕ → State → Option ℕ → Option State
  | _, s, none => some s
  | 0, _, some _ => none
  | n + 1, s, some p =>
    match s.groups p with
    | none => none
    | some g => eachAncestor f n (s.set p (f g)) g.parent

/-- The rounds that the loops from a group on take. -/
def rounds (s : State) (p : ℕ) : ℕ := ((s.groups p).elim 0 Group.level) + 1

/-- One round of `cgroup_mem_account`. -/
def Group.account (pages : UInt64) (g : Group) : Group := { g with memUsagePages := g.memUsagePages + pages }

/-- One round of `cgroup_mem_unaccount`. -/
def Group.unaccount (pages : UInt64) (g : Group) : Group :=
  { g with memUsagePages := if pages ≤ g.memUsagePages then g.memUsagePages - pages else 0 }

/-- The test of one round of `cgroup_mem_charge`; the sum is one of 64 bits. -/
def Group.refuses (pages : UInt64) (g : Group) : Bool :=
  g.memLimitPages ≠ memLimitMax && g.memLimitPages < g.memUsagePages + pages

/-- The first loop of `cgroup_mem_charge`: whether some group refuses. -/
def anyRefuses (pages : UInt64) : ℕ → State → Option ℕ → Option Bool
  | _, _, none => some false
  | 0, _, some _ => none
  | n + 1, s, some p =>
    match s.groups p with
    | none => none
    | some g => if g.refuses pages then some true else anyRefuses pages n s g.parent

/-- `cgroup_mem_unaccount`. -/
def cgroupMemUnaccount (s : State) (cgrp : Option ℕ) (pages : UInt64) : Option State :=
  match cgrp with
  | none => some s
  | some p => eachAncestor (Group.unaccount pages) (rounds s p) s (some p)

/-- `cgroup_mem_charge`. -/
def cgroupMemCharge (s : State) (cgrp : Option ℕ) (pages : UInt64) : Option (ℤ × State) :=
  match cgrp with
  | none => some (-1, s)
  | some p =>
    match anyRefuses pages (rounds s p) s (some p) with
    | none => none
    | some true => some (-1, s)
    | some false => (eachAncestor (Group.account pages) (rounds s p) s (some p)).map fun t => (0, t)

/-- `cgroup_init`; without memory there is no default group. -/
def cgroupInit (alloc : Option ℕ) : State :=
  { groups := match alloc with
      | none => fun _ => none
      | some p => Function.update (fun _ => none) p (some (newGroup none 0 [47]))
    default := alloc }

/-- The groups, and of each the pages that were charged to it and not given back. -/
structure Sys where
  cgroups : State
  own : ℕ → ℕ

def Sys.init (alloc : Option ℕ) : Sys := ⟨cgroupInit alloc, fun _ => 0⟩

inductive Call where
  | create (parent : Option ℕ) (name : Option (List UInt8)) (alloc : Option ℕ)
  | destroy (cgrp : Option ℕ)
  | attach (cgrp : Option ℕ) (pid : UInt64)
  | detach (cgrp : Option ℕ) (pid : UInt64)
  | setLimit (p : ℕ) (limit : UInt64)
  | charge (cgrp : Option ℕ) (pages : UInt64)
  | unaccount (cgrp : Option ℕ) (pages : UInt64)

/-- The pages of a group that is charged, or given back to. -/
def Sys.addOwn (s : Sys) (cgrp : Option ℕ) (f : ℕ → ℕ) : ℕ → ℕ :=
  match cgrp with
  | none => s.own
  | some p => Function.update s.own p (f (s.own p))

/-- `kzalloc` returns memory that is not in use; limits are set in the group itself; what is given back was charged to
the same group before. -/
def step (s : Sys) : Call → Option Sys
  | .create parent name alloc =>
    match alloc with
    | none => (cgroupCreate s.cgroups parent name none).map fun r => ⟨r.2, s.own⟩
    | some p =>
      if (s.cgroups.groups p).isSome then none
      else (cgroupCreate s.cgroups parent name (some p)).map fun r => ⟨r.2, Function.update s.own p 0⟩
  | .destroy cgrp => (cgroupDestroy s.cgroups cgrp).map fun t => ⟨t, s.own⟩
  | .attach cgrp pid => (cgroupAttachTask s.cgroups cgrp pid).map fun r => ⟨r.2, s.own⟩
  | .detach cgrp pid => (cgroupDetachTask s.cgroups cgrp pid).map fun r => ⟨r.2, s.own⟩
  | .setLimit p limit =>
    match s.cgroups.groups p with
    | none => none
    | some g => some ⟨s.cgroups.set p { g with memLimitPages := limit }, s.own⟩
  | .charge cgrp pages =>
    (cgroupMemCharge s.cgroups cgrp pages).map fun r =>
      ⟨r.2, if r.1 = 0 then s.addOwn cgrp (· + pages.toNat) else s.own⟩
  | .unaccount cgrp pages =>
    if ∀ p ∈ cgrp, pages.toNat ≤ s.own p then
      (cgroupMemUnaccount s.cgroups cgrp pages).map fun t => ⟨t, s.addOwn cgrp (· - pages.toNat)⟩
    else none

end Cgroup
