import Kenux.Lib.Run
import Kenux.Lib.SList
import Mathlib.Algebra.Ring.Int.Defs

/-!
# Netfilter hooks (`arch/x86_64/netfilter.c`)

A hook object belongs to the caller and carries the link of the list it is in. The walks along a list have fuel; `none`
is a walk that does not end within it.
-/

namespace Netfilter

def nfInetNumhooks : ℕ := 5

def nfMaxHooksPerHook : ℕ := 64

/-- `nf_hook_ops_t`, but for its link. -/
structure HookOps where
  hooknum : ℤ
  priority : ℤ

/-- `nf_inet_hooks`, and the links in the objects. -/
structure Hooks (ν : Type) where
  heads : ℕ → Option ν
  next : ν → Option ν

variable {ν : Type} [DecidableEq ν]

/-- Sets the pointer at the start of a list, or the one in an object. -/
def Hooks.setPtr (h : Hooks ν) (i : ℕ) (slot v : Option ν) : Hooks ν :=
  match slot with
  | none => { h with heads := Function.update h.heads i v }
  | some y => { h with next := Function.update h.next y v }

/-- `reg->next = v`. -/
def Hooks.setNext (h : Hooks ν) (reg : ν) (v : Option ν) : Hooks ν := { h with next := Function.update h.next reg v }

variable (obj : ν → HookOps) (fuel : ℕ)

/-- The list of an object, if its number is one. -/
def listOf (reg : ν) : Option ℕ :=
  if (obj reg).hooknum < 0 ∨ (obj reg).hooknum ≥ nfInetNumhooks then none else some (obj reg).hooknum.toNat

def nfHooksCount (h : Hooks ν) (i : ℕ) : Option ℕ := SList.count h.next fuel (h.heads i)

def nfInsertHookSorted (h : Hooks ν) (i : ℕ) (reg : ν) : Option (Hooks ν) := do
  let (slot, next) ← SList.stop h.next (fun y => (obj reg).priority < (obj y).priority) fuel none (h.heads i)
  pure ((h.setNext reg next).setPtr i slot (some reg))

/-- `nf_register_hook`; `false` stands for -1. -/
def nfRegisterHook (h : Hooks ν) (reg : ν) : Option (Bool × Hooks ν) :=
  match listOf obj reg with
  | none => pure (false, h)
  | some i => do
    let count ← nfHooksCount fuel h i
    if count ≥ nfMaxHooksPerHook then pure (false, h)
    else do
      let h ← nfInsertHookSorted obj fuel h i reg
      pure (true, h)

def nfUnregisterHook (h : Hooks ν) (reg : ν) : Option (Hooks ν) :=
  match listOf obj reg with
  | none => pure h
  | some i => do
    match ← SList.slotOf h.next reg fuel none (h.heads i) with
    | none => pure h
    | some slot => pure ((h.setPtr i slot (h.next reg)).setNext reg none)

/-- `nf_unregister_net_hooks`, and the loop that takes back what was registered. -/
def nfUnregisterNetHooks (h : Hooks ν) : List ν → Option (Hooks ν)
  | [] => pure h
  | reg :: regs => do
    let h ← nfUnregisterHook obj fuel h reg
    nfUnregisterNetHooks h regs

/-- The loop of `nf_register_net_hooks`; `done` are the objects registered so far, the last one first. -/
def registerFrom (h : Hooks ν) (done : List ν) : List ν → Option (Bool × Hooks ν)
  | [] => pure (true, h)
  | reg :: regs => do
    let (ret, h) ← nfRegisterHook obj fuel h reg
    if ret then registerFrom h (reg :: done) regs
    else do
      let h ← nfUnregisterNetHooks obj fuel h done
      pure (false, h)

def nfRegisterNetHooks (h : Hooks ν) (regs : List ν) : Option (Bool × Hooks ν) := registerFrom obj fuel h [] regs

/-- `nf_init` -/
def nfInit (next : ν → Option ν) : Hooks ν := ⟨fun _ => none, next⟩

/-! ## Runs -/

inductive Call (ν : Type) where
  | register (reg : ν)
  | unregister (reg : ν)
  | registerNet (regs : List ν)
  | unregisterNet (regs : List ν)

/-- The lists, and for each object that is registered when it was. -/
structure Traced (ν : Type) where
  hooks : Hooks ν
  registered : ν → Option ℕ
  time : ℕ

def Traced.mark (t : Traced ν) (reg : ν) : Traced ν :=
  { t with registered := Function.update t.registered reg (some t.time), time := t.time + 1 }

def Traced.add (t : Traced ν) (hooks : Hooks ν) (regs : List ν) : Traced ν :=
  { regs.foldl Traced.mark t with hooks := hooks }

def Traced.drop (t : Traced ν) (hooks : Hooks ν) (regs : List ν) : Traced ν :=
  { t with hooks := hooks, registered := fun x => if x ∈ regs then none else t.registered x }

/-- What a call makes of the lists and returns; unregistering returns nothing. -/
def callHooks (h : Hooks ν) : Call ν → Option (Bool × Hooks ν)
  | .register reg => nfRegisterHook obj fuel h reg
  | .unregister reg => (nfUnregisterHook obj fuel h reg).map fun h => (true, h)
  | .registerNet regs => nfRegisterNetHooks obj fuel h regs
  | .unregisterNet regs => (nfUnregisterNetHooks obj fuel h regs).map fun h => (true, h)

/-- A call that fails registers nothing. -/
def record (t : Traced ν) (r : Bool × Hooks ν) : Call ν → Traced ν
  | .register reg => if r.1 then t.add r.2 [reg] else { t with hooks := r.2 }
  | .unregister reg => t.drop r.2 [reg]
  | .registerNet regs => if r.1 then t.add r.2 regs else { t with hooks := r.2 }
  | .unregisterNet regs => t.drop r.2 regs

def step (t : Traced ν) (c : Call ν) : Option (Traced ν) :=
  (callHooks obj fuel t.hooks c).map fun r => record t r c

def startOf (next : ν → Option ν) : Traced ν := ⟨nfInit next, fun _ => none, 0⟩

/-! ## What the lists promise -/

/-- A list is finite, holds each object that is registered for it once, and these stand by priority and in the order
in which they were registered. -/
structure ListOk (t : Traced ν) (i : ℕ) (l : List ν) : Prop where
  chained : SList.Chained t.hooks.next (t.hooks.heads i) l
  nodup : l.Nodup
  holds : ∀ x, x ∈ l ↔ listOf obj x = some i ∧ (t.registered x).isSome
  sorted : l.Pairwise fun x y => (obj x).priority < (obj y).priority ∨ (obj x).priority = (obj y).priority ∧
    ∀ n ∈ t.registered x, ∀ m ∈ t.registered y, n < m

/-- Every list is in order. -/
def ListsOk (t : Traced ν) : Prop := ∀ i < nfInetNumhooks, ∃ l, ListOk obj t i l

/-- The lists lead along the same objects. -/
def SameLists (h h' : Hooks ν) : Prop :=
  ∀ i < nfInetNumhooks, ∀ l, SList.Chained h.next (h.heads i) l ↔ SList.Chained h'.next (h'.heads i) l

/-- The object is not in its list, or the list takes no more objects. -/
def Fresh (h : Hooks ν) (reg : ν) : Prop :=
  ∀ i l, listOf obj reg = some i → SList.Chained h.next (h.heads i) l → reg ∉ l ∨ nfMaxHooksPerHook ≤ l.length

/-- Each object of an array is fresh when its turn comes. -/
def FreshFrom (h : Hooks ν) : List ν → Prop
  | [] => True
  | reg :: regs => Fresh obj h reg ∧ ∀ h', nfRegisterHook obj fuel h reg = some (true, h') → FreshFrom h' regs

/-- No call registers an object that is in its list. -/
def CallOk (t : Traced ν) : Call ν → Prop
  | .register reg => Fresh obj t.hooks reg
  | .registerNet regs => FreshFrom obj fuel t.hooks regs
  | _ => True

end Netfilter
