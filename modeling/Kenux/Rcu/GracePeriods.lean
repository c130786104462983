import Kenux.Lib.Run
import Mathlib.Data.UInt

/-!
# Read-copy-update (`kernel/rcu.c`)

There is one cpu, so one nesting counter for all readers. A list of callbacks is a list; its `count` stays beside it,
since `rcu_check_gp` reads the count. Heads lie at different addresses, so a count does not wrap.
-/

namespace Rcu

/-- `rcu_head_t`: where it lies, and what `call_rcu` stored in it. -/
structure RcuHead where
  addr : ℕ
  func : ℕ
  arg : ℕ
  deriving DecidableEq

/-- `rcu_cblist_t`. -/
structure CbList where
  cbs : List RcuHead
  count : ℕ
  deriving DecidableEq

def CbList.empty : CbList := ⟨[], 0⟩

/-- `rcu_state_t`; of `percpu[0]` the field that is read again. -/
structure State where
  gpSeq : ℕ
  gpStartSeq : ℕ
  gpActive : Bool
  cbs₀ : CbList
  cbs₁ : CbList
  passedGp : ℕ
  nesting : UInt64
  deriving DecidableEq

/-- `rcu_init`. -/
def rcuInit : State :=
  { gpSeq := 1, gpStartSeq := 0, gpActive := false, cbs₀ := .empty, cbs₁ := .empty, passedGp := 0, nesting := 0 }

/-- `__rcu_add_cb(1, head)`. -/
def rcuAddCb (s : State) (head : RcuHead) : State :=
  { s with cbs₁ := ⟨s.cbs₁.cbs ++ [head], s.cbs₁.count + 1⟩ }

/-- The first part of `rcu_check_gp`: it looks at stage 0 only. -/
def startGp (s : State) : State :=
  if s.gpActive = false ∧ 0 < s.cbs₀.count then { s with gpActive := true, gpStartSeq := s.gpSeq } else s

/-- `rcu_check_gp`, with the callbacks that `__rcu_invoke_cbs(0)` calls. -/
def rcuCheckGp (s : State) : State × List RcuHead :=
  let s := startGp s
  if s.gpActive ∧ s.nesting = 0 then
    ({ s with gpSeq := s.gpSeq + 1, gpActive := false, passedGp := s.passedGp + 1, cbs₀ := s.cbs₁, cbs₁ := .empty },
      s.cbs₀.cbs)
  else (s, [])

/-- `call_rcu`; a null `head` or `func` is `none`. -/
def callRcu (s : State) (head func : Option ℕ) (arg : ℕ) : State × List RcuHead :=
  match head, func with
  | some h, some f => rcuCheckGp (rcuAddCb s ⟨h, f, arg⟩)
  | _, _ => (s, [])

/-- `rcu_read_lock`. -/
def rcuReadLock (s : State) : State := { s with nesting := s.nesting + 1 }

/-- `rcu_read_unlock`. -/
def rcuReadUnlock (s : State) : State := { s with nesting := s.nesting - 1 }

/-- A callback that was invoked, with the critical sections that were active then. -/
structure Invoked where
  head : RcuHead
  during : List ℕ

/-- The module and what happened so far: the active critical sections by their numbers, the number of the next one,
the heads that were queued with the sections active at their `call_rcu`, and the callbacks that were invoked. -/
structure Sys where
  rcu : State
  active : List ℕ
  entered : ℕ
  queued : List (ℕ × List ℕ)
  invoked : List Invoked

def Sys.init : Sys := ⟨rcuInit, [], 0, [], []⟩

inductive Call where
  | callRcu (head func : Option ℕ) (arg : ℕ)
  | checkGp
  | readLock
  | readUnlock (section_ : ℕ)

/-- A `call_rcu` that queues a callback. -/
def Call.Queues : Call → Prop
  | .callRcu head func _ => head.isSome ∧ func.isSome
  | _ => False

/-- What the invoked callbacks add to the history. -/
def Sys.after (s : Sys) (r : State × List RcuHead) : Sys :=
  { s with rcu := r.1, invoked := s.invoked ++ r.2.map fun h => ⟨h, s.active⟩ }

/-- The heads of `call_rcu` are fresh, and a section is left only by who is in it. -/
def step (s : Sys) : Call → Option Sys
  | .callRcu head func arg =>
    match head, func with
    | some h, some _ =>
      if h ∈ s.queued.map Prod.fst then none
      else some ({ s with queued := s.queued ++ [(h, s.active)] }.after (callRcu s.rcu head func arg))
    | _, _ => some (s.after (callRcu s.rcu head func arg))
  | .checkGp => some (s.after (rcuCheckGp s.rcu))
  | .readLock =>
    some { s with rcu := rcuReadLock s.rcu, active := s.entered :: s.active, entered := s.entered + 1 }
  | .readUnlock n =>
    if n ∈ s.active then some { s with rcu := rcuReadUnlock s.rcu, active := s.active.erase n } else none

/-- Three calls of `rcu_check_gp`. -/
def Sys.drain (s : Sys) : Sys :=
  let check (s : Sys) : Sys := s.after (rcuCheckGp s.rcu)
  check (check (check s))

/-- No callback was invoked during a section that was active when it was queued. -/
def NeverEarly (s : Sys) : Prop :=
  ∀ i ∈ s.invoked, ∀ q ∈ s.queued, q.1 = i.head.addr → ∀ n ∈ q.2, n ∉ i.during

/-- No callback was invoked twice. -/
def AtMostOnce (s : Sys) : Prop := (s.invoked.map fun i => i.head.addr).Nodup

/-- Every callback queued so far was invoked. -/
def AllInvoked (s : Sys) : Prop := ∀ q ∈ s.queued, ∃ i ∈ s.invoked, i.head.addr = q.1

/-!
## Grace periods (`kernel/rcu.c`)

A grace period starts when stage 0 holds a callback, `call_rcu` fills stage 1, and stage 1 is moved to stage 0 only at
the end of a grace period. So from `rcu_init` on stage 0 stays empty.
-/

open Run

theorem rcuCheckGp_idle {s : State} (ha : s.gpActive = false) (hc : s.cbs₀.count = 0) : rcuCheckGp s = (s, []) := by
  have hs : startGp s = s := by simp [startGp, hc]
  simp [rcuCheckGp, hs, ha]

/-- The states of a run: no grace period, nothing in stage 0 and all that was queued still in stage 1. -/
structure Stuck (s : Sys) : Prop where
  gpActive : s.rcu.gpActive = false
  stage₀ : s.rcu.cbs₀ = .empty
  stage₁ : s.rcu.cbs₁.cbs.map RcuHead.addr = s.queued.map Prod.fst
  invoked : s.invoked = []

theorem stuck_init : Stuck .init := ⟨rfl, rfl, rfl, rfl⟩

/-- A check finds nothing to do. -/
theorem Stuck.check {s : Sys} (h : Stuck s) : s.after (rcuCheckGp s.rcu) = s := by
  rw [rcuCheckGp_idle h.gpActive (by rw [h.stage₀]; rfl)]
  simp [Sys.after]

theorem Stuck.drain {s : Sys} (h : Stuck s) : s.drain = s := by
  simp only [Sys.drain, h.check]

theorem Stuck.queue {s : Sys} (h : Stuck s) (head : RcuHead) :
    Stuck { s with rcu := rcuAddCb s.rcu head, queued := s.queued ++ [(head.addr, s.active)] } :=
  { gpActive := h.gpActive
    stage₀ := h.stage₀
    stage₁ := by simp [rcuAddCb, h.stage₁]
    invoked := h.invoked }

/-- What a call does in such a state: a callback is queued, or nothing is. -/
theorem Stuck.step {s t : Sys} {i : Call} (h : Stuck s) (hst : step s i = some t) :
    Stuck t ∧ (i.Queues → t.queued ≠ []) ∧ (¬ i.Queues → t.queued = s.queued) := by
  cases i with
  | callRcu head func arg =>
    rcases head with - | addr
    · obtain rfl := Option.some.inj hst
      simpa [callRcu, Sys.after, Call.Queues] using h
    rcases func with - | func
    · obtain rfl := Option.some.inj hst
      simpa [callRcu, Sys.after, Call.Queues] using h
    simp only [Rcu.step] at hst
    split at hst
    · cases hst
    obtain rfl := Option.some.inj hst
    -- the check of `call_rcu` finds stage 0 empty
    have hq := h.queue ⟨addr, func, arg⟩
    have hck := hq.check
    simp only [Sys.after] at hck
    simp only [callRcu, Sys.after, hck]
    exact ⟨hq, fun _ => by simp, fun hn => (hn ⟨rfl, rfl⟩).elim⟩
  | checkGp =>
    obtain rfl := Option.some.inj hst
    rw [h.check]
    exact ⟨h, fun hn => hn.elim, fun _ => rfl⟩
  | readLock =>
    obtain rfl := Option.some.inj hst
    exact ⟨⟨h.gpActive, h.stage₀, h.stage₁, h.invoked⟩, fun hn => hn.elim, fun _ => rfl⟩
  | readUnlock n =>
    simp only [Rcu.step] at hst
    split at hst
    · obtain rfl := Option.some.inj hst
      exact ⟨⟨h.gpActive, h.stage₀, h.stage₁, h.invoked⟩, fun hn => hn.elim, fun _ => rfl⟩
    · cases hst

/-- The queue is empty after a run exactly when no call of it queued a callback. -/
theorem Stuck.run {is : List Call} {s t : Sys} (h : Stuck s) (hr : run Rcu.step s is = some t) :
    Stuck t ∧ (t.queued = [] ↔ s.queued = [] ∧ ∀ i ∈ is, ¬ i.Queues) := by
  induction is generalizing s with
  | nil =>
    obtain rfl := Option.some.inj hr
    exact ⟨h, by simp⟩
  | cons i is ih =>
    obtain ⟨u, hu, hr⟩ := Option.bind_eq_some_iff.mp hr
    obtain ⟨hsu, hq, hnq⟩ := h.step hu
    obtain ⟨ht, hiff⟩ := ih hsu hr
    refine ⟨ht, hiff.trans ?_⟩
    by_cases hi : i.Queues
    · simp [hq hi, hi]
    · simp [hnq hi, hi]

/-- Callbacks are never early and never twice; but three checks, with no reader inside, invoke all that was queued only
if nothing ever was. -/
theorem callbacks_of_run {is : List Call} {s : Sys} (h : run step .init is = some s) :
    NeverEarly s ∧ AtMostOnce s ∧
      ((s.active = [] → AllInvoked s.drain) ↔ (s.active ≠ [] ∨ ∀ i ∈ is, ¬ i.Queues)) := by
  obtain ⟨hs, hiff⟩ := stuck_init.run h
  refine ⟨by simp [NeverEarly, hs.invoked], by simp [AtMostOnce, hs.invoked], ?_⟩
  have hall : AllInvoked s.drain ↔ s.queued = [] := by
    rw [hs.drain]
    simp [AllInvoked, hs.invoked, List.eq_nil_iff_forall_not_mem]
  rw [hall, hiff]
  simp [Sys.init, imp_iff_not_or]

theorem callbacks_of_run_one :
    ∃ s, run step .init [.readLock, .checkGp, .readUnlock 0] = some s ∧ s.active = [] ∧ AllInvoked s.drain := by
  obtain ⟨s, hs⟩ : ∃ s, run step .init [.readLock, .checkGp, .readUnlock 0] = some s := ⟨_, rfl⟩
  have hact : s.active = [] := by
    obtain rfl := Option.some.inj hs
    rfl
  exact ⟨s, hs, hact, (callbacks_of_run hs).2.2.mpr (.inr (by simp [Call.Queues])) hact⟩

/-- A callback that is queued when no reader is inside is not invoked by three checks. -/
theorem queued_callback_waits :
    ∃ s, run step .init [.callRcu (some 4096) (some 8192) 0] = some s ∧ s.active = [] ∧ ¬ AllInvoked s.drain := by
  refine ⟨_, rfl, rfl, ?_⟩
  simp [AllInvoked, Sys.drain, Sys.after, Sys.init, callRcu, rcuAddCb, rcuCheckGp, startGp, rcuInit, CbList.empty]

end Rcu
