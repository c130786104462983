import Kenux.Cfs.RunQueue

/-!
# Where vruntimes wrap

`cfs_enqueue_task` takes four latencies from a `min_vruntime` that is 0 until the first task is queued.
-/

namespace Cfs

open RbTree Run
open Function (update_self update_of_ne)

variable {α : Type*} [DecidableEq α] {rq rq' : Rq α} {t t' : Traced α} {a : α} {w delta d : UInt64} {fuel : ℕ}
  {ops : List (RqOp α)}

/-! ## One call of `cfs_enqueue_task` -/

theorem enqueue_vruntime (h : cfsEnqueueTask fuel rq a = some rq') : (rq'.task a).vruntime =
    if (rq.task a).onRq = true ∨ rq.floor ≤ (rq.task a).vruntime then (rq.task a).vruntime else rq.floor := by
  unfold cfsEnqueueTask at h
  split_ifs at h with hon hlt
  · obtain rfl := Option.some.inj h
    rw [if_pos (.inl hon)]
  · obtain ⟨timeline, -, h⟩ := Option.bind_eq_some_iff.mp h
    obtain rfl := Option.some.inj h
    have hnot : ¬((rq.task a).onRq = true ∨ rq.floor ≤ (rq.task a).vruntime) :=
      not_or.mpr ⟨hon, UInt64.not_le.mpr hlt⟩
    rw [if_neg hnot]
    show (Function.update (Function.update rq.task a _) a _ a).vruntime = rq.floor
    rw [update_self]
    show (Function.update rq.task a _ a).vruntime = rq.floor
    rw [update_self]
  · obtain ⟨timeline, -, h⟩ := Option.bind_eq_some_iff.mp h
    obtain rfl := Option.some.inj h
    rw [if_pos (.inr (UInt64.not_lt.mp hlt))]
    show (Function.update rq.task a _ a).vruntime = (rq.task a).vruntime
    rw [update_self]

/-- The call raises the vruntime too far exactly if the subtraction wraps and the vruntime is below the result. -/
theorem enqueue_le_iff (h : cfsEnqueueTask fuel rq a = some rq') :
    (rq'.task a).vruntime.toNat ≤ max (rq.task a).vruntime.toNat rq.minVruntime.toNat ↔
      (rq.task a).onRq = true ∨ (targetLatency * 4).toNat ≤ rq.minVruntime.toNat ∨ rq.floor ≤ (rq.task a).vruntime := by
  rw [enqueue_vruntime h]
  have hlatency : (targetLatency * 4).toNat = 24000000 := rfl
  have hmin := rq.minVruntime.toNat_lt
  have hfloor : rq.floor.toNat = (2 ^ 64 - 24000000 + rq.minVruntime.toNat) % 2 ^ 64 := by
    unfold Rq.floor
    rw [UInt64.toNat_sub, hlatency]
  rw [hlatency]
  by_cases hkeep : (rq.task a).onRq = true ∨ rq.floor ≤ (rq.task a).vruntime
  · rw [if_pos hkeep]
    exact iff_of_true (Nat.le_max_left _ _) (hkeep.imp_right .inr)
  · rw [if_neg hkeep]
    obtain ⟨hon, hlt⟩ := not_or.mp hkeep
    rw [or_iff_right hon, or_iff_left hlt]
    rw [UInt64.le_iff_toNat_le] at hlt
    omega

/-! ## Runs without a queued task -/

theorem cfsNiceToWeight_ge (nice : ℤ) : 15 ≤ (cfsNiceToWeight nice).toNat := by
  have hall : ∀ w ∈ niceToWeight, 15 ≤ w.toNat := by simp [niceToWeight]
  have hlen : niceToWeight.length = 40 := rfl
  unfold cfsNiceToWeight
  dsimp only
  have hlt : ((if (if nice < -20 then -20 else nice) > 19 then 19 else if nice < -20 then -20 else nice) + 20).toNat <
      niceToWeight.length := by
    rw [hlen]
    split_ifs <;> omega
  rw [List.getD_eq_getElem?_getD, List.getElem?_eq_getElem hlt]
  exact hall _ (List.getElem_mem hlt)

/-- Without an overflow the code computes the weighted time. -/
theorem deltaExec_toNat (h : deltaExec w delta = some d) (hdelta : delta.toNat * 1024 < 2 ^ 64) :
    d.toNat = weighted w delta := by
  have hload : nice0Load.toNat = 1024 := rfl
  unfold deltaExec at h
  unfold weighted
  split_ifs at h with hw hzero
  · obtain rfl := Option.some.inj h
    rw [hw, hload, Nat.mul_div_cancel _ (by omega)]
  · obtain rfl := Option.some.inj h
    rw [UInt64.toNat_div, UInt64.toNat_mul, hload, Nat.mod_eq_of_lt hdelta]

theorem weighted_le (hw : 15 ≤ w.toNat) : weighted w delta ≤ 69 * delta.toNat := by
  unfold weighted
  refine Nat.div_le_of_le_mul ?_
  calc delta.toNat * 1024 ≤ 15 * (69 * delta.toNat) := by omega
    _ ≤ w.toNat * (69 * delta.toNat) := Nat.mul_le_mul_right _ hw

/-- No task has joined, and the vruntimes have room for the time still to be charged. -/
structure Idle (t : Traced α) (ops : List (RqOp α)) : Prop where
  off : ∀ a, (t.rq.task a).onRq = false
  weight : ∀ a, 15 ≤ (t.rq.task a).loadWeight.toNat
  room : ∀ a, (t.rq.task a).vruntime.toNat + 69 * charged a ops < 2 ^ 47
  root : t.rq.timeline.root = none
  curr : t.rq.curr = none
  min : t.rq.minVruntime = 0
  joined : t.joined = []

theorem Idle.fair (h : Idle t ops) : Fair t := by
  intro a b hsub
  rw [h.joined] at hsub
  cases hsub

/-- One task gets other fields. -/
theorem Idle.setTask {op : RqOp α} {e : Task} {r : α → ℕ} (clock : UInt64) (h : Idle t (op :: ops))
    (hle : ∀ b, charged b ops ≤ charged b (op :: ops)) (hoff : e.onRq = false) (hweight : 15 ≤ e.loadWeight.toNat)
    (hroom : e.vruntime.toNat + 69 * charged a ops < 2 ^ 47) :
    Idle ⟨{ t.rq.setTask a e with execClock := clock }, r, t.joined⟩ ops := by
  refine ⟨fun b => ?_, fun b => ?_, fun b => ?_, h.root, h.curr, h.min, h.joined⟩
  · show (Function.update t.rq.task a e b).onRq = false
    by_cases hb : b = a
    · rw [hb, update_self]
      exact hoff
    · rw [update_of_ne hb]
      exact h.off b
  · show 15 ≤ (Function.update t.rq.task a e b).loadWeight.toNat
    by_cases hb : b = a
    · rw [hb, update_self]
      exact hweight
    · rw [update_of_ne hb]
      exact h.weight b
  · show (Function.update t.rq.task a e b).vruntime.toNat + _ < _
    by_cases hb : b = a
    · rw [hb, update_self]
      exact hroom
    · rw [update_of_ne hb]
      have hold := h.room b
      have hless := hle b
      omega

theorem Idle.tail {op : RqOp α} (h : Idle t (op :: ops)) (hle : ∀ b, charged b ops ≤ charged b (op :: ops)) :
    Idle t ops := by
  refine ⟨h.off, h.weight, fun b => ?_, h.root, h.curr, h.min, h.joined⟩
  have hold := h.room b
  have hless := hle b
  omega

/-- A step that puts no task on the queue wraps nowhere. -/
theorem Idle.step {op : RqOp α} (h : Idle t (op :: ops)) (hop : ∀ a, op ≠ .enqueue a)
    (hstep : tracedStep fuel t op = some t') : Idle t' ops ∧ NoWrap t op ∧ LeavesOff t op := by
  obtain ⟨rq', hrq, rfl⟩ := Option.map_eq_some_iff.mp hstep
  cases op with
  | taskInit a nice =>
    have hrq : (if (t.rq.task a).onRq then none else some (t.rq.setTask a (cfsTaskInit t.rq.minVruntime nice))) =
        some rq' := hrq
    rw [h.off a, if_neg (by decide)] at hrq
    obtain rfl := Option.some.inj hrq
    refine ⟨?_, trivial, trivial⟩
    have hjoined : t.joined.erase a = t.joined := by
      rw [h.joined]
      rfl
    show Idle ⟨_, _, t.joined.erase a⟩ ops
    rw [hjoined]
    refine h.setTask t.rq.execClock (fun b => le_refl _) rfl (cfsNiceToWeight_ge nice) ?_
    have hold := h.room a
    have hzero : t.rq.minVruntime.toNat = 0 := by
      rw [h.min]
      rfl
    have hsame : charged a (RqOp.taskInit a nice :: ops) = charged a ops := rfl
    show t.rq.minVruntime.toNat + _ < _
    omega
  | enqueue a => exact absurd rfl (hop a)
  | dequeue a =>
    have hrq : cfsDequeueTask fuel t.rq a = some rq' := hrq
    unfold cfsDequeueTask at hrq
    rw [h.off a, if_neg (by decide)] at hrq
    obtain rfl := Option.some.inj hrq
    exact ⟨h.tail fun b => le_refl _, trivial, trivial⟩
  | accountExec a delta =>
    obtain ⟨d, hd, rfl⟩ := Option.map_eq_some_iff.mp hrq
    have hroom := h.room a
    have hsplit : charged a (RqOp.accountExec a delta :: ops) = delta.toNat + charged a ops := by
      show (if a = a then delta.toNat else 0) + _ = _
      rw [if_pos rfl]
    have hle : ∀ b, charged b ops ≤ charged b (RqOp.accountExec a delta :: ops) := fun b => Nat.le_add_left _ _
    have hmul : delta.toNat * 1024 < 2 ^ 64 := by omega
    have hweighted : weighted (t.rq.task a).loadWeight delta ≤ 69 * delta.toNat := weighted_le (h.weight a)
    have hd := deltaExec_toNat hd hmul
    refine ⟨h.setTask _ hle (h.off a) (h.weight a) ?_, ⟨by omega, hmul⟩, trivial⟩
    show ((t.rq.task a).vruntime + d).toNat + _ < _
    rw [UInt64.toNat_add, hd]
    omega
  | updateMin =>
    have hrq : cfsUpdateMinVruntime fuel t.rq = some rq' := hrq
    unfold cfsUpdateMinVruntime rbtreeMin at hrq
    rw [h.root, if_pos rfl, Option.bind_eq_bind, Option.bind_some] at hrq
    have hcurr : (t.rq.raise none).curr = none := h.curr
    dsimp only at hrq
    rw [hcurr] at hrq
    obtain rfl := Option.some.inj hrq
    exact ⟨h.tail fun b => le_refl _, trivial, trivial⟩

theorem idle_iff {u : Traced α} (h : Idle t ops) (hrun : run (tracedStep fuel) t ops = some u) :
    (Meets (tracedStep fuel) NoWrap t ops ∧ Always (tracedStep fuel) Fair t ops) ↔
      Meets (tracedStep fuel) LeavesOff t ops := by
  induction ops generalizing t with
  | nil => exact iff_of_true ⟨trivial, h.fair⟩ trivial
  | cons op ops ih =>
    obtain ⟨t₁, ht₁, hrun⟩ := Option.bind_eq_some_iff.mp hrun
    by_cases hop : ∀ a, op ≠ .enqueue a
    · obtain ⟨h₁, hnowrap, hleaves⟩ := h.step hop ht₁
      have hall : ∀ {P : Traced α → Prop}, P t₁ ↔ ∀ v, tracedStep fuel t op = some v → P v := by
        intro P
        constructor
        · intro hP v hv
          obtain rfl : t₁ = v := Option.some.inj (ht₁.symm.trans hv)
          exact hP
        · exact fun hP => hP t₁ ht₁
      have hiff := ih h₁ hrun
      constructor
      · rintro ⟨⟨-, hmeets⟩, -, halways⟩
        exact ⟨hleaves, hall.mp (hiff.mp ⟨hmeets t₁ ht₁, halways t₁ ht₁⟩)⟩
      · rintro ⟨-, hmeets⟩
        obtain ⟨hwrap, halways⟩ := hiff.mpr (hmeets t₁ ht₁)
        exact ⟨⟨hnowrap, hall.mp hwrap⟩, h.fair, hall.mp halways⟩
    · -- the first task on the queue: `min_vruntime` is still 0
      obtain ⟨a, ha⟩ := not_forall.mp hop
      obtain rfl := not_not.mp ha
      have hoff := h.off a
      refine iff_of_false ?_ ?_
      · rintro ⟨⟨hwrap, -⟩, -⟩
        have hwrap : (t.rq.task a).onRq = true ∨ (targetLatency * 4).toNat ≤ t.rq.minVruntime.toNat := hwrap
        rw [hoff, h.min] at hwrap
        exact absurd hwrap (by decide)
      · rintro ⟨hleaves, -⟩
        have hleaves : (t.rq.task a).onRq = true := hleaves
        rw [hoff] at hleaves
        cases hleaves

/-- The system after `cfs_init`, with a nice value for each task. -/
def startTraced (node : Option α → Node α) (nice : α → ℤ) : Traced α :=
  ⟨cfsInit node fun a => cfsTaskInit 0 (nice a), fun _ => 0, []⟩

/-- A call of `cfs_enqueue_task` keeps to its bound exactly if the task is queued, the subtraction does not
wrap, or the vruntime is not below the wrapped result; and a completed run is free of overflows and fair exactly
if it puts no task on the queue. -/
theorem cfs_vruntime_iff :
    (∀ (fuel : ℕ) (rq rq' : Rq α) (a : α), cfsEnqueueTask fuel rq a = some rq' →
      ((rq'.task a).vruntime.toNat ≤ max (rq.task a).vruntime.toNat rq.minVruntime.toNat ↔
        (rq.task a).onRq = true ∨ (targetLatency * 4).toNat ≤ rq.minVruntime.toNat ∨
          rq.floor ≤ (rq.task a).vruntime)) ∧
    ∀ (fuel : ℕ) (node : Option α → Node α) (nice : α → ℤ) (ops : List (RqOp α)) (t : Traced α),
      (∀ a, charged a ops < 2 ^ 40) → run (tracedStep fuel) (startTraced node nice) ops = some t →
      ((Meets (tracedStep fuel) NoWrap (startTraced node nice) ops ∧
          Always (tracedStep fuel) Fair (startTraced node nice) ops) ↔
        Meets (tracedStep fuel) LeavesOff (startTraced node nice) ops) := by
  refine ⟨fun fuel rq rq' a h => enqueue_le_iff h, fun fuel node nice ops t hcharged hrun => idle_iff ?_ hrun⟩
  refine ⟨fun a => rfl, fun a => cfsNiceToWeight_ge (nice a), fun a => ?_, rfl, rfl, rfl, rfl⟩
  have hbound := hcharged a
  show (0 : UInt64).toNat + _ < _
  have hzero : (0 : UInt64).toNat = 0 := rfl
  omega

/-- Two tasks of nice value 0. -/
def twoTasks : Traced ℕ := startTraced (fun _ => ⟨fun _ => none, none, .red⟩) fun _ => 0

theorem cfs_vruntime_two :
    (∃ rq', cfsEnqueueTask 2 { twoTasks.rq with minVruntime := 30000000 } 0 = some rq' ∧
      ((rq'.task 0).vruntime.toNat ≤ max 0 30000000 ↔ false = true ∨ 24000000 ≤ 30000000 ∨
        (6000000 : UInt64) ≤ 0)) ∧
      ((Meets (tracedStep 2) NoWrap twoTasks [.accountExec 0 1000] ∧
          Always (tracedStep 2) Fair twoTasks [.accountExec 0 1000]) ↔
        Meets (tracedStep 2) LeavesOff twoTasks [.accountExec 0 1000]) := by
  obtain ⟨hcall, hruns⟩ := cfs_vruntime_iff (α := ℕ)
  refine ⟨⟨_, rfl, hcall 2 { twoTasks.rq with minVruntime := 30000000 } _ 0 rfl⟩, ?_⟩
  refine hruns 2 _ _ [.accountExec 0 1000] _ (fun a => ?_) rfl
  show (if 0 = a then 1000 else 0) + 0 < 2 ^ 40
  split_ifs <;> omega

/-- The first task that is queued is lifted to the top of the range; after 24 ms it is at the bottom, below
another task that has not run at all. -/
theorem cfs_vruntime_wraps :
    (¬∀ (rq rq' : Rq ℕ) (a : ℕ), cfsEnqueueTask 2 rq a = some rq' →
      (rq'.task a).vruntime.toNat ≤ max (rq.task a).vruntime.toNat rq.minVruntime.toNat) ∧
    ¬∀ (ops : List (RqOp ℕ)) (t : Traced ℕ), (∀ a, charged a ops < 2 ^ 40) →
      run (tracedStep 4) twoTasks ops = some t → Always (tracedStep 4) Fair twoTasks ops := by
  constructor
  · intro hclaim
    exact absurd (hclaim twoTasks.rq _ 0 rfl) (by decide)
  · intro hclaim
    have halways := hclaim [.enqueue 0, .enqueue 1, .accountExec 0 25000000] _ (fun a => ?_) rfl
    · obtain ⟨-, halways⟩ := halways
      obtain ⟨-, halways⟩ := halways _ rfl
      obtain ⟨-, halways⟩ := halways _ rfl
      have hfair := (halways _ rfl) 1 0 (List.Sublist.refl _) (by decide)
      exact hfair (by decide)
    · show (if 0 = a then 25000000 else 0) + 0 < 2 ^ 40
      split_ifs <;> omega

end Cfs
