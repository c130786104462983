import Kenux.Ipc.Model
import Mathlib.Algebra.Order.Ring.Int

/-!
# When the semaphore operations are atomic
-/

namespace Ipc.Sem

open Run

variable {nsems : ℕ} {v w : ℕ → ℤ} {os ps : List Sembuf} {s : State}

/-- Up to the first operation that is out of range or would make a value negative no value exceeds 32767, and if
there is such an operation the values are `v` before it. -/
def Whole (nsems : ℕ) (v : ℕ → ℤ) : (ℕ → ℤ) → List Sembuf → Prop
  | _, [] => True
  | w, o :: os =>
    if o.num < nsems ∧ 0 ≤ w o.num + o.op then
      w o.num + o.op ≤ 32767 ∧ Whole nsems v (Function.update w o.num (w o.num + o.op)) os
    else w = v

/-- The operations that a process begins with, or goes on with, meet this on the values it finds; a value that is set
is between 0 and 32767. -/
def Fits (s : State) : Call → Prop
  | .semOp _ id ops => id < s.table.count → Whole (s.table.sets id).nsems (s.table.sets id).values
      (s.table.sets id).values ops
  | .resume pid => ∀ x, s.waiting pid = some x → Whole (s.table.sets x.id).nsems (s.table.sets x.id).values
      (s.table.sets x.id).values x.rest
  | .semCtl _ (.setval _ (some a)) => 0 ≤ a ∧ a ≤ 32767
  | .semCtl _ _ => True

theorem net_append (ps os : List Sembuf) (num : ℕ) : net (ps ++ os) num = net ps num + net os num := by
  induction ps with
  | nil => simp [net]
  | cons o ps ih => simp [net, ih, Int.add_assoc]

theorem int16_of_range {a : ℤ} (h₀ : 0 ≤ a) (h₁ : a ≤ 32767) : int16 a = a := by
  unfold int16
  have hmod : a % ((2 ^ 16 : ℕ) : ℤ) = a := by omega
  rw [Int.bmod_eq_emod_of_lt (by omega), hmod]

theorem update_net (o : Sembuf) (w : ℕ → ℤ) :
    Function.update w o.num (w o.num + o.op) = fun num => w num + net [o] num := by
  funext num
  by_cases h : num = o.num
  · subst h
    simp [net]
  · simp [net, h]

/-- A section that meets the condition applies all that it was to do, or leaves the values as they were at first. -/
theorem loop_whole (hw : Whole nsems v w os) (hrange : ∀ num, 0 ≤ w num ∧ w num ≤ 32767) :
    (∀ num, 0 ≤ (loop nsems os w).1 num ∧ (loop nsems os w).1 num ≤ 32767) ∧
    match (loop nsems os w).2 with
    | .returns true => (loop nsems os w).1 = fun num => w num + net os num
    | .returns false => (loop nsems os w).1 = v
    | .waits rest => (loop nsems os w).1 = v ∧ ∃ ps, os = ps ++ rest ∧ v = fun num => w num + net ps num := by
  induction os generalizing w with
  | nil => exact ⟨hrange, by simp [loop, net]⟩
  | cons o os ih =>
    unfold Whole at hw
    unfold loop
    by_cases hnum : o.num ≥ nsems
    · rw [if_pos hnum]
      rw [if_neg fun h => absurd h.1 (by omega)] at hw
      exact ⟨hrange, hw⟩
    · rw [if_neg hnum]
      dsimp only
      by_cases hneg : w o.num + o.op < 0
      · rw [if_pos hneg]
        rw [if_neg fun h => absurd h.2 (by omega)] at hw
        split_ifs
        · exact ⟨hrange, hw⟩
        · exact ⟨hrange, hw, [], rfl, by simp [net, hw]⟩
      · rw [if_neg hneg]
        rw [if_pos ⟨by omega, by omega⟩] at hw
        obtain ⟨hle, hw⟩ := hw
        rw [int16_of_range (by omega) hle]
        have hrange' (num : ℕ) : 0 ≤ Function.update w o.num (w o.num + o.op) num ∧
            Function.update w o.num (w o.num + o.op) num ≤ 32767 := by
          by_cases h : num = o.num
          · subst h
            rw [Function.update_self]
            omega
          · rw [Function.update_of_ne h]
            exact hrange num
        obtain ⟨hfinal, hmatch⟩ := ih hw hrange'
        refine ⟨hfinal, ?_⟩
        rw [update_net] at hmatch ⊢
        cases hout : (loop nsems os fun num => w num + net [o] num).2 with
        | returns ok =>
          rw [hout] at hmatch
          cases ok with
          | false => exact hmatch
          | true =>
            dsimp only at hmatch ⊢
            rw [hmatch]
            funext num
            simp [net, Int.add_assoc]
        | waits rest =>
          rw [hout] at hmatch
          obtain ⟨hv, ps, rfl, hps⟩ := hmatch
          refine ⟨hv, o :: ps, rfl, ?_⟩
          rw [hps]
          funext num
          simp [net, Int.add_assoc]

theorem History.inRange {t u : Table} {events : List Event} (h : History t events u) : InRange u := by
  cases h with
  | start h => exact h
  | snoc _ _ hu => exact hu

/-- Each process that waits has done operations that changed nothing together. -/
def Idle (x : Waiter) : Prop := ∃ ps, x.ops = ps ++ x.rest ∧ ∀ num, net ps num = 0

/-- The events so far are atomic, and what is done of each waiting call is nothing. -/
def Inv (t : Table) (s : State) : Prop :=
  History t s.events s.table ∧ ∀ pid x, s.waiting pid = some x → Idle x

theorem inRange_setValues {t : Table} (h : InRange t) (id : ℕ) (hv : ∀ num, 0 ≤ v num ∧ v num ≤ 32767) :
    InRange (t.setValues id v) := by
  intro i num
  by_cases hi : i = id
  · subst hi
    simpa [Table.setValues] using hv num
  · simpa [Table.setValues, hi] using h i num

theorem setValues_self (t : Table) (id : ℕ) : t.setValues id (t.sets id).values = t :=
  congrArg (fun sets => { t with sets := sets }) (Function.update_eq_self id t.sets)

theorem inv_underLock {t : Table} (h : Inv t s) (pid id : ℕ) {ops rest : List Sembuf} (hidle : Idle ⟨id, ops, rest⟩)
    (hw : Whole (s.table.sets id).nsems (s.table.sets id).values (s.table.sets id).values rest) :
    Inv t (underLock pid id ops rest s) := by
  obtain ⟨hhist, hwait⟩ := h
  have hin := hhist.inRange
  obtain ⟨hrange, hmatch⟩ := loop_whole hw (hin id)
  obtain ⟨ps, hops, hnet⟩ := hidle
  dsimp only at hops
  have hin' := inRange_setValues hin id hrange
  have hsame (hv : (loop (s.table.sets id).nsems rest (s.table.sets id).values).1 = (s.table.sets id).values) :
      s.table.setValues id (loop (s.table.sets id).nsems rest (s.table.sets id).values).1 = s.table := by
    rw [hv]
    exact setValues_self s.table id
  unfold underLock
  dsimp only
  cases hout : (loop (s.table.sets id).nsems rest (s.table.sets id).values).2 with
  | returns ok =>
    rw [hout] at hmatch
    have hwait' : ∀ p x, Function.update s.waiting pid none p = some x → Idle x := by
      intro p x hx
      by_cases hp : p = pid
      · simp [hp] at hx
      · exact hwait p x (by simpa [hp] using hx)
    cases ok with
    | true =>
      refine ⟨?_, hwait'⟩
      have hall : (loop (s.table.sets id).nsems rest (s.table.sets id).values).1 =
          fun num => (s.table.sets id).values num + net ops num := by
        rw [hmatch]
        funext num
        rw [hops, net_append, hnet, Int.zero_add]
      rw [hall] at hin' ⊢
      exact hhist.snoc (.applied pid id ops) hin'
    | false =>
      refine ⟨?_, hwait'⟩
      rw [hsame hmatch]
      exact hhist.snoc (.failed pid id ops) hin
  | waits left =>
    rw [hout] at hmatch
    obtain ⟨hv, qs, hqs, hback⟩ := hmatch
    refine ⟨?_, fun p x hx => ?_⟩
    · rw [hsame hv]
      exact hhist.snoc (.waits pid id ops) hin
    · by_cases hp : p = pid
      · subst hp
        simp only [Function.update_self, Option.some.injEq] at hx
        subst hx
        refine ⟨ps ++ qs, by rw [hops, hqs, List.append_assoc], fun num => ?_⟩
        have hzero := congrFun hback num
        rw [net_append, hnet]
        omega
      · exact hwait p x (by simpa [hp] using hx)

theorem inRange_semCtl {t : Table} (h : InRange t) (id : ℕ) (cmd : Cmd)
    (hset : ∀ semnum a, cmd = .setval semnum (some a) → 0 ≤ a ∧ a ≤ 32767) : InRange (semCtl id cmd t).2 := by
  unfold semCtl
  split_ifs
  · exact h
  · cases cmd with
    | remove =>
      intro i num
      by_cases hi : i = id
      · simp [hi]
      · simpa [hi] using h i num
    | setval semnum arg =>
      cases arg with
      | none => exact h
      | some a =>
        obtain ⟨h₀, h₁⟩ := hset semnum a rfl
        dsimp only
        split_ifs
        · refine inRange_setValues h id fun num => ?_
          by_cases hnum : num = semnum
          · subst hnum
            simpa [int16_of_range h₀ h₁] using ⟨h₀, h₁⟩
          · simpa [hnum] using h id num
        · exact h
    | getval semnum arg => dsimp only; split_ifs <;> exact h
    | getall arg => dsimp only; split_ifs <;> exact h
    | other => exact h

/-- From any table with its values in range and no process waiting, in every run of calls that meet the condition the
calls are atomic and all values stay in range. -/
theorem sem_atomic (t : Table) (ht : InRange t) (s : State) (hrun : Reach step Fits ⟨t, fun _ => none, []⟩ s) :
    History t s.events s.table := by
  have hstart : Inv t ⟨t, fun _ => none, []⟩ := ⟨.start ht, fun _ _ h => nomatch h⟩
  have hinv : Inv t s := by
    refine hrun.invariant hstart fun s c s' hs hc hstep => ?_
    cases c with
    | semOp pid id ops =>
      unfold step at hstep
      cases hp : s.waiting pid with
      | some x => simp [hp] at hstep
      | none =>
        simp only [hp] at hstep
        split_ifs at hstep with hid
        · obtain rfl := Option.some.inj hstep
          exact ⟨hs.1.snoc (.failed pid id ops) hs.1.inRange, hs.2⟩
        · obtain rfl := Option.some.inj hstep
          exact inv_underLock hs pid id ⟨[], rfl, fun _ => rfl⟩ (hc (by omega))
    | resume pid =>
      unfold step at hstep
      cases hp : s.waiting pid with
      | none => simp [hp] at hstep
      | some x =>
        simp only [hp] at hstep
        obtain rfl := Option.some.inj hstep
        exact inv_underLock hs pid x.id (hs.2 pid x hp) (hc x hp)
    | semCtl id cmd =>
      obtain rfl := Option.some.inj hstep
      refine ⟨hs.1.snoc (.semCtl id cmd) (inRange_semCtl hs.1.inRange id cmd fun semnum a ha => ?_), hs.2⟩
      subst ha
      exact hc
  exact hinv.1

/-- One set of two semaphores, both 0. -/
def pair : Table := ⟨fun _ => ⟨2, fun _ => 0⟩, 1⟩

theorem sem_atomic_up : ∃ s, run step ⟨pair, fun _ => none, []⟩ [.semOp 1 0 [⟨0, 1, false⟩]] = some s ∧
    History pair s.events s.table := by
  obtain ⟨s, hs⟩ : ∃ s, step ⟨pair, fun _ => none, []⟩ (.semOp 1 0 [⟨0, 1, false⟩]) = some s := ⟨_, rfl⟩
  have hpair : InRange pair := by simp [InRange, pair]
  have hfits : Fits ⟨pair, fun _ => none, []⟩ (.semOp 1 0 [⟨0, 1, false⟩]) := fun _ => by
    simp [Whole, pair]
  refine ⟨s, ?_, sem_atomic pair hpair s (.step (.semOp 1 0 [⟨0, 1, false⟩]) .start hfits hs)⟩
  rw [run_cons hs, run_nil]

theorem History.snoc_inv {t u : Table} {events : List Event} {e : Event} (h : History t (events ++ [e]) u) :
    ∃ u', History t events u' ∧ Atomic u' e u := by
  generalize hes : events ++ [e] = es at h
  cases h with
  | start => simp at hes
  | snoc h he =>
    obtain ⟨rfl, heq⟩ := List.append_inj' hes rfl
    obtain rfl := List.singleton_inj.mp heq
    exact ⟨_, h, he⟩

theorem History.nil_inv {t u : Table} (h : History t [] u) : u = t := by
  generalize hes : [] = es at h
  cases h with
  | start => rfl
  | snoc => simp at hes

theorem Atomic.failed_inv {t u : Table} {pid id : ℕ} {ops : List Sembuf}
    (h : Atomic t (.semOp pid id ops (some false)) u) : u = t := by
  cases h with
  | failed => rfl

/-- A call that puts 1 to the first semaphore and cannot take 1 from the second returns -1, and the first stays 1. -/
theorem sem_not_atomic : ∃ s, run step ⟨pair, fun _ => none, []⟩ [.semOp 1 0 [⟨0, 1, false⟩, ⟨1, -1, true⟩]] = some s ∧
    s.events = [.semOp 1 0 [⟨0, 1, false⟩, ⟨1, -1, true⟩] (some false)] ∧ (s.table.sets 0).values 0 = 1 ∧
    ¬ History pair s.events s.table := by
  refine ⟨_, rfl, rfl, rfl, ?_⟩
  intro h
  obtain ⟨u, h₀, he⟩ := @History.snoc_inv _ _ [] _ h
  obtain rfl := h₀.nil_inv
  have hsame := congrArg (fun t => (t.sets 0).values 0) he.failed_inv
  exact absurd hsame (by decide)

end Ipc.Sem
