import Mathlib.Data.Option.Basic
import Mathlib.Data.List.Basic

/-!
# Runs of a partial step function

A system is a step function `step : σ → ι → Option σ`; `none` is a step that does not return (a fault,
or an input the environment never gives). A run takes a list of inputs one after the other. `Reach`
collects the states that runs visit when every input meets a condition `ok` on the state before it,
and `Reach.invariant` is the rule every safety result of this development goes through.
-/

namespace Run

variable {σ ι : Type*}

/-- The state after a list of inputs, or `none` if some step does not return. -/
def run (step : σ → ι → Option σ) : σ → List ι → Option σ
  | s, [] => some s
  | s, i :: is => (step s i).bind fun t => run step t is

section

variable {step : σ → ι → Option σ}

@[simp] theorem run_nil (s : σ) : run step s [] = some s := rfl

theorem run_cons {s t : σ} {i : ι} (h : step s i = some t) (is : List ι) :
    run step s (i :: is) = run step t is := by
  simp [run, h]

theorem run_append (s : σ) (is js : List ι) :
    run step s (is ++ js) = (run step s is).bind fun t => run step t js := by
  induction is generalizing s with
  | nil => rfl
  | cons i is ih =>
    cases h : step s i with
    | none => simp [run, h]
    | some t => simp [run, h, ih]

end

/-- The states visited from `s₀` by steps whose input meets `ok` in the state before it. -/
inductive Reach (step : σ → ι → Option σ) (ok : σ → ι → Prop) (s₀ : σ) : σ → Prop where
  | start : Reach step ok s₀ s₀
  | step {s t : σ} (i : ι) (h : Reach step ok s₀ s) (hok : ok s i) (hst : step s i = some t) :
      Reach step ok s₀ t

section

variable {step : σ → ι → Option σ} {ok : σ → ι → Prop} {s₀ : σ}

/-- A property of the first state that every allowed step keeps holds in every state visited. -/
theorem Reach.invariant {I : σ → Prop} (h₀ : I s₀)
    (hstep : ∀ s i t, I s → ok s i → step s i = some t → I t) {s : σ}
    (h : Reach step ok s₀ s) : I s := by
  induction h with
  | start => exact h₀
  | step i _ hok hst ih => exact hstep _ i _ ih hok hst

theorem Reach.mono {ok' : σ → ι → Prop} (hok : ∀ s i, ok s i → ok' s i) {s : σ}
    (h : Reach step ok s₀ s) : Reach step ok' s₀ s := by
  induction h with
  | start => exact .start
  | step i _ hi hst ih => exact .step i ih (hok _ i hi) hst

/-- Every input of a run meets the condition in the state before it. -/
def Meets (step : σ → ι → Option σ) (ok : σ → ι → Prop) : σ → List ι → Prop
  | _, [] => True
  | s, i :: is => ok s i ∧ ∀ t, step s i = some t → Meets step ok t is

/-- A run whose inputs meet the condition visits its last state. -/
theorem Reach.of_run_meets {is : List ι} {s t : σ} (h : Reach step ok s₀ s) (hm : Meets step ok s is)
    (hr : run step s is = some t) : Reach step ok s₀ t := by
  induction is generalizing s with
  | nil => exact Option.some.inj hr ▸ h
  | cons i is ih =>
    obtain ⟨u, hu, hr⟩ := Option.bind_eq_some_iff.mp hr
    exact ih (h.step i hm.1 hu) (hm.2 u hu) hr

/-- The property holds in the first state and after every step that returns. -/
def Always (step : σ → ι → Option σ) (P : σ → Prop) : σ → List ι → Prop
  | s, [] => P s
  | s, i :: is => P s ∧ ∀ t, step s i = some t → Always step P t is

theorem Always.start {P : σ → Prop} {s : σ} {is : List ι} (h : Always step P s is) : P s := by
  cases is with
  | nil => exact h
  | cons i is => exact h.1

/-- What holds after every step of a run holds in its last state. -/
theorem Always.last {P : σ → Prop} {s t : σ} {is : List ι} (h : Always step P s is) (hrun : run step s is = some t) :
    P t := by
  induction is generalizing s with
  | nil => exact Option.some.inj hrun ▸ h
  | cons i is ih =>
    obtain ⟨u, hu, hrun⟩ := Option.bind_eq_some_iff.mp hrun
    exact ih (h.2 u hu) hrun

/-- What an invariant implies holds throughout every run. -/
theorem always_of_invariant {P I : σ → Prop} (himp : ∀ s, I s → P s) (hstep : ∀ s i t, I s → step s i = some t → I t)
    {is : List ι} {s : σ} (h : I s) : Always step P s is := by
  induction is generalizing s with
  | nil => exact himp s h
  | cons i is ih => exact ⟨himp s h, fun t ht => ih (hstep s i t h ht)⟩

/-- Where `P` survives a step exactly if its input meets `ok`, a completed run has `P` throughout exactly if
all its inputs meet `ok`. -/
theorem always_iff_meets {P I : σ → Prop} (hstep : ∀ s i t, P s → I s → step s i = some t → I t ∧ (P t ↔ ok s i))
    {is : List ι} {s t : σ} (hP : P s) (hI : I s) (hrun : run step s is = some t) :
    Always step P s is ↔ Meets step ok s is := by
  induction is generalizing s with
  | nil => exact iff_of_true hP trivial
  | cons i is ih =>
    obtain ⟨u, hu, hrun⟩ := Option.bind_eq_some_iff.mp hrun
    obtain ⟨hIu, hiff⟩ := hstep s i u hP hI hu
    constructor
    · intro halways
      have hPu : P u := (halways.2 u hu).start
      refine ⟨hiff.mp hPu, fun v hv => ?_⟩
      obtain rfl : u = v := Option.some.inj (hu.symm.trans hv)
      exact (ih hPu hIu hrun).mp (halways.2 u hu)
    · intro hmeets
      have hPu : P u := hiff.mpr hmeets.1
      refine ⟨hP, fun v hv => ?_⟩
      obtain rfl : u = v := Option.some.inj (hu.symm.trans hv)
      exact (ih hPu hIu hrun).mpr (hmeets.2 u hu)

/-- A run of unrestricted inputs visits its last state. -/
theorem Reach.of_run {is : List ι} {s t : σ} (h : Reach step (fun _ _ => True) s₀ s)
    (hr : run step s is = some t) : Reach step (fun _ _ => True) s₀ t := by
  induction is generalizing s with
  | nil => rw [← Option.some.inj hr]; exact h
  | cons i is ih =>
    obtain ⟨u, hu, hr⟩ := Option.bind_eq_some_iff.mp hr
    exact ih (h.step i trivial hu) hr

end

/-- What a machine with outputs gives for a list of inputs, and the state after them. -/
def outputs {ω : Type*} (step : σ → ι → ω × σ) : σ → List ι → List ω × σ
  | s, [] => ([], s)
  | s, i :: is => ((step s i).1 :: (outputs step (step s i).2 is).1, (outputs step (step s i).2 is).2)

/-- A machine whose every allowed step gives what another gives, in the state that it stands for, gives what that one
gives for every list of allowed inputs. -/
theorem outputs_simulates {τ ω : Type*} {step : σ → ι → ω × σ} {astep : τ → ι → ω × τ} {abs : σ → τ} {ok : ι → Prop}
    (h : ∀ s i, ok i → astep (abs s) i = ((step s i).1, abs (step s i).2)) {is : List ι} (hok : ∀ i ∈ is, ok i)
    (s : σ) : outputs astep (abs s) is = ((outputs step s is).1, abs (outputs step s is).2) := by
  induction is generalizing s with
  | nil => rfl
  | cons i is ih =>
    obtain ⟨hi, hrest⟩ := List.forall_mem_cons.mp hok
    unfold outputs
    rw [h s i hi, ih hrest]

/-- What every allowed step keeps, every list of allowed inputs keeps. -/
theorem outputs_invariant {ω : Type*} {step : σ → ι → ω × σ} {ok : ι → Prop} {I : σ → Prop}
    (h : ∀ s i, ok i → I s → I (step s i).2) {is : List ι} (hok : ∀ i ∈ is, ok i) {s : σ} (hs : I s) :
    I (outputs step s is).2 := by
  induction is generalizing s with
  | nil => exact hs
  | cons i is ih =>
    obtain ⟨hi, hrest⟩ := List.forall_mem_cons.mp hok
    exact ih hrest (h s i hi hs)

end Run
