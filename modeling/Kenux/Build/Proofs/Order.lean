import Kenux.Build.Proofs.Steps

/-!
# What the scheduler starts, and when (`buildsystem/core/runner.py`)

A target is submitted when its set of dependencies has become empty, and a name leaves these sets when the scheduling
thread has seen its future finish.
-/

namespace Build

open Function (update_self update_of_ne)

variable {p : Plan} {workers : ℕ} {s t : Sched} {f : ℕ} {name n m : String}

/-- The scheduling thread has seen the target finish. -/
def Settled (s : Sched) (m : String) : Prop :=
  ∃ f, s.futures[f]? = some m ∧ f ∉ s.running ∧ s.status f = .finished

/-- The sets of dependencies, and the targets that were submitted or are ready. -/
structure SetInv (p : Plan) (s : Sched) : Prop where
  once : (s.futures ++ s.ready).Nodup
  mem : ∀ n ∈ s.futures ++ s.ready, n ∈ p.names
  remaining : ∀ n ∈ p.names, ∀ m, m ∈ s.dependencies n ↔ m ∈ p.required n ∧ ¬ Settled s m
  avail : ∀ n ∈ p.names, n ∈ s.futures ++ s.ready ↔ s.dependencies n = []

theorem setInv_init (hnd : p.names.Nodup) : SetInv p p.init where
  once := by simpa [Plan.init] using hnd.filter _
  mem := by
    intro n hn
    have hn : n ∈ p.names.filter fun name => (p.required name).isEmpty := by simpa [Plan.init] using hn
    exact (List.mem_filter.mp hn).1
  remaining := by simp [Plan.init, Settled]
  avail := by
    intro n hn
    simp [Plan.init, hn]

/-- A change that leaves what was submitted or is ready, the sets and what is settled. -/
theorem SetInv.congr (h : SetInv p s) (hperm : (t.futures ++ t.ready).Perm (s.futures ++ s.ready))
    (hdeps : t.dependencies = s.dependencies) (hset : ∀ m, Settled t m ↔ Settled s m) : SetInv p t where
  once := hperm.nodup_iff.mpr h.once
  mem := fun n hn => h.mem n (hperm.mem_iff.mp hn)
  remaining := by
    intro n hn m
    rw [hdeps, hset, h.remaining n hn]
  avail := by
    intro n hn
    rw [hdeps, hperm.mem_iff, h.avail n hn]

/-- A target has one future. -/
theorem SetInv.future_unique (h : SetInv p s) {f f' : ℕ} (hf : s.futures[f]? = some name)
    (hf' : s.futures[f']? = some name) : f = f' := by
  obtain ⟨hlt, -⟩ := List.getElem?_eq_some_iff.mp hf
  exact (List.getElem?_inj hlt (List.nodup_append.mp h.once).1).mp (hf.trans hf'.symm)

/-- A target whose future is still running is not settled, so it stands in the sets of its dependents. -/
theorem SetInv.not_settled (h : SetInv p s) (hf : s.futures[f]? = some name) (hrun : f ∈ s.running) :
    ¬ Settled s name := by
  rintro ⟨k, hk, hnot, -⟩
  exact hnot (h.future_unique hf hk ▸ hrun)

/-- The scheduling thread takes a finished future. -/
theorem settled_erase (hq : QueueInv p s) (hname : s.futures[f]? = some name) (hfin : s.status f = .finished)
    (hfut : t.futures = s.futures) (hrun : t.running = s.running.erase f) (hstatus : t.status = s.status) (m : String) :
    Settled t m ↔ Settled s m ∨ m = name := by
  have hmem {k : ℕ} : k ∈ s.running.erase f ↔ k ≠ f ∧ k ∈ s.running := hq.running_nodup.mem_erase_iff
  unfold Settled
  rw [hfut, hrun, hstatus]
  constructor
  · rintro ⟨k, hk, hnotk, hstk⟩
    by_cases hkf : k = f
    · subst hkf
      exact .inr (Option.some.inj (hk.symm.trans hname))
    · exact .inl ⟨k, hk, fun hk' => hnotk (hmem.mpr ⟨hkf, hk'⟩), hstk⟩
  · rintro (⟨k, hk, hnotk, hstk⟩ | rfl)
    · exact ⟨k, hk, fun hk' => hnotk (hmem.mp hk').2, hstk⟩
    · exact ⟨f, hname, fun hf => (hmem.mp hf).1 rfl, hfin⟩

theorem SetInv.submit (h : SetInv p s) (hst : schedStep p workers s .submit = some t) :
    SetInv p t := by
  obtain ⟨name, hready, -, -, rfl⟩ := submit_inv hst
  refine h.congr ?_ rfl fun m => ⟨?_, ?_⟩
  · conv_rhs => rw [hready]
    dsimp only
    rw [List.append_assoc]
    exact List.Perm.append_left _ List.perm_append_comm
  · rintro ⟨f, hf, hnot, hst⟩
    dsimp only at hf hnot hst
    rw [List.mem_append, List.mem_singleton, not_or] at hnot
    obtain ⟨hlt, -⟩ := List.getElem?_eq_some_iff.mp hf
    rw [List.length_append, List.length_singleton] at hlt
    rw [List.getElem?_append_left (by omega)] at hf
    rw [update_of_ne hnot.2] at hst
    exact ⟨f, hf, hnot.1, hst⟩
  · rintro ⟨f, hf, hnot, hst⟩
    obtain ⟨hlt, -⟩ := List.getElem?_eq_some_iff.mp hf
    refine ⟨f, ?_, ?_, ?_⟩
    · exact (List.getElem?_append_left hlt).trans hf
    · simp only [List.mem_append, List.mem_singleton, not_or]
      exact ⟨hnot, by omega⟩
    · dsimp only
      rw [update_of_ne (by omega)]
      exact hst

theorem SetInv.settle {dependents : List String} (hnd : p.names.Nodup) (hq : QueueInv p s) (h : SetInv p s)
    (hst : schedStep p workers s (.settle dependents) = some t) : SetInv p t := by
  obtain ⟨f, rest, name, hplace, hname, hcase⟩ := settle_inv hst
  obtain ⟨hrun, -⟩ := (hq.batch _ hplace).2.2 f List.mem_cons_self
  have hmem {k : ℕ} : k ∈ s.running.erase f ↔ k ≠ f ∧ k ∈ s.running := hq.running_nodup.mem_erase_iff
  rcases hcase with ⟨hfin, hperm, rfl⟩ | ⟨hfin, rfl⟩
  · have hdnd : dependents.Nodup := hperm.nodup_iff.mpr (hnd.filter _)
    have hdmem (n : String) : n ∈ dependents ↔ n ∈ p.names ∧ name ∈ p.required n := by
      rw [hperm.mem_iff, Plan.dependents, List.mem_filter, decide_eq_true_eq]
    obtain ⟨hdeps, hready⟩ := release_spec name hdnd s.dependencies s.ready
    have hnot := h.not_settled hname hrun
    -- the dependents were waiting for the target
    have hwaiting {n : String} (hn : n ∈ dependents) : n ∉ s.futures ++ s.ready := by
      obtain ⟨hnames, hreq⟩ := (hdmem n).mp hn
      intro hav
      have hin := (h.remaining n hnames name).mpr ⟨hreq, hnot⟩
      rw [(h.avail n hnames).mp hav] at hin
      cases hin
    constructor
    case once =>
      dsimp only
      rw [hready, ← List.append_assoc]
      refine List.nodup_append.mpr ⟨h.once, hdnd.filter _, fun a ha b hb hab => ?_⟩
      exact hwaiting (List.mem_filter.mp hb).1 (hab ▸ ha)
    case mem =>
      intro n hn
      dsimp only at hn
      rw [hready, ← List.append_assoc, List.mem_append] at hn
      rcases hn with hn | hn
      · exact h.mem n hn
      · exact ((hdmem n).mp (List.mem_filter.mp hn).1).1
    case remaining =>
      intro n hn m
      rw [settled_erase hq hname hfin, not_or]
      · dsimp only
        rw [hdeps n]
        by_cases hdep : n ∈ dependents
        · rw [if_pos hdep, List.mem_filter, h.remaining n hn, decide_eq_true_eq, and_assoc]
        · rw [if_neg hdep, h.remaining n hn]
          refine and_congr_right fun hreq => iff_self_and.mpr fun _ => ?_
          rintro rfl
          exact hdep ((hdmem n).mpr ⟨hn, hreq⟩)
      · rfl
      · rfl
      · rfl
    case avail =>
      intro n hn
      dsimp only
      rw [hready, ← List.append_assoc, List.mem_append, hdeps n, List.mem_filter]
      by_cases hdep : n ∈ dependents
      · rw [if_pos hdep]
        simp [hwaiting hdep, hdep]
      · rw [if_neg hdep, ← h.avail n hn]
        simp [hdep]
  · refine h.congr (List.Perm.refl _) rfl fun m => ⟨?_, ?_⟩
    · rintro ⟨k, hk, hnotk, hstk⟩
      change k ∉ s.running.erase f at hnotk
      have hsame : s.status k = .finished := by
        simpa [Sched.cancel, hnotk] using hstk
      refine ⟨k, hk, fun hk' => hnotk (hmem.mpr ⟨?_, hk'⟩), hsame⟩
      rintro rfl
      exact hfin hsame
    · rintro ⟨k, hk, hnotk, hstk⟩
      have hnot' : k ∉ s.running.erase f := fun hk' => hnotk (hmem.mp hk').2
      exact ⟨k, hk, hnot', by simp [Sched.cancel, hnot', hstk]⟩

/-- A worker moves a future that is not done, so one that is running. -/
theorem SetInv.move (hq : QueueInv p s) (h : SetInv p s) (hlt : f < s.futures.length)
    (hbefore : (s.status f).done = false) (st : Status) (log : List Event) :
    SetInv p { s with status := Function.update s.status f st, log := log } := by
  have hne {k : ℕ} (hnot : k ∉ s.running) : k ≠ f := by
    rintro rfl
    have hdone := hq.settled k hlt hnot
    rw [hbefore] at hdone
    cases hdone
  refine h.congr (List.Perm.refl _) rfl fun m => exists_congr fun k => and_congr_right fun _ =>
    and_congr_right fun hnot => ?_
  dsimp only
  rw [update_of_ne (hne hnot)]

theorem SetInv.step {i : Step} (hnd : p.names.Nodup) (hq : QueueInv p s) (h : SetInv p s)
    (hst : schedStep p workers s i = some t) : SetInv p t := by
  cases i with
  | submit => exact h.submit hst
  | await complete =>
    obtain ⟨-, -, -, -, -, -, rfl⟩ := await_inv hst
    exact h.congr (List.Perm.refl _) rfl fun _ => Iff.rfl
  | settle dependents => exact h.settle hnd hq hst
  | leave =>
    obtain ⟨-, -, -, rfl⟩ := leave_inv hst
    exact h.congr (List.Perm.refl _) rfl fun _ => Iff.rfl
  | start f =>
    obtain ⟨name, hname, hpend, rfl⟩ := start_inv hst
    exact h.move hq (List.getElem?_eq_some_iff.mp hname).1 (by simp [hpend, Status.done]) _ _
  | finish f ok =>
    obtain ⟨name, hname, hstart, rfl⟩ := finish_inv hst
    exact h.move hq (List.getElem?_eq_some_iff.mp hname).1 (by simp [hstart, Status.done]) _ _
  | drop f =>
    obtain ⟨name, hname, hcan, rfl⟩ := drop_inv hst
    exact h.move hq (List.getElem?_eq_some_iff.mp hname).1 (by simp [hcan, Status.done]) _ s.log

/-! ## What happened -/

/-- How far the execution of a target has come. -/
def Status.phase : Status → ℕ
  | .started => 1
  | .finished => 2
  | .failed => 3
  | _ => 0

/-- Some future of the target has come so far. -/
def Came (s : Sched) (n : String) (P : ℕ → Prop) : Prop :=
  ∃ f, s.futures[f]? = some n ∧ P (s.status f).phase

/-- The events are those of the futures, each once, and a target was started behind its dependencies. -/
structure LogInv (p : Plan) (s : Sched) : Prop where
  nodup : s.log.Nodup
  started : ∀ n, .started n ∈ s.log ↔ Came s n (0 < ·)
  finished : ∀ n, .finished n ∈ s.log ↔ Came s n (· = 2)
  failed : ∀ n, .failed n ∈ s.log ↔ Came s n (· = 3)
  order : ∀ l n l', s.log = l ++ .started n :: l' → ∀ m ∈ p.required n, .finished m ∈ l'

theorem logInv_init (p : Plan) : LogInv p p.init where
  nodup := List.nodup_nil
  started := by simp [Plan.init, Came]
  finished := by simp [Plan.init, Came]
  failed := by simp [Plan.init, Came]
  order := by simp [Plan.init]

/-- A step that executes nothing. -/
theorem LogInv.congr (h : LogInv p s) (hlog : t.log = s.log)
    (hcame : ∀ n P, ¬ P 0 → (Came t n P ↔ Came s n P)) : LogInv p t where
  nodup := by
    rw [hlog]
    exact h.nodup
  started := fun n => by rw [hlog, hcame n _ (by simp), h.started]
  finished := fun n => by rw [hlog, hcame n _ (by simp), h.finished]
  failed := fun n => by rw [hlog, hcame n _ (by simp), h.failed]
  order := by
    rw [hlog]
    exact h.order

/-- A step that leaves how far the futures have come, but for new ones. -/
theorem came_of_phase {l : List String} (hfut : t.futures = s.futures ++ l)
    (hphase : ∀ f < s.futures.length, (t.status f).phase = (s.status f).phase)
    (hnew : ∀ f, s.futures.length ≤ f → f < t.futures.length → (t.status f).phase = 0) (n : String) (P : ℕ → Prop)
    (hP : ¬ P 0) : Came t n P ↔ Came s n P := by
  constructor
  · rintro ⟨f, hf, hPf⟩
    obtain ⟨hlt, -⟩ := List.getElem?_eq_some_iff.mp hf
    by_cases hold : f < s.futures.length
    · rw [hfut, List.getElem?_append_left hold] at hf
      rw [hphase f hold] at hPf
      exact ⟨f, hf, hPf⟩
    · rw [hnew f (by omega) hlt] at hPf
      exact (hP hPf).elim
  · rintro ⟨f, hf, hPf⟩
    obtain ⟨hlt, -⟩ := List.getElem?_eq_some_iff.mp hf
    refine ⟨f, ?_, ?_⟩
    · rw [hfut, List.getElem?_append_left hlt]
      exact hf
    · rw [hphase f hlt]
      exact hPf

/-- One future goes on to another phase. -/
theorem came_update (h : SetInv p s) (hf : s.futures[f]? = some name) (st : Status) (log : List Event) (n : String)
    (P : ℕ → Prop) :
    Came { s with status := Function.update s.status f st, log := log } n P ↔
      if n = name then P st.phase else Came s n P := by
  by_cases hn : n = name
  · subst hn
    rw [if_pos rfl]
    constructor
    · rintro ⟨k, hk, hP⟩
      obtain rfl := h.future_unique hf hk
      dsimp only at hP
      rwa [update_self] at hP
    · intro hP
      refine ⟨f, hf, ?_⟩
      dsimp only
      rwa [update_self]
  · rw [if_neg hn]
    refine exists_congr fun k => and_congr_right fun hk => ?_
    have hkf : k ≠ f := by
      rintro rfl
      exact hn (Option.some.inj (hk.symm.trans hf))
    dsimp only
    rw [update_of_ne hkf]

/-- How far the one future of a target has come. -/
theorem came_iff (h : SetInv p s) (hf : s.futures[f]? = some name) (P : ℕ → Prop) :
    Came s name P ↔ P (s.status f).phase := by
  constructor
  · rintro ⟨k, hk, hP⟩
    rwa [h.future_unique hf hk]
  · exact fun hP => ⟨f, hf, hP⟩

theorem LogInv.start (hs : SetInv p s) (h : LogInv p s) (hst : schedStep p workers s (.start f) = some t) :
    LogInv p t := by
  obtain ⟨name, hname, hpend, rfl⟩ := start_inv hst
  have hphase : (s.status f).phase = 0 := by rw [hpend]; rfl
  have hnew : Event.started name ∉ s.log := by
    rw [h.started, came_iff hs hname, hphase]
    omega
  have hcame := came_update hs hname .started (.started name :: s.log)
  constructor
  case nodup => exact List.nodup_cons.mpr ⟨hnew, h.nodup⟩
  case started =>
    intro n
    rw [hcame]
    by_cases hn : n = name
    · simp [hn, Status.phase]
    · simp [hn, h.started]
  case finished =>
    intro n
    rw [hcame]
    by_cases hn : n = name
    · simp [hn, Status.phase, h.finished, came_iff hs hname, hpend]
    · simp [hn, h.finished]
  case failed =>
    intro n
    rw [hcame]
    by_cases hn : n = name
    · simp [hn, Status.phase, h.failed, came_iff hs hname, hpend]
    · simp [hn, h.failed]
  case order =>
    intro l n l' heq m hm
    cases l with
    | nil =>
      obtain ⟨hev, rfl⟩ := List.cons.inj heq
      obtain rfl := Event.started.inj hev
      -- it was submitted, so its set is empty and its dependencies are settled
      have hmem : name ∈ s.futures ++ s.ready := List.mem_append_left _ (List.mem_of_getElem? hname)
      have hnames := hs.mem name hmem
      have hset : Settled s m := by
        by_contra hno
        have hin := (hs.remaining name hnames m).mpr ⟨hm, hno⟩
        rw [(hs.avail name hnames).mp hmem] at hin
        cases hin
      obtain ⟨k, hk, -, hfin⟩ := hset
      exact (h.finished m).mpr ⟨k, hk, by rw [hfin]; rfl⟩
    | cons e l =>
      obtain ⟨-, heq⟩ := List.cons.inj heq
      exact h.order l n l' heq m hm

theorem LogInv.finish {ok : Bool} (hs : SetInv p s) (h : LogInv p s)
    (hst : schedStep p workers s (.finish f ok) = some t) : LogInv p t := by
  obtain ⟨name, hname, hstart, rfl⟩ := finish_inv hst
  have hphase : (s.status f).phase = 1 := by rw [hstart]; rfl
  have hstarted : Event.started name ∈ s.log := by
    rw [h.started, came_iff hs hname, hphase]
    omega
  have hnofin : Event.finished name ∉ s.log := by
    rw [h.finished, came_iff hs hname, hphase]
    omega
  have hnofail : Event.failed name ∉ s.log := by
    rw [h.failed, came_iff hs hname, hphase]
    omega
  have hcame := came_update hs hname (if ok then .finished else .failed)
    ((if ok then .finished name else .failed name) :: s.log)
  constructor
  case nodup =>
    refine List.nodup_cons.mpr ⟨?_, h.nodup⟩
    cases ok
    · exact hnofail
    · exact hnofin
  case started =>
    intro n
    rw [hcame]
    by_cases hn : n = name
    · cases ok <;> simp [hn, Status.phase, hstarted]
    · cases ok <;> simp [hn, h.started]
  case finished =>
    intro n
    rw [hcame]
    by_cases hn : n = name
    · cases ok <;> simp [hn, Status.phase, hnofin]
    · cases ok <;> simp [hn, h.finished]
  case failed =>
    intro n
    rw [hcame]
    by_cases hn : n = name
    · cases ok <;> simp [hn, Status.phase, hnofail]
    · cases ok <;> simp [hn, h.failed]
  case order =>
    intro l n l' heq m hm
    cases l with
    | nil =>
      obtain ⟨hev, -⟩ := List.cons.inj heq
      cases ok <;> cases hev
    | cons e l =>
      obtain ⟨-, heq⟩ := List.cons.inj heq
      exact h.order l n l' heq m hm

theorem LogInv.step {i : Step} (hs : SetInv p s) (h : LogInv p s) (hst : schedStep p workers s i = some t) :
    LogInv p t := by
  cases i with
  | submit =>
    obtain ⟨name, -, -, -, rfl⟩ := submit_inv hst
    refine h.congr rfl (came_of_phase rfl (fun f hf => ?_) fun f hle hlt => ?_)
    · dsimp only
      rw [update_of_ne (by omega)]
    · dsimp only at hlt ⊢
      rw [List.length_append, List.length_singleton] at hlt
      obtain rfl : f = s.futures.length := by omega
      rw [update_self]
      rfl
  | await complete =>
    obtain ⟨-, -, -, -, -, -, rfl⟩ := await_inv hst
    exact h.congr rfl fun _ _ _ => Iff.rfl
  | settle dependents =>
    obtain ⟨f, rest, name, -, -, ⟨-, -, rfl⟩ | ⟨-, rfl⟩⟩ := settle_inv hst
    · exact h.congr rfl fun _ _ _ => Iff.rfl
    · refine h.congr rfl (came_of_phase (List.append_nil _).symm (fun k _ => ?_) fun k hle hlt => ?_)
      · simp only [Sched.cancel]
        split
        case isTrue hc => rw [hc.2]; rfl
        case isFalse => rfl
      · exact absurd hlt (by simpa [Sched.cancel] using hle)
  | leave =>
    obtain ⟨-, -, -, rfl⟩ := leave_inv hst
    exact h.congr rfl fun _ _ _ => Iff.rfl
  | start f => exact h.start hs hst
  | finish f ok => exact h.finish hs hst
  | drop f =>
    obtain ⟨name, hname, hcan, rfl⟩ := drop_inv hst
    refine h.congr rfl (came_of_phase (List.append_nil _).symm (fun k _ => ?_) fun k hle hlt => ?_)
    · dsimp only
      by_cases hk : k = f
      · rw [hk, update_self, hcan]
        rfl
      · rw [update_of_ne hk]
    · exact absurd hlt (by simpa using hle)

end Build
