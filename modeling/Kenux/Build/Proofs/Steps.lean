import Kenux.Build.Schedule

/-!
# The steps of the scheduler and its pool (`buildsystem/core/runner.py`)

What each step does to the queue of futures, and the invariant of the queue.
-/

namespace Build

variable {p : Plan} {workers : ℕ} {s t : Sched} {f : ℕ} {name : String}

theorem submit_inv (h : schedStep p workers s .submit = some t) :
    ∃ name, s.ready = s.ready.dropLast ++ [name] ∧ s.place = .loop ∧ s.failed = false ∧ t =
      { s with
        ready := s.ready.dropLast
        running := s.running ++ [s.futures.length]
        futures := s.futures ++ [name]
        status := Function.update s.status s.futures.length .pending } := by
  simp only [schedStep] at h
  split at h
  · cases h
  case h_2 name hlast =>
    split at h
    case isTrue hc =>
      refine ⟨name, ?_, hc.1, hc.2, (Option.some.inj h).symm⟩
      exact (List.dropLast_append_getLast? name hlast).symm
    case isFalse => cases h

theorem await_inv {complete : List ℕ} (h : schedStep p workers s (.await complete) = some t) :
    s.place = .loop ∧ (s.ready = [] ∨ s.failed = true) ∧ complete ≠ [] ∧ complete.Nodup ∧
      (∀ f ∈ complete, f ∈ s.running) ∧ (∀ f ∈ s.running, (f ∈ complete ↔ (s.status f).done = true)) ∧
      t = { s with place := .batch complete } := by
  simp only [schedStep] at h
  split at h
  case isTrue hc =>
    obtain ⟨h1, h2, h3, h4, h5, h6⟩ := hc
    exact ⟨h1, h2, h3, h4, h5, h6, (Option.some.inj h).symm⟩
  case isFalse => cases h

/-- The future at the head of the batch has finished and its dependents are released, or it failed. -/
theorem settle_inv {dependents : List String} (h : schedStep p workers s (.settle dependents) = some t) :
    ∃ f rest name, s.place = .batch (f :: rest) ∧ s.futures[f]? = some name ∧
      ((s.status f = .finished ∧ dependents.Perm (p.dependents name) ∧ t =
          { s with
            running := s.running.erase f
            dependencies := (release name dependents s.dependencies s.ready).1
            ready := (release name dependents s.dependencies s.ready).2
            completed := s.completed + 1
            place := nextPlace rest }) ∨
        (s.status f ≠ .finished ∧
          t = { { s with running := s.running.erase f }.cancel with failed := true, place := .loop })) := by
  simp only [schedStep] at h
  split at h
  case h_1 f rest hplace =>
    split at h
    · cases h
    case h_2 name hname =>
      refine ⟨f, rest, name, hplace, hname, ?_⟩
      split at h
      case isTrue hfin =>
        split at h
        case isTrue hperm => exact .inl ⟨hfin, hperm, (Option.some.inj h).symm⟩
        case isFalse => cases h
      case isFalse hfin => exact .inr ⟨hfin, (Option.some.inj h).symm⟩
  case h_2 => cases h

theorem leave_inv (h : schedStep p workers s .leave = some t) :
    s.place = .loop ∧ (s.ready = [] ∨ s.failed = true) ∧ s.running = [] ∧
      t = { s with place := .returned (!s.failed && s.completed = p.names.length) } := by
  simp only [schedStep] at h
  split at h
  case isTrue hc => exact ⟨hc.1, hc.2.1, hc.2.2, (Option.some.inj h).symm⟩
  case isFalse => cases h

theorem start_inv (h : schedStep p workers s (.start f) = some t) :
    ∃ name, s.futures[f]? = some name ∧ s.status f = .pending ∧
      t = { s with status := Function.update s.status f .started, log := .started name :: s.log } := by
  simp only [schedStep] at h
  split at h
  · cases h
  case h_2 name hname =>
    split at h
    case isTrue hc => exact ⟨name, hname, hc.1, (Option.some.inj h).symm⟩
    case isFalse => cases h

theorem finish_inv {ok : Bool} (h : schedStep p workers s (.finish f ok) = some t) :
    ∃ name, s.futures[f]? = some name ∧ s.status f = .started ∧
      t = { s with
        status := Function.update s.status f (if ok then .finished else .failed)
        log := (if ok then .finished name else .failed name) :: s.log } := by
  simp only [schedStep] at h
  split at h
  · cases h
  case h_2 name hname =>
    split at h
    case isTrue hc =>
      refine ⟨name, hname, hc, ?_⟩
      cases ok <;> exact (Option.some.inj h).symm
    case isFalse => cases h

/-- What is released: the name is taken out of the sets of the dependents, and those that become empty are ready. -/
theorem release_spec (name : String) {order : List String} (hnd : order.Nodup) (deps : String → List String)
    (ready : List String) :
    (∀ d, (release name order deps ready).1 d = if d ∈ order then (deps d).filter (· ≠ name) else deps d) ∧
      (release name order deps ready).2 = ready ++ order.filter fun d => ((deps d).filter (· ≠ name)).isEmpty := by
  induction order generalizing deps ready with
  | nil => simp [release]
  | cons e order ih =>
    obtain ⟨he, hnd⟩ := List.nodup_cons.mp hnd
    unfold release
    obtain ⟨hdeps, hready⟩ := ih hnd (Function.update deps e ((deps e).filter (· ≠ name)))
      (if ((deps e).filter (· ≠ name)).isEmpty then ready ++ [e] else ready)
    constructor
    · intro d
      rw [hdeps d]
      by_cases hde : d = e
      · subst hde
        simp [he]
      · simp [hde]
    · have hsame : (order.filter fun d =>
          ((Function.update deps e ((deps e).filter (· ≠ name)) d).filter (· ≠ name)).isEmpty) =
          order.filter fun d => ((deps d).filter (· ≠ name)).isEmpty := by
        apply List.filter_congr
        intro d hd
        have hde : d ≠ e := by
          rintro rfl
          exact he hd
        rw [Function.update_of_ne hde]
      rw [hready, hsame, List.filter_cons]
      split <;> simp

/-! ## The queue -/

/-- What holds of the futures, whatever they are for. -/
structure QueueInv (p : Plan) (s : Sched) : Prop where
  running_lt : ∀ f ∈ s.running, f < s.futures.length
  running_nodup : s.running.Nodup
  batch : ∀ c, s.place = .batch c → c ≠ [] ∧ c.Nodup ∧ ∀ f ∈ c, f ∈ s.running ∧ (s.status f).done = true
  settled : ∀ f < s.futures.length, f ∉ s.running → (s.status f).done = true
  completed : s.failed = false → s.completed + s.running.length = s.futures.length
  failed : s.failed = true ↔ ∃ f < s.futures.length, f ∉ s.running ∧ s.status f = .failed
  cancelled : ∀ f, s.status f = .cancelled ∨ s.status f = .notified → s.failed = true
  returned : ∀ ok, s.place = .returned ok → s.running = [] ∧ (s.ready = [] ∨ s.failed = true) ∧
    ok = (!s.failed && s.completed = p.names.length)

theorem queueInv_init (p : Plan) : QueueInv p p.init where
  running_lt := by simp [Plan.init]
  running_nodup := List.nodup_nil
  batch := by simp [Plan.init]
  settled := by simp [Plan.init]
  completed := by simp [Plan.init]
  failed := by simp [Plan.init]
  cancelled := by simp [Plan.init]
  returned := by simp [Plan.init]

theorem QueueInv.submit (h : QueueInv p s) (hst : schedStep p workers s .submit = some t) : QueueInv p t := by
  obtain ⟨name, hready, hplace, hfailed, rfl⟩ := submit_inv hst
  have hlen : (s.futures ++ [name]).length = s.futures.length + 1 := by simp
  have hold {f : ℕ} (hf : f < s.futures.length) : Function.update s.status s.futures.length .pending f = s.status f :=
    Function.update_of_ne (by omega) _ _
  constructor
  case running_lt =>
    intro f hf
    rcases List.mem_append.mp hf with hf | hf
    · have hlt := h.running_lt f hf
      dsimp only
      omega
    · obtain rfl : f = s.futures.length := by simpa using hf
      dsimp only
      omega
  case running_nodup =>
    refine List.nodup_append.mpr ⟨h.running_nodup, by simp, fun a ha b hb hab => ?_⟩
    obtain rfl : b = s.futures.length := by simpa using hb
    exact absurd (h.running_lt a ha) (by omega)
  case batch =>
    intro c hc
    dsimp only at hc
    rw [hplace] at hc
    cases hc
  case settled =>
    intro f hf hnot
    dsimp only at hf hnot ⊢
    rw [List.mem_append, List.mem_singleton, not_or] at hnot
    have hf : f < s.futures.length := by omega
    rw [hold hf]
    exact h.settled f hf hnot.1
  case completed =>
    intro hno
    have hsum := h.completed hno
    simp only [List.length_append, List.length_singleton]
    omega
  case failed =>
    dsimp only
    rw [hfailed]
    simp only [Bool.false_eq_true, false_iff, not_exists, not_and]
    intro f hf hnot hst
    rw [List.mem_append, List.mem_singleton, not_or] at hnot
    have hf : f < s.futures.length := by omega
    rw [hold hf] at hst
    have htrue := h.failed.mpr ⟨f, hf, hnot.1, hst⟩
    rw [hfailed] at htrue
    cases htrue
  case cancelled =>
    intro f hst
    dsimp only at hst
    by_cases hf : f = s.futures.length
    · subst hf
      simp at hst
    · rw [Function.update_of_ne hf] at hst
      exact h.cancelled f hst
  case returned =>
    intro ok hok
    dsimp only at hok
    rw [hplace] at hok
    cases hok

theorem QueueInv.await {complete : List ℕ} (h : QueueInv p s)
    (hst : schedStep p workers s (.await complete) = some t) : QueueInv p t := by
  obtain ⟨hplace, hready, hne, hnd, hsub, hdone, rfl⟩ := await_inv hst
  refine ⟨h.running_lt, h.running_nodup, fun c hc => ?_, h.settled, h.completed, h.failed, h.cancelled, fun ok hok => ?_⟩
  · obtain rfl : complete = c := by simpa using hc
    exact ⟨hne, hnd, fun f hf => ⟨hsub f hf, (hdone f (hsub f hf)).mp hf⟩⟩
  · cases hok

/-- What remains of a batch. -/
theorem nextPlace_batch {rest c : List ℕ} (h : nextPlace rest = .batch c) : c = rest ∧ rest ≠ [] := by
  cases rest with
  | nil => cases h
  | cons f rest => exact ⟨(Place.batch.inj h).symm, List.cons_ne_nil _ _⟩

theorem nextPlace_not_returned {rest : List ℕ} {ok : Bool} : nextPlace rest ≠ .returned ok := by
  cases rest <;> simp [nextPlace]

theorem QueueInv.settle {dependents : List String} (h : QueueInv p s)
    (hst : schedStep p workers s (.settle dependents) = some t) : QueueInv p t := by
  obtain ⟨f, rest, name, hplace, hname, hcase⟩ := settle_inv hst
  obtain ⟨-, hnd, hbatch⟩ := h.batch _ hplace
  obtain ⟨hfrest, hndrest⟩ := List.nodup_cons.mp hnd
  obtain ⟨hrun, hdone⟩ := hbatch f List.mem_cons_self
  have hlt := h.running_lt f hrun
  have hmem {k : ℕ} : k ∈ s.running.erase f ↔ k ≠ f ∧ k ∈ s.running := h.running_nodup.mem_erase_iff
  rcases hcase with ⟨hfin, hperm, rfl⟩ | ⟨hfin, rfl⟩
  · constructor
    case running_lt => exact fun k hk => h.running_lt k (hmem.mp hk).2
    case running_nodup => exact h.running_nodup.erase f
    case batch =>
      intro c hc
      obtain ⟨rfl, hne⟩ := nextPlace_batch hc
      refine ⟨hne, hndrest, fun k hk => ?_⟩
      obtain ⟨hk', hkd⟩ := hbatch k (List.mem_cons_of_mem _ hk)
      refine ⟨hmem.mpr ⟨?_, hk'⟩, hkd⟩
      rintro rfl
      exact hfrest hk
    case settled =>
      intro k hk hnot
      dsimp only at hk hnot ⊢
      by_cases hkf : k = f
      · rw [hkf]
        exact hdone
      · exact h.settled k hk fun hk' => hnot (hmem.mpr ⟨hkf, hk'⟩)
    case completed =>
      intro hno
      have hsum := h.completed hno
      have hlen := List.length_erase_of_mem hrun
      have hpos := List.length_pos_of_mem hrun
      dsimp only
      omega
    case failed =>
      refine h.failed.trans ⟨?_, ?_⟩
      · rintro ⟨k, hk, hnot, hst⟩
        exact ⟨k, hk, fun hk' => hnot (hmem.mp hk').2, hst⟩
      · rintro ⟨k, hk, hnot, hst⟩
        refine ⟨k, hk, fun hk' => hnot (hmem.mpr ⟨?_, hk'⟩), hst⟩
        rintro rfl
        dsimp only at hst
        rw [hfin] at hst
        cases hst
    case cancelled => exact h.cancelled
    case returned => exact fun ok hok => (nextPlace_not_returned hok).elim
  · -- only futures that are still running are cancelled
    have hstatus {k : ℕ} (hk : k ∉ s.running.erase f) :
        ({ s with running := s.running.erase f }.cancel).status k = s.status k := by
      simp [Sched.cancel, hk]
    constructor
    case running_lt => exact fun k hk => h.running_lt k (hmem.mp hk).2
    case running_nodup => exact h.running_nodup.erase f
    case batch => exact fun c hc => by cases hc
    case settled =>
      intro k hk hnot
      change (({ s with running := s.running.erase f }.cancel).status k).done = true
      rw [hstatus hnot]
      by_cases hkf : k = f
      · rw [hkf]
        exact hdone
      · exact h.settled k hk fun hk' => hnot (hmem.mpr ⟨hkf, hk'⟩)
    case completed => exact fun hno => by cases hno
    case failed =>
      refine ⟨fun _ => ?_, fun _ => rfl⟩
      have hnotf : f ∉ s.running.erase f := fun hf => (hmem.mp hf).1 rfl
      by_cases hfail : s.status f = .failed
      · exact ⟨f, hlt, hnotf, (hstatus hnotf).trans hfail⟩
      · -- a cancelled future: another one failed before
        have hcancelled : s.status f = .notified := by
          revert hdone hfin hfail
          cases s.status f <;> simp [Status.done]
        obtain ⟨k, hk, hnot, hst⟩ := h.failed.mp (h.cancelled f (.inr hcancelled))
        have hnotk : k ∉ s.running.erase f := fun hk' => hnot (hmem.mp hk').2
        exact ⟨k, hk, hnotk, (hstatus hnotk).trans hst⟩
    case cancelled => exact fun _ _ => rfl
    case returned => exact fun ok hok => by cases hok

theorem QueueInv.leave (h : QueueInv p s) (hst : schedStep p workers s .leave = some t) : QueueInv p t := by
  obtain ⟨hplace, hready, hrun, rfl⟩ := leave_inv hst
  refine ⟨h.running_lt, h.running_nodup, fun c hc => ?_, h.settled, h.completed, h.failed, h.cancelled, fun ok hok => ?_⟩
  · cases hc
  · exact ⟨hrun, hready, (Place.returned.inj hok).symm⟩

/-- A worker moves a future that is not done. -/
theorem QueueInv.move (h : QueueInv p s) (hlt : f < s.futures.length) (hbefore : (s.status f).done = false)
    {st : Status} (hst : st = .cancelled ∨ st = .notified → s.failed = true) (log : List Event) :
    QueueInv p { s with status := Function.update s.status f st, log := log } := by
  have hother {k : ℕ} (hk : (s.status k).done = true) : Function.update s.status f st k = s.status k := by
    apply Function.update_of_ne
    rintro rfl
    rw [hbefore] at hk
    cases hk
  refine ⟨h.running_lt, h.running_nodup, fun c hc => ?_, fun k hk hnot => ?_, h.completed, ?_, fun k hk => ?_, h.returned⟩
  · obtain ⟨hne, hnd, hbatch⟩ := h.batch c hc
    refine ⟨hne, hnd, fun k hk => ⟨(hbatch k hk).1, ?_⟩⟩
    dsimp only
    rw [hother (hbatch k hk).2]
    exact (hbatch k hk).2
  · have hdone := h.settled k hk hnot
    dsimp only
    rw [hother hdone]
    exact hdone
  · refine h.failed.trans (exists_congr fun k => and_congr_right fun hk => and_congr_right fun hnot => ?_)
    dsimp only
    rw [hother (h.settled k hk hnot)]
  · by_cases hkf : k = f
    · subst hkf
      dsimp only at hk
      rw [Function.update_self] at hk
      exact hst hk
    · dsimp only at hk
      rw [Function.update_of_ne hkf] at hk
      exact h.cancelled k hk

theorem QueueInv.step {i : Step} (h : QueueInv p s) (hst : schedStep p workers s i = some t) : QueueInv p t := by
  cases i with
  | submit => exact h.submit hst
  | await complete => exact h.await hst
  | settle dependents => exact h.settle hst
  | leave => exact h.leave hst
  | start f =>
    obtain ⟨name, hname, hpend, rfl⟩ := start_inv hst
    exact h.move (List.getElem?_eq_some_iff.mp hname).1 (by simp [hpend, Status.done]) (by simp) _
  | finish f ok =>
    obtain ⟨name, hname, hstart, rfl⟩ := finish_inv hst
    exact h.move (List.getElem?_eq_some_iff.mp hname).1 (by simp [hstart, Status.done]) (by cases ok <;> simp) _
  | drop f =>
    obtain ⟨name, hname, hcan, rfl⟩ := drop_inv hst
    exact h.move (List.getElem?_eq_some_iff.mp hname).1 (by simp [hcan, Status.done])
      (fun _ => h.cancelled f (.inl hcan)) s.log

end Build
