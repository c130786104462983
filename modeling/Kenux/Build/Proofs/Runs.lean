import Kenux.Build.Proofs.Closure
import Kenux.Build.Proofs.Order
import Kenux.Lib.Count

/-!
# Runs of the scheduler (`buildsystem/core/runner.py`)
-/

namespace Build

open Relation Run Count

variable {p : Plan} {workers : ℕ} {s t : Sched} {f : ℕ} {n m : String}

/-- The targets are in an order in which dependencies come first. -/
structure Plan.Ok (p : Plan) : Prop where
  nodup : p.names.Nodup
  before : ∀ l a l', p.names = l ++ a :: l' → ∀ b ∈ p.required a, b ∈ l

/-- `a` needs `b`, within the closure. -/
def Plan.Needs (p : Plan) (a b : String) : Prop := b ∈ p.required a

structure Inv (p : Plan) (s : Sched) : Prop where
  queue : QueueInv p s
  sets : SetInv p s
  events : LogInv p s

theorem inv_of_run (hp : p.Ok) {is : List Step} (h : run (schedStep p workers) p.init is = some s) : Inv p s := by
  have hinit : Inv p p.init := ⟨queueInv_init p, setInv_init hp.nodup, logInv_init p⟩
  refine (Reach.of_run .start h).invariant hinit fun u i v hu _ hst => ?_
  exact ⟨hu.queue.step hst, hu.sets.step hp.nodup hu.queue hst, hu.events.step hu.sets hst⟩

/-! ## Safety -/

/-- What was started has its dependencies finished, at any depth. -/
theorem Inv.finished_of_needs (h : Inv p s) (hn : .started n ∈ s.log) (hnm : TransGen p.Needs n m) :
    .finished m ∈ s.log := by
  have hone {a b : String} (ha : Event.started a ∈ s.log) (hab : p.Needs a b) : Event.finished b ∈ s.log := by
    obtain ⟨l, l', heq⟩ := List.append_of_mem ha
    rw [heq]
    exact List.mem_append_right _ (List.mem_cons_of_mem _ (h.events.order l a l' heq b hab))
  have hstarted {a : String} (ha : Event.finished a ∈ s.log) : Event.started a ∈ s.log := by
    obtain ⟨f, hf, hphase⟩ := (h.events.finished a).mp ha
    exact (h.events.started a).mpr ⟨f, hf, by omega⟩
  induction hnm with
  | single hab => exact hone hn hab
  | tail _ hbc ih => exact hone (hstarted ih) hbc

/-- Nothing that depends on a failed target was started. -/
theorem Inv.not_started (h : Inv p s) (hm : .failed m ∈ s.log) (hnm : TransGen p.Needs n m) :
    .started n ∉ s.log := by
  intro hn
  obtain ⟨f, hf, hfail⟩ := (h.events.failed m).mp hm
  obtain ⟨k, hk, hfin⟩ := (h.events.finished m).mp (h.finished_of_needs hn hnm)
  obtain rfl := h.sets.future_unique hf hk
  omega

/-! ## The end -/

/-- With no failure, all targets are settled when the loops end. -/
theorem Inv.settled_all (hp : p.Ok) (h : Inv p s) (hrun : s.running = []) (hready : s.ready = [])
    (hno : s.failed = false) {l l' : List String} (hl : p.names = l ++ l') : ∀ n ∈ l, Settled s n := by
  induction l using List.reverseRecOn generalizing l' with
  | nil => simp
  | append_singleton l a ih =>
    have hsplit : p.names = l ++ a :: l' := by simpa using hl
    have hbefore := ih hsplit
    intro n hn
    rcases List.mem_append.mp hn with hn | hn
    · exact hbefore n hn
    obtain rfl : n = a := by simpa using hn
    have hnames : n ∈ p.names := by simp [hl]
    have hreq := hp.before l n l' hsplit
    have hempty : s.dependencies n = [] := by
      rw [List.eq_nil_iff_forall_not_mem]
      intro m hm
      obtain ⟨hm, hnot⟩ := (h.sets.remaining n hnames m).mp hm
      exact hnot (hbefore m (hreq m hm))
    have hfut : n ∈ s.futures := by simpa [hready] using (h.sets.avail n hnames).mpr hempty
    obtain ⟨f, hf⟩ := List.mem_iff_getElem?.mp hfut
    have hlt := (List.getElem?_eq_some_iff.mp hf).1
    have hdone := h.queue.settled f hlt (by simp [hrun])
    have hnofail : s.status f ≠ .failed := by
      intro hfail
      have htrue := h.queue.failed.mpr ⟨f, hlt, by simp [hrun], hfail⟩
      rw [hno] at htrue
      cases htrue
    have hnocancel : s.status f ≠ .notified := by
      intro hcan
      have htrue := h.queue.cancelled f (.inr hcan)
      rw [hno] at htrue
      cases htrue
    refine ⟨f, hf, by simp [hrun], ?_⟩
    revert hdone hnofail hnocancel
    cases s.status f <;> simp [Status.done]

/-- With no failure, all targets were submitted when the loops end. -/
theorem Inv.futures_all (hp : p.Ok) (h : Inv p s) (hrun : s.running = []) (hready : s.ready = [])
    (hno : s.failed = false) : s.futures.Perm p.names := by
  refine (List.perm_ext_iff_of_nodup (List.nodup_append.mp h.sets.once).1 hp.nodup).mpr fun n => ⟨?_, ?_⟩
  · exact fun hn => h.sets.mem n (List.mem_append_left _ hn)
  · intro hn
    obtain ⟨f, hf, -⟩ := h.settled_all hp hrun hready hno (List.append_nil _).symm n hn
    exact List.mem_of_getElem? hf

/-- A failure is known when the loops end. -/
theorem Inv.failed_iff (h : Inv p s) (hrun : s.running = []) :
    s.failed = true ↔ ∃ m, Event.failed m ∈ s.log := by
  rw [h.queue.failed]
  constructor
  · rintro ⟨f, hf, -, hst⟩
    refine ⟨s.futures[f], (h.events.failed _).mpr ⟨f, List.getElem?_eq_getElem hf, ?_⟩⟩
    rw [hst]
    rfl
  · rintro ⟨m, hm⟩
    obtain ⟨f, hf, hphase⟩ := (h.events.failed m).mp hm
    refine ⟨f, (List.getElem?_eq_some_iff.mp hf).1, by simp [hrun], ?_⟩
    revert hphase
    cases s.status f <;> simp [Status.phase]

/-- What is returned: success if and only if nothing failed, and then every target was executed once. -/
theorem Inv.returned (hp : p.Ok) (h : Inv p s) {ok : Bool} (hok : s.place = .returned ok) :
    (ok = true ↔ ∀ m, Event.failed m ∉ s.log) ∧
      (ok = true → ∀ n ∈ p.names, s.log.count (.started n) = 1 ∧ s.log.count (.finished n) = 1) := by
  obtain ⟨hrun, hready, hval⟩ := h.queue.returned ok hok
  have hiff : ok = true ↔ s.failed = false := by
    constructor
    · intro htrue
      rw [htrue] at hval
      have hand := hval.symm
      simp only [Bool.and_eq_true, Bool.not_eq_true'] at hand
      exact hand.1
    · intro hno
      have hr : s.ready = [] := hready.resolve_right (by simp [hno])
      have hlen := (h.futures_all hp hrun hr hno).length_eq
      have hsum := h.queue.completed hno
      rw [hrun] at hsum
      rw [hval, hno]
      simpa using hsum.trans hlen
  refine ⟨?_, fun htrue n hn => ?_⟩
  · rw [hiff, ← Bool.not_eq_true, h.failed_iff hrun, not_exists]
  · have hno := hiff.mp htrue
    have hr : s.ready = [] := hready.resolve_right (by simp [hno])
    obtain ⟨f, hf, -, hfin⟩ := h.settled_all hp hrun hr hno (List.append_nil _).symm n hn
    have hphase : (s.status f).phase = 2 := by rw [hfin]; rfl
    exact ⟨List.count_eq_one_of_mem h.events.nodup ((h.events.started n).mpr ⟨f, hf, by omega⟩),
      List.count_eq_one_of_mem h.events.nodup ((h.events.finished n).mpr ⟨f, hf, hphase⟩)⟩

/-! ## Progress -/

/-- The pool can always go on with a future that is not done. -/
theorem pool_goes_on (hw : 0 < workers) {f : ℕ} (hlt : f < s.futures.length) (hf : (s.status f).done = false) :
    ∃ i t, schedStep p workers s i = some t := by
  have hname : s.futures[f]? = some s.futures[f] := List.getElem?_eq_getElem hlt
  by_cases hact : s.active = 0
  · have hroom : s.active < workers := by omega
    have hnone : s.status f ≠ .started := by
      intro hst
      have hpos : 0 < s.active := List.countP_pos_iff.mpr ⟨f, List.mem_range.mpr hlt, by simp [hst]⟩
      omega
    cases hst : s.status f with
    | pending => exact ⟨.start f, _, by simp only [schedStep, hname, hst, hroom, and_self, if_true]; rfl⟩
    | cancelled => exact ⟨.drop f, _, by simp only [schedStep, hname, hst, hroom, and_self, if_true]; rfl⟩
    | started => exact (hnone hst).elim
    | finished => simp [hst, Status.done] at hf
    | failed => simp [hst, Status.done] at hf
    | notified => simp [hst, Status.done] at hf
  · -- a target that is being executed ends
    obtain ⟨k, hk, hst⟩ := List.countP_pos_iff.mp (Nat.pos_of_ne_zero hact)
    have hk := List.mem_range.mp hk
    have hst : s.status k = .started := by simpa using hst
    have hkname : s.futures[k]? = some s.futures[k] := List.getElem?_eq_getElem hk
    exact ⟨.finish k true, _, by simp only [schedStep, hkname, hst, if_true]; rfl⟩

/-- Until the scheduler has returned, some step is possible. -/
theorem Inv.goes_on (hw : 0 < workers) (h : Inv p s) (hno : ∀ ok, s.place ≠ .returned ok) :
    ∃ i t, schedStep p workers s i = some t := by
  cases hplace : s.place with
  | returned ok => exact (hno ok hplace).elim
  | batch c =>
    obtain ⟨hne, -, hbatch⟩ := h.queue.batch c hplace
    obtain ⟨f, rest, rfl⟩ := List.exists_cons_of_ne_nil hne
    have hlt := h.queue.running_lt f (hbatch f List.mem_cons_self).1
    have hname : s.futures[f]? = some s.futures[f] := List.getElem?_eq_getElem hlt
    refine ⟨.settle (p.dependents s.futures[f]), ?_⟩
    by_cases hfin : s.status f = .finished
    · exact ⟨_, by simp only [schedStep, hplace, hname, hfin, if_true, List.Perm.refl]; rfl⟩
    · exact ⟨_, by simp only [schedStep, hplace, hname, hfin, if_false]; rfl⟩
  | loop =>
    by_cases hready : s.ready = [] ∨ s.failed = true
    · by_cases hrun : s.running = []
      · exact ⟨.leave, _, if_pos ⟨hplace, hready, hrun⟩⟩
      by_cases hdone : ∃ f ∈ s.running, (s.status f).done = true
      · -- `wait` returns what is done
        obtain ⟨f, hf, hfd⟩ := hdone
        refine ⟨.await (s.running.filter fun f => (s.status f).done), _, if_pos ⟨hplace, hready, ?_, ?_, ?_, ?_⟩⟩
        · exact List.ne_nil_of_mem (List.mem_filter.mpr ⟨hf, hfd⟩)
        · exact h.queue.running_nodup.filter _
        · exact fun k hk => (List.mem_filter.mp hk).1
        · intro k hk
          simp [hk]
      · obtain ⟨f, hf⟩ := List.exists_mem_of_ne_nil _ hrun
        have hfd : (s.status f).done = false := by
          rw [← Bool.not_eq_true]
          exact fun hd => hdone ⟨f, hf, hd⟩
        exact pool_goes_on hw (h.queue.running_lt f hf) hfd
    · rw [not_or, Bool.not_eq_true] at hready
      have hlast := List.getLast?_eq_some_getLast hready.1
      exact ⟨.submit, _, by simp only [schedStep, hlast, hplace, hready.2, and_self, if_true]; rfl⟩

/-- What a future may still do. -/
def Status.weight : Status → ℕ
  | .pending => 2
  | .started => 1
  | .cancelled => 1
  | _ => 0

def Place.weight : Place → ℕ
  | .loop => 1
  | _ => 0

/-- A bound on the steps that are left. -/
def Plan.left (p : Plan) (s : Sched) : ℕ :=
  10 * (p.names.length - s.futures.length) + sumBelow (fun f => (s.status f).weight) s.futures.length +
    2 * s.running.length + s.place.weight

/-- A worker moves a future on. -/
theorem left_move (hlt : f < s.futures.length) {st : Status} (hw : (s.status f).weight = st.weight + 1)
    (log : List Event) :
    p.left { s with status := Function.update s.status f st, log := log } < p.left s := by
  have hsum : sumBelow (fun k => (s.status k).weight) s.futures.length =
      sumBelow (fun k => (Function.update s.status f st k).weight) s.futures.length + 1 := by
    apply sumBelow_add hlt
    · rw [Function.update_self, hw]
    · intro k hk
      rw [Function.update_of_ne hk]
  unfold Plan.left
  dsimp only
  omega

theorem nextPlace_weight (rest : List ℕ) : (nextPlace rest).weight ≤ 1 := by
  cases rest <;> simp [nextPlace, Place.weight]

/-- Every step leaves fewer. -/
theorem Inv.left_lt (h : Inv p s) {i : Step} (hst : schedStep p workers s i = some t) :
    p.left t < p.left s := by
  cases i with
  | submit =>
    obtain ⟨name, hready, -, -, rfl⟩ := submit_inv hst
    have hlen : s.futures.length + s.ready.length ≤ p.names.length := by
      rw [← List.length_append]
      exact (h.sets.once.subperm h.sets.mem).length_le
    have hpos : 0 < s.ready.length := by
      rw [hready]
      simp
    have hsum : sumBelow (fun f => (Function.update s.status s.futures.length Status.pending f).weight)
        (s.futures.length + 1) = sumBelow (fun f => (s.status f).weight) s.futures.length + 2 := by
      have hsame : sumBelow (fun f => (Function.update s.status s.futures.length Status.pending f).weight)
          s.futures.length = sumBelow (fun f => (s.status f).weight) s.futures.length := by
        apply sumBelow_congr
        intro k hk
        rw [Function.update_of_ne (by omega)]
      rw [sumBelow_succ, hsame, Function.update_self]
      rfl
    unfold Plan.left
    simp only [List.length_append, List.length_singleton]
    rw [hsum]
    omega
  | await complete =>
    obtain ⟨hplace, -, -, -, -, -, rfl⟩ := await_inv hst
    unfold Plan.left
    rw [hplace]
    simp only [Place.weight]
    omega
  | settle dependents =>
    obtain ⟨f, rest, name, hplace, hname, hcase⟩ := settle_inv hst
    obtain ⟨hrun, -⟩ := (h.queue.batch _ hplace).2.2 f List.mem_cons_self
    have hlen := List.length_erase_of_mem hrun
    have hpos := List.length_pos_of_mem hrun
    rcases hcase with ⟨-, -, rfl⟩ | ⟨-, rfl⟩
    · have hnext := nextPlace_weight rest
      unfold Plan.left
      dsimp only
      omega
    · have hsum : sumBelow (fun k => (({ s with running := s.running.erase f }.cancel).status k).weight)
          s.futures.length ≤ sumBelow (fun k => (s.status k).weight) s.futures.length := by
        apply sumBelow_mono
        intro k _
        simp only [Sched.cancel]
        split
        case isTrue hc => rw [hc.2]; decide
        case isFalse => exact Nat.le_refl _
      unfold Plan.left
      simp only [Place.weight]
      change 10 * (p.names.length - s.futures.length) + sumBelow _ s.futures.length +
        2 * (s.running.erase f).length + 1 < _
      omega
  | leave =>
    obtain ⟨hplace, -, -, rfl⟩ := leave_inv hst
    unfold Plan.left
    rw [hplace]
    simp only [Place.weight]
    omega
  | start f =>
    obtain ⟨name, hname, hpend, rfl⟩ := start_inv hst
    exact left_move (List.getElem?_eq_some_iff.mp hname).1 (by rw [hpend]; rfl) _
  | finish f ok =>
    obtain ⟨name, hname, hstart, rfl⟩ := finish_inv hst
    exact left_move (List.getElem?_eq_some_iff.mp hname).1 (by rw [hstart]; cases ok <;> rfl) _
  | drop f =>
    obtain ⟨name, hname, hcan, rfl⟩ := drop_inv hst
    exact left_move (List.getElem?_eq_some_iff.mp hname).1 (by rw [hcan]; rfl) s.log

/-- A run has a bounded number of steps. -/
theorem length_le_left (hp : p.Ok) {is : List Step} (hs : Inv p s) (h : run (schedStep p workers) s is = some t) :
    is.length + p.left t ≤ p.left s := by
  induction is generalizing s with
  | nil =>
    obtain rfl := Option.some.inj h
    simp
  | cons i is ih =>
    obtain ⟨u, hu, hr⟩ := Option.bind_eq_some_iff.mp h
    have hiu : Inv p u := ⟨hs.queue.step hu, hs.sets.step hp.nodup hs.queue hu, hs.events.step hs.sets hu⟩
    have hlt := hs.left_lt hu
    have hle := ih hiu hr
    rw [List.length_cons]
    omega

/-! ## The closure and its runs -/

/-- What holds in every state of a run over a closure. -/
structure Sound (g : BuildGraph) (order : List String) (workers : ℕ) (s : Sched) : Prop where
  /-- A target is started at most once. -/
  once : ∀ n, s.log.count (.started n) ≤ 1
  /-- It is one of the closure, and what it depends on has finished before. -/
  behind : ∀ l n l', s.log = l ++ .started n :: l' → n ∈ order ∧ ∀ m, DependsOn g n m → .finished m ∈ l'
  /-- Nothing that depends on a failed target is started. -/
  never : ∀ m n, .failed m ∈ s.log → TransGen (DependsOn g) n m → .started n ∉ s.log
  /-- The run reports success if and only if nothing failed, and then every target was executed once. -/
  result : ∀ ok, s.place = .returned ok → (ok = true ↔ ∀ m, Event.failed m ∉ s.log) ∧
    (ok = true → ∀ n ∈ order, s.log.count (.started n) = 1 ∧ s.log.count (.finished n) = 1)
  /-- Until it returns, the run goes on. -/
  goesOn : (∀ ok, s.place ≠ .returned ok) → ∃ i t, schedStep (g.plan order) workers s i = some t

variable {g : BuildGraph} {roots order : List String}

/-- In the closure the sets of dependencies are the dependencies. -/
theorem plan_required (hs : ∀ a ∈ order, ¬ Unknown g a) (ho : ClosureOrder g roots order) {a b : String}
    (ha : a ∈ order) : b ∈ (g.plan order).required a ↔ DependsOn g a b := by
  have hedge : DepthFirst.Edge g.succs a b ↔ DependsOn g a b := by
    rw [edge_iff]
    exact and_iff_left (hs a ha)
  simp only [BuildGraph.plan]
  cases hsuccs : g.succs a with
  | error e => exact (hs a ha (succs_error_iff.mp ⟨e, hsuccs⟩)).elim
  | ok ds =>
    have hmem : b ∈ ds ↔ DependsOn g a b := by
      rw [← hedge]
      simp [DepthFirst.Edge, hsuccs]
    rw [List.mem_filter, decide_eq_true_eq, hmem, and_iff_left_iff_imp]
    intro hab
    obtain ⟨l, l', heq⟩ := List.append_of_mem ha
    rw [heq]
    exact List.mem_append_left _ (ho.before l a l' heq b hab)

theorem plan_ok (hs : ∀ a ∈ order, ¬ Unknown g a) (ho : ClosureOrder g roots order) : (g.plan order).Ok where
  nodup := ho.nodup
  before := by
    intro l a l' heq b hb
    change order = _ at heq
    exact ho.before l a l' heq b ((plan_required hs ho (by simp [heq])).mp hb)

theorem sound_of_run (hs : ∀ a ∈ order, ¬ Unknown g a) (ho : ClosureOrder g roots order) (hw : 0 < workers)
    {is : List Step} (h : run (schedStep (g.plan order) workers) (g.plan order).init is = some s) :
    Sound g order workers s := by
  have hok := plan_ok hs ho
  have hinv := inv_of_run hok h
  have hnames {n : String} (hn : Event.started n ∈ s.log) : n ∈ order := by
    obtain ⟨f, hf, -⟩ := (hinv.events.started n).mp hn
    exact hinv.sets.mem n (List.mem_append_left _ (List.mem_of_getElem? hf))
  have hneeds {a b : String} (ha : a ∈ order) (hab : TransGen (DependsOn g) a b) :
      TransGen (g.plan order).Needs a b ∧ b ∈ order := by
    have hone {a b : String} (ha : a ∈ order) (hab : DependsOn g a b) : (g.plan order).Needs a b ∧ b ∈ order := by
      obtain ⟨l, l', heq⟩ := List.append_of_mem ha
      refine ⟨(plan_required hs ho ha).mpr hab, ?_⟩
      rw [heq]
      exact List.mem_append_left _ (ho.before l a l' heq b hab)
    induction hab with
    | single hab => exact ⟨.single (hone ha hab).1, (hone ha hab).2⟩
    | tail _ hbc ih => exact ⟨ih.1.tail (hone ih.2 hbc).1, (hone ih.2 hbc).2⟩
  constructor
  case once => exact fun n => List.nodup_iff_count_le_one.mp hinv.events.nodup _
  case behind =>
    intro l n l' heq
    have hn : n ∈ order := hnames (by simp [heq])
    exact ⟨hn, fun m hm => hinv.events.order l n l' heq m ((plan_required hs ho hn).mpr hm)⟩
  case never =>
    intro m n hm hnm hn
    exact hinv.not_started hm (hneeds (hnames hn) hnm).1 hn
  case result => exact fun ok hret => hinv.returned hok hret
  case goesOn => exact hinv.goes_on hw

/-- `closure` returns a topological order of what the roots depend on, or raises an error exactly if a cycle or an
unknown dependency is reached. Every run of `_schedule` over such an order, with any number of workers and in any order
of steps, is sound and ends. -/
theorem closure_and_schedule (g : BuildGraph) (roots : List String) (hroots : ∀ a ∈ roots, (g.lookup a).isSome) :
    ∃ r, g.closure roots = some r ∧
      ((∃ e, r = .error e) ↔ ∃ a ∈ roots, ∃ b, ReflTransGen (DependsOn g) a b ∧
        (TransGen (DependsOn g) b b ∨ Unknown g b)) ∧
      ∀ order, r = .ok order → ClosureOrder g roots order ∧
        ∀ workers, 0 < workers → ∀ is s,
          run (schedStep (g.plan order) workers) (g.plan order).init is = some s →
            Sound g order workers s ∧ is.length ≤ (g.plan order).left (g.plan order).init := by
  obtain ⟨r, hr, herr, hord⟩ := closure_spec hroots
  refine ⟨r, hr, herr, fun order heq => ?_⟩
  have ho := hord order heq
  have hs : ∀ a ∈ order, ¬ Unknown g a := by
    intro b hb hunk
    obtain ⟨a, ha, hab⟩ := (ho.mem b).mp hb
    obtain ⟨e, he⟩ := herr.mpr ⟨a, ha, b, hab, .inr hunk⟩
    rw [heq] at he
    cases he
  refine ⟨ho, fun workers hw is s hrun => ⟨sound_of_run hs ho hw hrun, ?_⟩⟩
  have hok := plan_ok hs ho
  have hinit : Inv (g.plan order) (g.plan order).init :=
    ⟨queueInv_init _, setInv_init hok.nodup, logInv_init _⟩
  have hle := length_le_left hok hinit hrun
  omega

/-- A target that needs another one by name and a third one through an input. -/
def image : BuildGraph where
  targets :=
    [⟨"kernel", ["kernel.o"], ["kernel.c"], [], []⟩, ⟨"init", ["init.elf"], ["init.c"], [], []⟩,
      ⟨"image", ["kenux.iso"], ["kernel.o"], [], ["init"]⟩]
  names_nodup := by decide
  outputs_nodup := by decide

theorem closure_and_schedule_image :
    (∀ a ∈ ["image"], (image.lookup a).isSome) ∧
      ∃ r, image.closure ["image"] = some r ∧
        ((∃ e, r = .error e) ↔ ∃ a ∈ ["image"], ∃ b, ReflTransGen (DependsOn image) a b ∧
          (TransGen (DependsOn image) b b ∨ Unknown image b)) ∧
        ∀ order, r = .ok order → ClosureOrder image ["image"] order ∧
          ∀ workers, 0 < workers → ∀ is s,
            run (schedStep (image.plan order) workers) (image.plan order).init is = some s →
              Sound image order workers s ∧ is.length ≤ (image.plan order).left (image.plan order).init :=
  ⟨by decide, closure_and_schedule image ["image"] (by decide)⟩

/-- A target that needs an unknown one. -/
def dangling : BuildGraph where
  targets := [⟨"image", ["kenux.iso"], [], [], ["initrd"]⟩]
  names_nodup := by decide
  outputs_nodup := by decide

/-- An unknown dependency is an error without a cycle. -/
theorem closure_error_without_cycle :
    (∀ a ∈ ["image"], (dangling.lookup a).isSome) ∧
      dangling.closure ["image"] = some (.error (.unknownTarget "image" "initrd")) ∧
      ∀ a b, ReflTransGen (DependsOn dangling) a b → ¬ TransGen (DependsOn dangling) b b := by
  have hedge : ∀ a b, DependsOn dangling a b → a = "image" ∧ b = "initrd" := by
    rintro a b ⟨t, ht, hdep⟩
    obtain ⟨hmem, rfl⟩ := lookup_some ht
    obtain rfl := List.mem_singleton.mp hmem
    rcases hdep with ⟨p, hp, -⟩ | hb
    · cases hp
    · exact ⟨rfl, List.mem_singleton.mp hb⟩
  refine ⟨by decide, by decide, fun a b _ hb => ?_⟩
  -- a cycle has an edge out of `b` and one into it
  obtain ⟨c, hbc, -⟩ := TransGen.head'_iff.mp hb
  obtain ⟨d, -, hdb⟩ := TransGen.tail'_iff.mp hb
  have hne : "image" ≠ "initrd" := by decide
  exact hne ((hedge b c hbc).1.symm.trans (hedge d b hdb).2)

end Build
