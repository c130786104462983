import Kenux.Kal.Model

/-!
# Runs of the kernel abstraction layer (`kal/src/kal_governance.c`, `kal/src/kal_dispatcher.c`)
-/

namespace Kal

open Run

/-- Both modules agree, and the active backend serves: it is loaded and initialised, and an open circuit means that it is
not healthy. -/
structure Sound (s : State) : Prop where
  loaded : s.gov.state = .run → ∀ b, s.gov.active.ops = some b →
    s.gov.active.loaded = true ∧ initialised s.calls b = true
  booted : s.gov.booted = true → s.gov.active.ops.isSome = true
  same : s.disp.active = s.gov.active.ops
  circuits : s.disp.circuitOpen = s.gov.circuitOpen
  closes : s.gov.circuitOpen = true → s.gov.active.healthy = false

/-- In `t` requests are served as in `s`, by the active backend of `s`. -/
structure ServesAs (s t : State) : Prop where
  active : t.gov.active = s.gov.active
  state : t.gov.state = s.gov.state
  circuit : t.gov.circuitOpen = s.gov.circuitOpen
  disp : t.disp = s.disp
  initialised : ∀ b, s.gov.active.ops = some b → initialised t.calls b = initialised s.calls b

/-- The call `i` of `s`, which returns `r` and leaves `t`, is as it should be. -/
structure Right (s : State) (i : Step) (r : ℤ) (t : State) : Prop where
  sound : Sound t
  reaches : ∀ mem req answer, i = .syscall mem req answer → ∀ b, t.calls = .syscall b req :: s.calls →
    initialised s.calls b = true
  keeps : ∀ name a, i = .hotSwap name a → r ≠ kalOk → ServesAs s t

/-- `load_backend` succeeds. -/
def Answers.Loads (a : Answers) (b : Backend) : Prop :=
  (b.probe = true → a.probe = 0) ∧ b.init = true ∧ a.init = 0 ∧ capabilityCheckStrong a.caps = true

/-- A boot after which a backend is active loads the backend that it names; a switch to another backend loads it; no
check finds a backend healthy while the circuit is open; and a request that is let through is routed only to a backend
that is initialised. -/
def StepOk (reg : Registry) (s : State) : Step → Prop
  | .boot cfg a =>
    s.disp.active = none ∨
      ∀ c name, cfg = some c → c.backendName = some name → ∃ b, reg.find (some name) = some b ∧ a.Loads b
  | .hotSwap name a =>
    s.gov.booted = true → ∀ b, reg.find name = some b → s.gov.active.ops ≠ some b → a.Loads b
  | .healthTick answer =>
    s.gov.circuitOpen = true → ∀ b, s.gov.active.ops = some b → b.healthCheck = true ∧ answer ≠ 0
  | .bindDomain _ _ => True
  | .syscall mem req _ =>
    shape s req = kalOk → marshall mem req = kalOk →
      ∀ b, routed reg s.disp.entries req.domain = some b → b.syscall = true → initialised s.calls b = true

/-- What holds besides in the states reached. -/
structure Inv (s : State) : Prop where
  sound : Sound s
  state : s.gov.state = .run
  booted : s.gov.active.ops.isSome = true → s.gov.booted = true
  circuit : s.gov.circuitOpen = true → s.gov.booted = true

variable {reg : Registry} {s t : State} {b : Backend} {r : ℤ}

theorem find_self {name : Option String} (h : reg.find name = some b) : reg.find (some b.name) = some b := by
  obtain ⟨n, rfl, hfind⟩ := Option.bind_eq_some_iff.mp h
  have hname : b.name = n := by simpa using List.find?_some hfind
  rw [hname]
  exact h

/-! ## What the calls do -/

theorem loadBackend_ok {a : Answers} (h : a.Loads b) (out : BackendState) (calls : List Call) :
    ∃ calls', loadBackend b a out calls = (kalOk, ⟨some b, a.caps, true, true, 0⟩, .init b 0 :: calls') := by
  obtain ⟨hprobe, hinit, hzero, hcaps⟩ := h
  have hp : ¬ (b.probe = true ∧ a.probe ≠ 0) := fun hp => hp.2 (hprobe hp.1)
  refine ⟨if b.probe then .probe b :: calls else calls, ?_⟩
  simp [loadBackend, hp, hinit, hzero, hcaps]

theorem capClearAll_weak : capabilityCheckStrong capClearAll = false := by decide

theorem loadBackend_error {a : Answers} (h : ¬ a.Loads b) (out : BackendState) (calls : List Call) :
    ∃ e calls', loadBackend b a out calls = (e, out, calls') ∧ e ≠ kalOk := by
  have hio : kalEIo ≠ kalOk := by decide
  have hsys : kalENoSys ≠ kalOk := by decide
  unfold loadBackend
  dsimp only
  split
  case isTrue => exact ⟨_, _, rfl, hio⟩
  case isFalse hp =>
    cases hinit : b.init with
    | false =>
      -- without `init` no capability is reported
      simp only [Bool.false_eq_true, false_and, if_false, capClearAll_weak, if_true]
      exact ⟨_, _, rfl, hsys⟩
    | true =>
      simp only [true_and, if_true]
      split
      case isTrue => exact ⟨_, _, rfl, hio⟩
      case isFalse hzero =>
        split
        case isTrue => exact ⟨_, _, rfl, hsys⟩
        case isFalse hcaps =>
          refine (h ⟨fun hb => ?_, hinit, by simpa using hzero, by simpa using hcaps⟩).elim
          by_contra hne
          exact hp ⟨hb, hne⟩

/-- A boot without a name does nothing; one that fails leaves the governance empty and the dispatcher as it was. -/
theorem boot_cases {cfg : Option Cfg} {a : Answers} (h : boot reg cfg a s = (r, t)) :
    ((∀ c, cfg = some c → c.backendName = none) ∧ t = s) ∨
      (∃ c name calls, cfg = some c ∧ c.backendName = some name ∧ (∀ b, reg.find (some name) = some b → ¬ a.Loads b) ∧
        t = { s with gov := { Governance.zero with cfg := c.withDefaults }, calls := calls }) ∨
      ∃ c name b calls, cfg = some c ∧ c.backendName = some name ∧ reg.find (some name) = some b ∧ a.Loads b ∧
        t =
          { gov :=
              { Governance.zero with
                cfg := c.withDefaults
                active := ⟨some b, a.caps, true, true, 0⟩
                booted := true }
            disp := dispatcherInit reg b.name
            calls := .init b 0 :: calls } := by
  cases cfg with
  | none =>
    obtain ⟨-, rfl⟩ := Prod.mk.inj h
    exact .inl ⟨by simp, rfl⟩
  | some c =>
    cases hname : c.backendName with
    | none =>
      simp only [boot, hname, if_true, Prod.mk.injEq] at h
      obtain ⟨-, rfl⟩ := h
      exact .inl ⟨by simp [hname], rfl⟩
    | some name =>
      simp only [boot, hname, reduceCtorEq, if_false] at h
      cases hfind : reg.find (some name) with
      | none =>
        simp only [hfind, Prod.mk.injEq] at h
        obtain ⟨-, rfl⟩ := h
        exact .inr (.inl ⟨c, name, s.calls, rfl, hname, by simp [hfind], rfl⟩)
      | some b =>
        simp only [hfind] at h
        by_cases hl : a.Loads b
        · obtain ⟨calls, hload⟩ := loadBackend_ok hl BackendState.zero s.calls
          simp only [Governance.zero, hload, ne_eq, not_true_eq_false, if_false, Prod.mk.injEq] at h
          obtain ⟨-, rfl⟩ := h
          exact .inr (.inr ⟨c, name, b, calls, rfl, hname, hfind, hl, rfl⟩)
        · obtain ⟨e, calls, hload, hne⟩ := loadBackend_error hl BackendState.zero s.calls
          simp only [Governance.zero, hload, ne_eq, hne, not_false_eq_true, if_true, Prod.mk.injEq] at h
          obtain ⟨-, rfl⟩ := h
          refine .inr (.inl ⟨c, name, calls, rfl, hname, fun b' hb' => ?_, rfl⟩)
          obtain rfl := Option.some.inj (hfind.symm.trans hb')
          exact hl

/-- A switch that is refused, or to the active backend, does nothing. One that fails leaves the old backend unloaded. -/
theorem hotSwap_cases {name : Option String} {a : Answers} (hs : s.gov.state = .run)
    (h : hotSwap reg name a s = some (r, t)) :
    ((s.gov.booted = false ∨ reg.find name = none ∨ ∃ b, reg.find name = some b ∧ s.gov.active.ops = some b) ∧ t = s) ∨
      (∃ b, s.gov.booted = true ∧ reg.find name = some b ∧ s.gov.active.ops ≠ some b ∧ ¬ a.Loads b ∧ r ≠ kalOk ∧
        t.gov.state = .run ∧ t.gov.active = { s.gov.active with loaded := false }) ∨
      ∃ b shell calls, s.gov.booted = true ∧ reg.find name = some b ∧ a.Loads b ∧ r = kalOk ∧
        t =
          { gov :=
              { s.gov with
                active := ⟨some b, a.caps, true, true, 0⟩
                standby := .zero
                state := .run
                shadow := shell
                circuitOpen := false
                degradeWindow := true }
            disp := { s.disp with active := some b, activeName := some b.name, circuitOpen := false }
            calls := .init b 0 :: calls } := by
  cases hbooted : s.gov.booted with
  | false =>
    simp only [hotSwap, hbooted, if_true, Option.some.injEq, Prod.mk.injEq] at h
    exact .inl ⟨.inl rfl, h.2.symm⟩
  | true =>
    simp only [hotSwap, hbooted, hs, ne_eq, not_true_eq_false, if_false, Bool.true_eq_false] at h
    cases hfind : reg.find name with
    | none =>
      simp only [hfind, Option.some.injEq, Prod.mk.injEq] at h
      exact .inl ⟨.inr (.inl rfl), h.2.symm⟩
    | some b =>
      simp only [hfind] at h
      cases hops : s.gov.active.ops with
      | none =>
        rw [hops] at h
        cases h
      | some old =>
        simp only [hops] at h
        by_cases heq : b = old
        · simp only [heq, if_true, Option.some.injEq, Prod.mk.injEq] at h
          exact .inl ⟨.inr (.inr ⟨b, rfl, by rw [heq]⟩), h.2.symm⟩
        · simp only [heq, if_false] at h
          by_cases hl : a.Loads b
          · obtain ⟨calls, hload⟩ := loadBackend_ok hl s.gov.standby
              (if old.shutdown then .shutdown old :: (if old.hotSwapPause then .hotSwapPause old :: s.calls else s.calls)
                else if old.hotSwapPause then .hotSwapPause old :: s.calls else s.calls)
            simp only [hload, not_true_eq_false, if_false, Option.some.injEq, Prod.mk.injEq, find_self hfind] at h
            obtain ⟨rfl, rfl⟩ := h
            refine .inr (.inr ⟨b, checkpointShell, calls, rfl, rfl, hl, rfl, ?_⟩)
            -- there is nothing to restore
            simp [restoreShell, checkpointShell, hbooted]
          · obtain ⟨e, calls, hload, hne⟩ := loadBackend_error hl s.gov.standby
              (if old.shutdown then .shutdown old :: (if old.hotSwapPause then .hotSwapPause old :: s.calls else s.calls)
                else if old.hotSwapPause then .hotSwapPause old :: s.calls else s.calls)
            simp only [hload, hne, not_false_eq_true, if_true, Option.some.injEq, Prod.mk.injEq] at h
            obtain ⟨rfl, rfl⟩ := h
            refine .inr (.inl ⟨b, rfl, rfl, ?_, hl, hne, rfl, by simp [hops]⟩)
            intro hb
            exact heq (Option.some.inj hb).symm

/-- A check marks the active backend; the circuits are opened only together, and never closed. -/
theorem healthTick_cases {answer : ℤ} (h : healthTick answer s = (r, t)) :
    (t = s ∧ (s.gov.booted = false ∨ s.gov.active.ops = none)) ∨
      ∃ b calls, s.gov.booted = true ∧ s.gov.active.ops = some b ∧
        (calls = s.calls ∨ calls = .healthCheck b :: s.calls) ∧
        ((¬ (b.healthCheck = true ∧ answer ≠ 0) ∧
            t = { s with
                  gov := { s.gov with active := { s.gov.active with healthy := true, failCount := 0 } }
                  calls := calls }) ∨
          ((b.healthCheck = true ∧ answer ≠ 0) ∧ ∃ n,
            (t = { s with
                   gov := { s.gov with active := { s.gov.active with healthy := false, failCount := n } }
                   calls := calls } ∨
              t = { gov :=
                      { s.gov with
                        active := { s.gov.active with healthy := false, failCount := n }
                        circuitOpen := true }
                    disp := { s.disp with circuitOpen := true }
                    calls := calls }))) := by
  unfold healthTick at h
  split at h
  case h_2 hno =>
    refine .inl ⟨(Prod.mk.inj h).2.symm, ?_⟩
    cases hbooted : s.gov.booted with
    | false => exact .inl rfl
    | true =>
      cases hops : s.gov.active.ops with
      | none => exact .inr rfl
      | some b => exact (hno b hbooted hops).elim
  case h_1 b hbooted hops =>
    right
    dsimp only at h
    refine ⟨b, if b.healthCheck then .healthCheck b :: s.calls else s.calls, hbooted, hops, ?_, ?_⟩
    · split
      · exact .inr rfl
      · exact .inl rfl
    split at h
    case isTrue hyes =>
      refine .inl ⟨?_, (Prod.mk.inj h).2.symm⟩
      rintro ⟨hc, ha⟩
      rcases hyes with hno | h0
      · rw [hno] at hc
        cases hc
      · exact ha h0
    case isFalse hno =>
      refine .inr ⟨by simpa using hno, s.gov.active.failCount + 1, ?_⟩
      split at h
      · exact .inr (Prod.mk.inj h).2.symm
      · exact .inl (Prod.mk.inj h).2.symm

theorem bindDomain_frame {domain : UInt32} {name : Option String} {d d' : Dispatcher}
    (h : bindDomain reg domain name d = (r, d')) : d'.active = d.active ∧ d'.circuitOpen = d.circuitOpen := by
  unfold bindDomain at h
  split at h
  · obtain ⟨-, rfl⟩ := Prod.mk.inj h
    exact ⟨rfl, rfl⟩
  · split at h
    · obtain ⟨-, rfl⟩ := Prod.mk.inj h
      exact ⟨rfl, rfl⟩
    · split at h
      · obtain ⟨-, rfl⟩ := Prod.mk.inj h
        exact ⟨rfl, rfl⟩
      · split at h
        all_goals
          obtain ⟨-, rfl⟩ := Prod.mk.inj h
          exact ⟨rfl, rfl⟩

/-- A request is refused, or reaches the backend that its domain is routed to or the active one. -/
theorem dispatcherSyscall_cases {mem : BitVec 64 → UInt8} {req : Request} {answer : ℤ}
    (h : dispatcherSyscall reg mem req answer s = (r, t)) :
    (t = s ∧ ¬ (shape s req = kalOk ∧ marshall mem req = kalOk ∧
        ∃ b, pickBackend reg s.disp req.domain = some b ∧ b.syscall = true)) ∨
      ∃ b, shape s req = kalOk ∧ marshall mem req = kalOk ∧ pickBackend reg s.disp req.domain = some b ∧
        b.syscall = true ∧ t = { s with calls := .syscall b req :: s.calls } := by
  unfold dispatcherSyscall at h
  split at h
  case isTrue hno => exact .inl ⟨(Prod.mk.inj h).2.symm, fun hp => hno hp.1⟩
  case isFalse hshape =>
    split at h
    case h_1 hpick =>
      refine .inl ⟨(Prod.mk.inj h).2.symm, ?_⟩
      rintro ⟨-, -, b, hb, -⟩
      rw [hpick] at hb
      cases hb
    case h_2 b hpick =>
      split at h
      case isTrue hno =>
        refine .inl ⟨(Prod.mk.inj h).2.symm, ?_⟩
        rintro ⟨-, -, b', hb', hsys⟩
        rw [hpick] at hb'
        obtain rfl := Option.some.inj hb'
        rw [hno] at hsys
        cases hsys
      case isFalse hsys =>
        split at h
        case isTrue hno => exact .inl ⟨(Prod.mk.inj h).2.symm, fun hp => hno hp.2.1⟩
        case isFalse hmar =>
          exact .inr ⟨b, by simpa using hshape, by simpa using hmar, hpick, by simpa using hsys, (Prod.mk.inj h).2.symm⟩

/-! ## One call -/

theorem Inv.start : Inv State.start where
  sound :=
    { loaded := fun _ b hb => by cases hb
      booted := fun hb => by cases hb
      same := rfl
      circuits := rfl
      closes := fun hc => by cases hc }
  state := rfl
  booted := fun hb => by cases hb
  circuit := fun hc => by cases hc

theorem self_ne {P : Prop} {req : Request} (h : s.calls = .syscall b req :: s.calls) : P := by
  have hlen := congrArg List.length h
  rw [List.length_cons] at hlen
  omega

theorem Inv.right_self (hs : Inv s) {i : Step} : Right s i r s :=
  ⟨hs.sound, fun _ _ _ _ _ h => self_ne h, fun _ _ _ _ => ⟨rfl, rfl, rfl, rfl, fun _ _ => rfl⟩⟩

/-- A call of a state that holds the invariant is right exactly if it meets the condition, and then it keeps it. -/
structure Exact (reg : Registry) (s : State) (i : Step) (r : ℤ) (t : State) : Prop where
  inv : StepOk reg s i → Inv t
  right : Right s i r t ↔ StepOk reg s i

theorem Inv.exact_boot {cfg : Option Cfg} {a : Answers} (hs : Inv s) (h : boot reg cfg a s = (r, t)) :
    Exact reg s (.boot cfg a) r t := by
  rcases boot_cases h with ⟨hnone, rfl⟩ | ⟨c, name, calls, rfl, hname, hload, rfl⟩ |
      ⟨c, name, b, calls, rfl, hname, hfind, hload, rfl⟩
  · refine ⟨fun _ => hs, fun _ => .inr ?_, fun _ => hs.right_self⟩
    intro c name hc hname
    rw [hnone c hc] at hname
    cases hname
  · -- the dispatcher keeps its active backend
    have hactive : StepOk reg s (.boot (some c) a) → s.disp.active = none := by
      rintro (hno | hall)
      · exact hno
      · obtain ⟨b, hb, hl⟩ := hall c name rfl hname
        exact (hload b hb hl).elim
    have hinv (hno : s.disp.active = none) :
        Inv { s with gov := { Governance.zero with cfg := c.withDefaults }, calls := calls } := by
      have hclosed : s.gov.circuitOpen = false := by
        by_contra hopen
        have hsome := hs.sound.booted (hs.circuit (by simpa using hopen))
        rw [← hs.sound.same, hno] at hsome
        cases hsome
      exact
        { sound :=
            { loaded := fun _ b hb => by cases hb
              booted := fun hb => by cases hb
              same := hno
              circuits := hs.sound.circuits.trans hclosed
              closes := fun hc => by cases hc }
          state := rfl
          booted := fun hb => by cases hb
          circuit := fun hc => by cases hc }
    refine ⟨fun hok => hinv (hactive hok), fun hr => .inl hr.sound.same, fun hok => ?_⟩
    exact ⟨(hinv (hactive hok)).sound, fun _ _ _ hi => (by cases hi), fun _ _ hi => (by cases hi)⟩
  · have hinv : Inv
        { gov :=
            { Governance.zero with
              cfg := c.withDefaults
              active := ⟨some b, a.caps, true, true, 0⟩
              booted := true }
          disp := dispatcherInit reg b.name
          calls := .init b 0 :: calls } :=
      { sound :=
          { loaded := by
              intro _ b' hb'
              obtain rfl := Option.some.inj hb'
              exact ⟨rfl, by simp [initialised]⟩
            booted := fun _ => rfl
            same := find_self hfind
            circuits := rfl
            closes := fun hc => by cases hc }
        state := rfl
        booted := fun _ => rfl
        circuit := fun _ => rfl }
    refine ⟨fun _ => hinv, fun _ => .inr ?_, fun _ => ?_⟩
    · intro c' name' hc' hname'
      obtain rfl := Option.some.inj hc'
      obtain rfl := Option.some.inj (hname.symm.trans hname')
      exact ⟨b, hfind, hload⟩
    · exact ⟨hinv.sound, fun _ _ _ hi => (by cases hi), fun _ _ hi => (by cases hi)⟩

theorem Inv.exact_hotSwap {name : Option String} {a : Answers} (hs : Inv s) (h : hotSwap reg name a s = some (r, t)) :
    Exact reg s (.hotSwap name a) r t := by
  rcases hotSwap_cases hs.state h with ⟨hno, rfl⟩ | ⟨b, hbooted, hfind, hne, hload, hr, hstate, hactive⟩ |
      ⟨b, shell, calls, hbooted, hfind, hload, rfl, rfl⟩
  · refine ⟨fun _ => hs, fun _ => ?_, fun _ => hs.right_self⟩
    intro hbooted b hb hne
    rcases hno with hno | hno | ⟨b', hb', hops⟩
    · rw [hno] at hbooted
      cases hbooted
    · rw [hno] at hb
      cases hb
    · obtain rfl := Option.some.inj (hb.symm.trans hb')
      exact (hne hops).elim
  · have hnot : ¬ StepOk reg s (.hotSwap name a) := fun hok => hload (hok hbooted b hfind hne)
    refine ⟨fun hok => (hnot hok).elim, fun hright => ?_, fun hok => (hnot hok).elim⟩
    -- the backend that is still the active one is no longer loaded
    obtain ⟨old, hold⟩ := Option.isSome_iff_exists.mp (hs.sound.booted hbooted)
    have hloaded := (hright.sound.loaded hstate old (by rw [hactive]; exact hold)).1
    rw [hactive] at hloaded
    cases hloaded
  · have hinv : Inv
        { gov :=
            { s.gov with
              active := ⟨some b, a.caps, true, true, 0⟩
              standby := .zero
              state := .run
              shadow := shell
              circuitOpen := false
              degradeWindow := true }
          disp := { s.disp with active := some b, activeName := some b.name, circuitOpen := false }
          calls := .init b 0 :: calls } :=
      { sound :=
          { loaded := by
              intro _ b' hb'
              obtain rfl := Option.some.inj hb'
              exact ⟨rfl, by simp [initialised]⟩
            booted := fun _ => rfl
            same := rfl
            circuits := rfl
            closes := fun hc => by cases hc }
        state := rfl
        booted := fun _ => hbooted
        circuit := fun _ => hbooted }
    refine ⟨fun _ => hinv, fun _ => ?_, fun _ => ?_⟩
    · intro _ b' hb' _
      obtain rfl := Option.some.inj (hfind.symm.trans hb')
      exact hload
    · exact ⟨hinv.sound, fun _ _ _ hi => (by cases hi), fun _ _ _ hne => (hne rfl).elim⟩

theorem Inv.exact_healthTick {answer : ℤ} (hs : Inv s) (h : healthTick answer s = (r, t)) :
    Exact reg s (.healthTick answer) r t := by
  rcases healthTick_cases h with ⟨rfl, hno⟩ | ⟨b, calls, hbooted, hops, hcalls, hcase⟩
  · refine ⟨fun _ => hs, fun _ => ?_, fun _ => hs.right_self⟩
    intro hopen b hb
    rcases hno with hno | hno
    · rw [hs.circuit hopen] at hno
      cases hno
    · rw [hb] at hno
      cases hno
  · have hinit (b' : Backend) : initialised calls b' = initialised s.calls b' := by
      rcases hcalls with rfl | rfl
      · rfl
      · simp [initialised]
    have hloaded (b' : Backend) (hb' : s.gov.active.ops = some b') :
        s.gov.active.loaded = true ∧ initialised calls b' = true := by
      rw [hinit]
      exact hs.sound.loaded hs.state b' hb'
    have hright (ht : Sound t) : Right s (.healthTick answer) r t :=
      ⟨ht, fun _ _ _ hi => (by cases hi), fun _ _ hi => (by cases hi)⟩
    rcases hcase with ⟨hgood, rfl⟩ | ⟨hbad, n, rfl | rfl⟩
    · have hiff : StepOk reg s (.healthTick answer) ↔ s.gov.circuitOpen = false := by
        refine ⟨fun hok => ?_, fun hclosed hopen => ?_⟩
        · by_contra hopen
          exact hgood (hok (by simpa using hopen) b hops)
        · rw [hclosed] at hopen
          cases hopen
      have hinv (hclosed : s.gov.circuitOpen = false) : Inv { s with
          gov := { s.gov with active := { s.gov.active with healthy := true, failCount := 0 } }, calls := calls } :=
        { sound :=
            { loaded := fun _ b' hb' => hloaded b' hb'
              booted := hs.sound.booted
              same := hs.sound.same
              circuits := hs.sound.circuits
              closes := fun hopen => by
                change s.gov.circuitOpen = true at hopen
                rw [hclosed] at hopen
                cases hopen }
          state := hs.state
          booted := hs.booted
          circuit := hs.circuit }
      refine ⟨fun hok => hinv (hiff.mp hok), fun hr => hiff.mpr ?_, fun hok => hright (hinv (hiff.mp hok)).sound⟩
      by_contra hopen
      have hunhealthy := hr.sound.closes (by simpa using hopen)
      cases hunhealthy
    · have hinv : Inv { s with
          gov := { s.gov with active := { s.gov.active with healthy := false, failCount := n } }, calls := calls } :=
        { sound :=
            { loaded := fun _ b' hb' => hloaded b' hb'
              booted := hs.sound.booted
              same := hs.sound.same
              circuits := hs.sound.circuits
              closes := fun _ => rfl }
          state := hs.state
          booted := hs.booted
          circuit := hs.circuit }
      exact ⟨fun _ => hinv, fun _ _ b' hb' => by rwa [← Option.some.inj (hops.symm.trans hb')], fun _ => hright hinv.sound⟩
    · have hinv : Inv
          { gov := { s.gov with active := { s.gov.active with healthy := false, failCount := n }, circuitOpen := true }
            disp := { s.disp with circuitOpen := true }
            calls := calls } :=
        { sound :=
            { loaded := fun _ b' hb' => hloaded b' hb'
              booted := hs.sound.booted
              same := hs.sound.same
              circuits := rfl
              closes := fun _ => rfl }
          state := hs.state
          booted := hs.booted
          circuit := fun _ => hbooted }
      exact ⟨fun _ => hinv, fun _ _ b' hb' => by rwa [← Option.some.inj (hops.symm.trans hb')], fun _ => hright hinv.sound⟩

theorem Inv.exact_bindDomain {domain : UInt32} {name : Option String} {d : Dispatcher} (hs : Inv s)
    (h : bindDomain reg domain name s.disp = (r, d)) :
    Exact reg s (.bindDomain domain name) r { s with disp := d } := by
  obtain ⟨hactive, hcircuit⟩ := bindDomain_frame h
  have hinv : Inv { s with disp := d } :=
    { sound :=
        { loaded := hs.sound.loaded
          booted := hs.sound.booted
          same := hactive.trans hs.sound.same
          circuits := hcircuit.trans hs.sound.circuits
          closes := hs.sound.closes }
      state := hs.state
      booted := hs.booted
      circuit := hs.circuit }
  exact ⟨fun _ => hinv, fun _ => trivial, fun _ => ⟨hinv.sound, fun _ _ _ hi => (by cases hi), fun _ _ hi => (by cases hi)⟩⟩

theorem Inv.exact_syscall {mem : BitVec 64 → UInt8} {req : Request} {answer : ℤ} (hs : Inv s)
    (h : dispatcherSyscall reg mem req answer s = (r, t)) : Exact reg s (.syscall mem req answer) r t := by
  rcases dispatcherSyscall_cases h with ⟨rfl, hno⟩ | ⟨b, hshape, hmar, hpick, hsys, rfl⟩
  · refine ⟨fun _ => hs, fun _ => ?_, fun _ => hs.right_self⟩
    intro hshape hmar b hb hsys
    refine (hno ⟨hshape, hmar, b, ?_, hsys⟩).elim
    rw [pickBackend, hb]
    rfl
  · have hinv : Inv { s with calls := .syscall b req :: s.calls } :=
      { sound :=
          { loaded := fun hrun b' hb' => by
              simp only [initialised]
              exact hs.sound.loaded hrun b' hb'
            booted := hs.sound.booted
            same := hs.sound.same
            circuits := hs.sound.circuits
            closes := hs.sound.closes }
        state := hs.state
        booted := hs.booted
        circuit := hs.circuit }
    refine ⟨fun _ => hinv, fun hright => ?_, fun hok => ?_⟩
    · intro _ _ b' hb' _
      rw [pickBackend, hb'] at hpick
      obtain rfl := Option.some.inj hpick
      exact hright.reaches mem req answer rfl b' rfl
    · refine ⟨hinv.sound, fun _ _ _ hi b' hb' => ?_, fun _ _ hi => (by cases hi)⟩
      obtain ⟨-, rfl, -⟩ := Step.syscall.inj hi
      obtain ⟨rfl, -⟩ := Call.syscall.inj (List.cons.inj hb').1
      cases hroute : routed reg s.disp.entries req.domain with
      | some b' =>
        rw [pickBackend, hroute] at hpick
        obtain rfl := Option.some.inj hpick
        exact hok hshape hmar b' hroute hsys
      | none =>
        rw [pickBackend, hroute, Option.none_or, hs.sound.same] at hpick
        exact (hs.sound.loaded hs.state b hpick).2

/-- The active backend is there when it is dereferenced. -/
theorem Inv.hotSwap_returns (hs : Inv s) (reg : Registry) (name : Option String) (a : Answers) :
    (hotSwap reg name a s).isSome = true := by
  cases hbooted : s.gov.booted with
  | false =>
    simp only [hotSwap, hbooted, if_true]
    rfl
  | true =>
    obtain ⟨old, hold⟩ := Option.isSome_iff_exists.mp (hs.sound.booted hbooted)
    simp only [hotSwap, hbooted, hs.state, hold, Bool.true_eq_false, ne_eq, not_true_eq_false, if_false]
    cases reg.find name with
    | none => rfl
    | some new =>
      dsimp only
      by_cases heq : new = old
      · rw [if_pos heq]
        rfl
      · rw [if_neg heq]
        generalize loadBackend new a _ _ = load
        split <;> rfl

theorem Inv.call_exact (hs : Inv s) (reg : Registry) (i : Step) : ∃ r t, call reg s i = some (r, t) ∧ Exact reg s i r t := by
  cases i with
  | boot cfg a => exact ⟨_, _, rfl, hs.exact_boot rfl⟩
  | hotSwap name a =>
    obtain ⟨⟨r, t⟩, hx⟩ := Option.isSome_iff_exists.mp (hs.hotSwap_returns reg name a)
    exact ⟨r, t, hx, hs.exact_hotSwap hx⟩
  | healthTick answer => exact ⟨_, _, rfl, hs.exact_healthTick rfl⟩
  | bindDomain domain name => exact ⟨_, _, rfl, hs.exact_bindDomain rfl⟩
  | syscall mem req answer => exact ⟨_, _, rfl, hs.exact_syscall rfl⟩

/-! ## Runs -/

theorem inv_of_reach (h : Reach (step reg) (StepOk reg) State.start s) : Inv s := by
  refine Reach.invariant .start (fun s i t hs hok hst => ?_) h
  obtain ⟨r, u, hcall, hexact⟩ := hs.call_exact reg i
  rw [step, hcall] at hst
  obtain rfl : u = t := Option.some.inj hst
  exact hexact.inv hok

/-- In every run whose calls meet the condition the state is sound, every further call returns, and it is right if and
only if it meets the condition. -/
theorem backends_served (reg : Registry) (s : State) (h : Reach (step reg) (StepOk reg) State.start s) :
    Sound s ∧ ∀ i, ∃ r t, call reg s i = some (r, t) ∧ (Right s i r t ↔ StepOk reg s i) := by
  have hinv := inv_of_reach h
  refine ⟨hinv.sound, fun i => ?_⟩
  obtain ⟨r, t, hcall, hexact⟩ := hinv.call_exact reg i
  exact ⟨r, t, hcall, hexact.right⟩

/-- Two backends. -/
def twoBackends : Registry where
  backends := [⟨"linuxlike", true, true, true, true, true, true, true⟩, ⟨"micro", true, true, true, true, true, true, true⟩]
  names_nodup := by decide
  length_le := by decide

def bootLinuxlike : Step := .boot (some ⟨some "linuxlike", 0, 0, 0, false⟩) ⟨0, 0, strongContractMask⟩

theorem backends_served_boot :
    ∃ s, step twoBackends State.start bootLinuxlike = some s ∧ s.gov.active.loaded = true ∧
      Sound s ∧ ∀ i, ∃ r t, call twoBackends s i = some (r, t) ∧ (Right s i r t ↔ StepOk twoBackends s i) := by
  obtain ⟨s, hs⟩ : ∃ s, step twoBackends State.start bootLinuxlike = some s := ⟨_, rfl⟩
  have hloaded : (step twoBackends State.start bootLinuxlike).map (fun s => s.gov.active.loaded) = some true := by decide
  rw [hs] at hloaded
  exact ⟨s, hs, Option.some.inj hloaded, backends_served twoBackends s (Reach.start.step bootLinuxlike (.inl rfl) hs)⟩

/-- A switch whose `init` fails leaves the old backend as the active one, shut down. -/
theorem hotSwap_unloads :
    ∃ s r t, step twoBackends State.start bootLinuxlike = some s ∧
      call twoBackends s (.hotSwap (some "micro") ⟨0, 1, strongContractMask⟩) = some (r, t) ∧ r ≠ kalOk ∧
      t.gov.state = .run ∧ t.gov.active.loaded = false ∧
      ∃ b, s.disp.active = some b ∧ t.disp.active = some b ∧ initialised s.calls b = true ∧
        initialised t.calls b = false := by
  refine ⟨_, _, _, rfl, rfl, by decide, rfl, rfl, ⟨"linuxlike", true, true, true, true, true, true, true⟩, ?_⟩
  exact ⟨by decide, by decide, by decide, by decide⟩

end Kal
