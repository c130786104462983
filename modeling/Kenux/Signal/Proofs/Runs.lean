import Kenux.Signal.Proofs.Delivery

/-!
# Runs of a process with signals
-/

namespace Signal

open Run
open Function (update_self update_of_ne)

variable {sd sd' : SignalStruct} {sent : ℕ → List Info} {log log' : ℕ → List Delivery} {t : Traced} {p : Process}
  {s sig pid : ℕ} {info : Option Info} {act : Action} {blocked : SigSet}

/-! ## The mask of a handler -/

theorem mem_handlerMask (hsig : 0 < sig ∧ sig ≤ sigMax) : sigismember (handlerMask sig act blocked) s =
    ((sigismember blocked s || sigismember act.saMask s || (act.saFlags &&& saNodefer == 0#32 && decide (s = sig))) &&
      !decide (s = sigKill) && !decide (s = sigStop)) := by
  unfold handlerMask
  dsimp only
  rw [sigismember_del, sigismember_del]
  by_cases hflag : act.saFlags &&& saNodefer = 0#32
  · rw [if_pos hflag, sigismember_add hsig, sigismember_or, hflag]
    simp
  · rw [if_neg hflag, sigismember_or, beq_false_of_ne hflag]
    simp

theorem keepsMask_iff (hsig : 0 < sig ∧ sig ≤ sigMax) (hkill : sig ≠ sigKill) (hstop : sig ≠ sigStop)
    (hfree : sigismember blocked sig = false)
    (hnever : ∀ s, s = sigKill ∨ s = sigStop → sigismember blocked s = false) :
    handlerMask sig act blocked = blocked ↔ act.KeepsMask blocked := by
  constructor
  · intro heq
    constructor
    · intro hflag
      have hmem : sigismember (handlerMask sig act blocked) sig = true := by
        rw [mem_handlerMask hsig, hflag]
        simp [hkill, hstop]
      rw [heq, hfree] at hmem
      cases hmem
    · intro s hsk hss hmask
      rw [← heq, mem_handlerMask hsig, hmask]
      simp [hsk, hss]
  · rintro ⟨hflag, hmask⟩
    refine sigset_ext fun s => ?_
    rw [mem_handlerMask hsig, beq_false_of_ne hflag]
    by_cases hs : s = sigKill ∨ s = sigStop
    · rw [hnever s hs]
      rcases hs with rfl | rfl
      · simp
      · simp
    · obtain ⟨hsk, hss⟩ := not_or.mp hs
      cases hmem : sigismember act.saMask s with
      | false => simp [hsk, hss]
      | true =>
        rw [hmask s hsk hss hmem]
        simp [hsk, hss]

/-! ## `signal_do_pending` -/

theorem taken_masks (htaken : sd.Taken sig) :
    sigismember sd.pending sig = true ∧ sigismember sd.blocked sig = false := by
  have hdue := htaken.1
  unfold SignalStruct.due at hdue
  rw [Bool.and_eq_true, Bool.not_eq_true'] at hdue
  exact hdue

/-- The two signals that cannot be caught are not. -/
theorem Sound.catchable (h : Sound sd sent log) (hcatch : sd.Catches sig) : sig ≠ sigKill ∧ sig ≠ sigStop :=
  ⟨fun heq => hcatch.2 (h.kill sig (.inl heq)).2, fun heq => hcatch.2 (h.kill sig (.inr heq)).2⟩

theorem Sound.keepsMask (h : Sound sd sent log) (htaken : sd.Taken sig) (hcatch : sd.Catches sig) :
    handlerMask sig (sd.actions sig) sd.blocked = sd.blocked ↔ (sd.actions sig).KeepsMask sd.blocked := by
  obtain ⟨hkill, hstop⟩ := h.catchable hcatch
  exact keepsMask_iff (due_range htaken.1) hkill hstop (taken_masks htaken).2 fun s hs => (h.kill s hs).1

/-- What a call has to find for the signals that it takes. -/
def TakesWell (sd : SignalStruct) (pid : ℕ) : Prop :=
  ∀ sig, sd.Taken sig →
    (RealTime sig → ∃ info, sd.queues sig = [info] ∧ (sd.Catches sig → info = frameInfo pid sig)) ∧
    (sd.Catches sig → (sd.actions sig).KeepsMask sd.blocked)

theorem Sound.of_done (h : Sound sd sent log) (hdone : Done sd pid log sd' log') (hwell : TakesWell sd pid) :
    Sound sd' sent log' := by
  have hblocked : sd'.blocked = sd.blocked := by
    by_cases hcaught : ∃ s, sd.Taken s ∧ sd.Catches s
    · obtain ⟨s, hs, hc⟩ := hcaught
      rw [(hdone.caught s hs hc).2]
      exact (h.keepsMask hs hc).mpr ((hwell s hs).2 hc)
    · exact hdone.blocked fun s hs hc => hcaught ⟨s, hs, hc⟩
  -- a delivery that is new in the log
  have hnew : ∀ s, ∀ d ∈ log' s, d ∈ log s ∨ sd.Taken s ∧ d.before = sd.blocked ∧
      ∀ mask, d.saved = some mask → mask = sd.blocked := by
    intro s d hd
    by_cases hs : sd.Taken s
    · by_cases hc : sd.Catches s
      · rw [(hdone.caught s hs hc).1] at hd
        refine (List.mem_append.mp hd).imp_right fun hd => ?_
        obtain rfl := List.mem_singleton.mp hd
        refine ⟨hs, rfl, fun mask hmask => ?_⟩
        rw [← Option.some.inj hmask]
        exact (h.keepsMask hs hc).mpr ((hwell s hs).2 hc)
      · rw [hdone.dropped s hs hc] at hd
        refine (List.mem_append.mp hd).imp_right fun hd => ?_
        obtain rfl := List.mem_singleton.mp hd
        exact ⟨hs, rfl, fun mask hmask => nomatch hmask⟩
    · rw [hdone.quiet s hs] at hd
      exact .inl hd
  refine ⟨fun s hrt => ?_, fun s hrt => ?_, fun s d hd => ?_, fun s hs => ?_, fun s d hd mask hmask => ?_⟩
  · rw [hdone.pending]
    by_cases hs : sd.Taken s
    · obtain ⟨info, hqueue, -⟩ := (hwell s hs).1 hrt
      rw [hdone.taken s hs hrt.1, hqueue]
      exact iff_of_false (fun hand => hand.2 hs) fun hne => hne rfl
    · rw [hdone.left s fun hand => hs hand.1, and_iff_left hs]
      exact h.pending s hrt
  · have hledger := h.ledger s hrt
    by_cases hs : sd.Taken s
    · obtain ⟨info, hqueue, hinfo⟩ := (hwell s hs).1 hrt
      rw [hdone.taken s hs hrt.1, hledger, hqueue]
      by_cases hc : sd.Catches s
      · rw [(hdone.caught s hs hc).1, hinfo hc]
        simp [SignalStruct.caught]
      · rw [hdone.dropped s hs hc]
        simp [SignalStruct.dropped, hqueue]
    · rw [hdone.quiet s hs, hdone.left s fun hand => hs hand.1]
      exact hledger
  · rcases hnew s d hd with hold | ⟨hs, hbefore, -⟩
    · exact h.unblocked s d hold
    · rw [hbefore]
      exact (taken_masks hs).2
  · rw [hblocked, hdone.actions]
    exact h.kill s hs
  · rcases hnew s d hd with hold | ⟨-, hbefore, hsaved⟩
    · exact h.saved s d hold mask hmask
    · rw [hbefore]
      exact hsaved mask hmask

theorem Sound.takesWell (h : Sound sd sent log) (hdone : Done sd pid log sd' log') (h' : Sound sd' sent log') :
    TakesWell sd pid := by
  intro s hs
  constructor
  · intro hrt
    have hpending := (h.pending s hrt).mp (taken_masks hs).1
    obtain ⟨info, rest, hqueue⟩ := List.exists_cons_of_ne_nil hpending
    have hrest : rest = [] := by
      by_contra hne
      have hbit := (h'.pending s hrt).mpr (by rw [hdone.taken s hs hrt.1, hqueue]; exact hne)
      exact ((hdone.pending s).mp hbit).2 hs
    subst hrest
    refine ⟨info, hqueue, fun hc => ?_⟩
    have hledger := h.ledger s hrt
    have hledger' := h'.ledger s hrt
    rw [hledger, (hdone.caught s hs hc).1, hdone.taken s hs hrt.1, hqueue, List.map_append, List.tail_cons,
      List.append_nil] at hledger'
    exact List.singleton_inj.mp (List.append_cancel_left hledger')
  · intro hc
    have hmem : sd.caught pid s ∈ log' s := by
      rw [(hdone.caught s hs hc).1]
      exact List.mem_append_right _ List.mem_cons_self
    exact (h.keepsMask hs hc).mp (h'.saved s _ hmem _ rfl)

theorem doPending_iff (h : t.Sound) : (step t .doPending).Sound ↔ t.Kept .doPending := by
  obtain ⟨sd, hsd, hsound⟩ := h
  have hspec : ∃ p' sd' log', signalDoPending t.process t.log = (p', log') ∧ p'.signalData = some sd' ∧
      p'.pid = t.process.pid ∧ Done sd t.process.pid t.log sd' log' := signalDoPending_spec hsd
  obtain ⟨p', sd', log', hcall, hsd', -, hdone⟩ := hspec
  have hstep : step t .doPending = { t with process := p', log := log' } := by
    show { t with process := (signalDoPending t.process t.log).1, log := (signalDoPending t.process t.log).2 } = _
    rw [hcall]
  rw [hstep]
  constructor
  · rintro ⟨sd₁, hsd₁, hsound'⟩
    obtain rfl : sd' = sd₁ := Option.some.inj (hsd'.symm.trans hsd₁)
    intro sd₂ hsd₂
    obtain rfl : sd = sd₂ := Option.some.inj (hsd.symm.trans hsd₂)
    exact hsound.takesWell hdone hsound'
  · exact fun hkept => ⟨sd', hsd', hsound.of_done hdone (hkept sd hsd)⟩

/-! ## `signal_send` -/

/-- Nothing but what the code does not look at for real-time signals is different. -/
theorem Sound.congr {sent' : ℕ → List Info} (h : Sound sd sent log) (hactions : sd'.actions = sd.actions)
    (hblocked : sd'.blocked = sd.blocked) (hqueues : sd'.queues = sd.queues)
    (hpending : ∀ s, RealTime s → sigismember sd'.pending s = sigismember sd.pending s)
    (hsent : ∀ s, RealTime s → sent' s = sent s) : Sound sd' sent' log := by
  refine ⟨fun s hrt => ?_, fun s hrt => ?_, h.unblocked, fun s hs => ?_, h.saved⟩
  · rw [hpending s hrt, hqueues]
    exact h.pending s hrt
  · rw [hsent s hrt, hqueues]
    exact h.ledger s hrt
  · rw [hblocked, hactions]
    exact h.kill s hs

theorem Sound.post_plain (h : Sound sd sent log) (hsig : 0 < sig ∧ sig ≤ sigMax) (hrt : ¬sigRtMin ≤ sig) :
    Sound (sd.post sig info) (Function.update sent sig (sent sig ++ [newEntry sig info])) log := by
  have hne : ∀ s, RealTime s → s ≠ sig := fun s hs heq => hrt (heq ▸ hs.1)
  unfold SignalStruct.post
  rw [if_neg hrt]
  refine h.congr rfl rfl rfl (fun s hs => ?_) fun s hs => update_of_ne (hne s hs) ..
  rw [sigismember_add hsig, decide_eq_false (hne s hs), Bool.or_false]

theorem Sound.post_room (h : Sound sd sent log) (hrt : RealTime sig) (hroom : (sd.queues sig).length < sigQueueMax) :
    Sound (sd.post sig info) (Function.update sent sig (sent sig ++ [newEntry sig info])) log := by
  have hsig : 0 < sig ∧ sig ≤ sigMax := ⟨Nat.lt_of_lt_of_le (by decide) hrt.1, hrt.2⟩
  unfold SignalStruct.post
  rw [if_pos hrt.1, if_pos hroom]
  refine ⟨fun s hs => ?_, fun s hs => ?_, h.unblocked, h.kill, h.saved⟩
  · show sigismember (sigaddset sd.pending sig) s = true ↔
      Function.update sd.queues sig (sd.queues sig ++ [newEntry sig info]) s ≠ []
    rw [sigismember_add hsig]
    by_cases heq : s = sig
    · subst heq
      rw [update_self, decide_eq_true rfl, Bool.or_true]
      exact iff_of_true rfl (by simp)
    · rw [update_of_ne heq, decide_eq_false heq, Bool.or_false]
      exact h.pending s hs
  · show Function.update sent sig (sent sig ++ [newEntry sig info]) s =
      _ ++ Function.update sd.queues sig (sd.queues sig ++ [newEntry sig info]) s
    by_cases heq : s = sig
    · subst heq
      rw [update_self, update_self, h.ledger s hs, List.append_assoc]
    · rw [update_of_ne heq, update_of_ne heq]
      exact h.ledger s hs

/-- What is sent to a full queue is lost. -/
theorem Sound.not_full (h : Sound sd sent log) (hrt : RealTime sig) {e : Info} :
    ¬Sound sd (Function.update sent sig (sent sig ++ [e])) log := by
  intro h'
  have hledger' := h'.ledger sig hrt
  rw [update_self, ← h.ledger sig hrt] at hledger'
  exact absurd (congrArg List.length hledger') (by simp)

theorem wake_signalData : (wake p).signalData = p.signalData := by
  unfold wake
  split_ifs <;> rfl

theorem send_iff (h : t.Sound) {kzalloc : Bool} {sig : ℤ} :
    (step t (.send kzalloc sig info)).Sound ↔ t.Kept (.send kzalloc sig info) := by
  obtain ⟨sd, hsd, hsound⟩ := h
  have hstep : step t (.send kzalloc sig info) = ⟨(signalSend kzalloc t.process sig info).2,
      t.sentAlso (signalSend kzalloc t.process sig info).1 sig.toNat info, t.log⟩ := rfl
  -- a call that fails leaves everything as it was
  have hfail : signalSend kzalloc t.process sig info = (-1, t.process) →
      (step t (.send kzalloc sig info)).Sound := by
    intro hcall
    rw [hstep, hcall]
    exact ⟨sd, hsd, hsound⟩
  show _ ↔ (RealTime sig.toNat → t.process.pid < processMax → t.process.state ≠ .dead →
      kzalloc = true → ∀ sd, t.process.signalData = some sd → (sd.queues sig.toNat).length < sigQueueMax)
  have hmax : (sigMax : ℤ) = 64 := rfl
  have hmin : sigRtMin = 32 := rfl
  by_cases hrange : sig < 1 ∨ sig > sigMax
  · refine iff_of_true (hfail (if_pos hrange)) fun hrt => ?_
    have hlow := hrt.1
    have hhigh := hrt.2
    unfold sigMax at hhigh
    omega
  by_cases hpid : processMax ≤ t.process.pid
  · refine iff_of_true (hfail ?_) fun _ hlt => absurd hlt (Nat.not_lt.mpr hpid)
    unfold signalSend
    rw [if_neg hrange, if_pos hpid]
  by_cases hdead : t.process.state = .dead
  · refine iff_of_true (hfail ?_) fun _ _ hne => absurd hdead hne
    unfold signalSend
    rw [if_neg hrange, if_neg hpid, if_pos hdead]
  have hsig : 0 < sig.toNat ∧ sig.toNat ≤ sigMax := by
    unfold sigMax
    omega
  by_cases hkill : sig = sigKill
  · have hnot : ¬RealTime sig.toNat := fun hrt => by
      rw [hkill] at hrt
      exact absurd hrt.1 (by decide)
    refine iff_of_true ?_ fun hrt => absurd hrt hnot
    have hcall : signalSend kzalloc t.process sig info = (0, { t.process with state := .dead }) := by
      unfold signalSend
      rw [if_neg hrange, if_neg hpid, if_neg hdead, if_pos hkill]
    rw [hstep, hcall]
    refine ⟨sd, hsd, hsound.congr rfl rfl rfl (fun _ _ => rfl) fun s hs => ?_⟩
    show Function.update t.sent sig.toNat _ s = t.sent s
    rw [update_of_ne fun heq : s = sig.toNat => hnot (heq ▸ hs)]
  by_cases hmem : sigRtMin ≤ sig.toNat ∧ kzalloc = false
  · refine iff_of_true (hfail ?_) fun _ _ _ htrue => ?_
    · unfold signalSend
      rw [if_neg hrange, if_neg hpid, if_neg hdead, if_neg hkill, hsd]
      exact if_pos hmem
    · rw [hmem.2] at htrue
      cases htrue
  -- the signal is posted
  have hcall : signalSend kzalloc t.process sig info =
      (0, wake { t.process with signalData := some (sd.post sig.toNat info) }) := by
    unfold signalSend
    rw [if_neg hrange, if_neg hpid, if_neg hdead, if_neg hkill, hsd]
    exact if_neg hmem
  have hposted : (step t (.send kzalloc sig info)).Sound ↔ Sound (sd.post sig.toNat info)
      (Function.update t.sent sig.toNat (t.sent sig.toNat ++ [newEntry sig.toNat info])) t.log := by
    rw [hstep, hcall]
    constructor
    · rintro ⟨sd₁, hsd₁, hsound₁⟩
      have hsd₁ : (wake { t.process with signalData := some (sd.post sig.toNat info) }).signalData = some sd₁ := hsd₁
      rw [wake_signalData] at hsd₁
      obtain rfl := Option.some.inj hsd₁
      exact hsound₁
    · exact fun hsound₁ => ⟨_, wake_signalData, hsound₁⟩
  rw [hposted]
  by_cases hrt : sigRtMin ≤ sig.toNat
  · have hreal : RealTime sig.toNat := ⟨hrt, hsig.2⟩
    have hkz : kzalloc = true := by
      cases kzalloc with
      | true => rfl
      | false => exact absurd ⟨hrt, rfl⟩ hmem
    by_cases hroom : (sd.queues sig.toNat).length < sigQueueMax
    · refine iff_of_true (hsound.post_room hreal hroom) fun _ _ _ _ sd₁ hsd₁ => ?_
      obtain rfl : sd = sd₁ := Option.some.inj (hsd.symm.trans hsd₁)
      exact hroom
    · refine iff_of_false ?_ fun hkept => hroom (hkept hreal (Nat.not_le.mp hpid) hdead hkz sd hsd)
      unfold SignalStruct.post
      rw [if_pos hrt, if_neg hroom]
      exact hsound.not_full hreal
  · exact iff_of_true (hsound.post_plain hsig hrt) fun hreal => absurd hreal.1 hrt

/-! ## `signal_sigaction` and `signal_sigprocmask` -/

theorem sigaction_sound (h : t.Sound) {sig : ℤ} {act : Option Action} : (step t (.sigaction sig act)).Sound := by
  obtain ⟨sd, hsd, hsound⟩ := h
  have hdone : ∃ sd', (signalSigaction t.process sig act).2.signalData = some sd' ∧ Sound sd' t.sent t.log := by
    unfold signalSigaction
    split_ifs with hrange hkill
    · exact ⟨sd, hsd, hsound⟩
    · exact ⟨sd, hsd, hsound⟩
    · rw [hsd]
      cases act with
      | none => exact ⟨sd, hsd, hsound⟩
      | some act =>
        refine ⟨_, rfl, hsound.pending, hsound.ledger, hsound.unblocked, fun s hs => ?_, hsound.saved⟩
        have hne : s ≠ sig.toNat := by
          rintro rfl
          obtain ⟨hk, hst⟩ := not_or.mp hkill
          obtain ⟨hlow, -⟩ := not_or.mp hrange
          rcases hs with hs | hs
          · exact hk (by omega)
          · exact hst (by omega)
        show _ ∧ (Function.update sd.actions sig.toNat act s).saHandler = 0
        rw [update_of_ne hne]
        exact hsound.kill s hs
  exact hdone

theorem sigprocmask_sound (h : t.Sound) {how : ℤ} {set : Option SigSet} : (step t (.sigprocmask how set)).Sound := by
  obtain ⟨sd, hsd, hsound⟩ := h
  have hdone : ∃ sd', (signalSigprocmask t.process how set).2.signalData = some sd' ∧ Sound sd' t.sent t.log := by
    unfold signalSigprocmask
    rw [hsd]
    cases set with
    | none => exact ⟨sd, hsd, hsound⟩
    | some set =>
      dsimp only
      cases newMask how sd.blocked set with
      | none => exact ⟨sd, hsd, hsound⟩
      | some blocked =>
        refine ⟨_, rfl, hsound.pending, hsound.ledger, hsound.unblocked, fun s hs => ⟨?_, (hsound.kill s hs).2⟩,
          hsound.saved⟩
        show sigismember (sigdelset (sigdelset blocked sigKill) sigStop) s = false
        rw [sigismember_del, sigismember_del]
        rcases hs with rfl | rfl
        · simp
        · simp
  exact hdone

/-! ## Runs -/

theorem step_sound {op : Op} (h : t.Sound) : (step t op).Sound ↔ t.Kept op := by
  cases op with
  | send kzalloc sig info => exact send_iff h
  | sigaction sig act => exact iff_of_true (sigaction_sound h) trivial
  | sigprocmask how set => exact iff_of_true (sigprocmask_sound h) trivial
  | doPending => exact doPending_iff h

/-- A process with the signals of `signal_create`. -/
def startOf (pid : ℕ) (state : ProcState) (context : Context) : Traced :=
  ⟨⟨pid, state, context, some signalCreate, []⟩, fun _ => [], fun _ => []⟩

theorem startOf_sound {state : ProcState} {context : Context} : (startOf pid state context).Sound := by
  have hempty : ∀ s, sigismember 0#64 s = false := by
    intro s
    by_cases hs : 0 < s ∧ s ≤ sigMax
    · rw [sigismember_eq hs, BitVec.getLsbD_zero]
    · exact sigismember_out hs
  refine ⟨signalCreate, rfl, fun s _ => ?_, fun s _ => rfl, fun s d hd => (nomatch hd),
    fun s _ => ⟨hempty s, rfl⟩, fun s d hd => (nomatch hd)⟩
  exact iff_of_false (by rw [show signalCreate.pending = 0#64 from rfl, hempty]; exact Bool.false_ne_true)
    fun hne => hne rfl

/-- A run has sound signals throughout exactly if each of its steps is `Kept`. -/
theorem signals_sound_iff (pid : ℕ) (state : ProcState) (context : Context) (ops : List Op) :
    Always (fun t op => some (step t op)) Traced.Sound (startOf pid state context) ops ↔
      Meets (fun t op => some (step t op)) Traced.Kept (startOf pid state context) ops := by
  have hrun : ∀ (t : Traced) (ops : List Op), ∃ u, run (fun t op => some (step t op)) t ops = some u := by
    intro t ops
    induction ops generalizing t with
    | nil => exact ⟨t, rfl⟩
    | cons op ops ih => exact ih (step t op)
  obtain ⟨u, hu⟩ := hrun (startOf pid state context) ops
  have htrue : (fun _ : Traced => True) (startOf pid state context) := trivial
  refine always_iff_meets (fun t op t' hsound _ hstep => ⟨trivial, ?_⟩) startOf_sound htrue hu
  obtain rfl := Option.some.inj hstep
  exact step_sound hsound

/-- The second of two signals stays in the queue, and nothing says so. -/
theorem second_instance_lost : ¬Always (fun t op => some (step t op)) Traced.Sound (startOf 1 .running default)
    [.send true 40 none, .send true 40 none, .doPending] := by
  intro halways
  have hsent : Always (fun t op => some (step t op)) Traced.Sound _ [.doPending] := (halways.2 _ rfl).2 _ rfl
  obtain ⟨sd, hsd, hsound⟩ := (hsent.2 _ rfl).start
  obtain rfl := Option.some.inj hsd
  have hrt : RealTime 40 := ⟨by decide, by decide⟩
  have hbit := (hsound.pending 40 hrt).mpr (by decide)
  exact absurd hbit (by decide)

end Signal
