import Kenux.Signal.Model

/-!
# One call of `signal_do_pending`

`Swept` is the invariant of its loop: the signals below `k` that were due are gone, and none of them was caught.
-/

/-!
## Signal masks
-/

namespace Signal

variable {set set' : SigSet} {sig s : ℕ}

theorem sigismember_eq (h : 0 < sig ∧ sig ≤ sigMax) : sigismember set sig = set.getLsbD (sig - 1) := by
  unfold sigismember
  rw [if_pos h, BitVec.and_one_eq_setWidth_ofBool_getLsbD, BitVec.getLsbD_ushiftRight, Nat.add_zero]
  cases set.getLsbD (sig - 1) with
  | false => rfl
  | true => rfl

theorem sigismember_out (h : ¬(0 < sig ∧ sig ≤ sigMax)) : sigismember set sig = false := if_neg h

theorem getLsbD_bit {i j : ℕ} (hj : j < 64) : (1#64 <<< j).getLsbD i = decide (i = j) := by
  rw [BitVec.getLsbD_shiftLeft, BitVec.getLsbD_one]
  by_cases hij : i = j
  · subst hij
    simp [hj]
  · have hne : i < j ∨ ¬i - j = 0 := by omega
    rw [decide_eq_false hij]
    rcases hne with hlt | hne
    · simp [hlt]
    · simp [hne]

@[simp] theorem sigismember_or : sigismember (set ||| set') s = (sigismember set s || sigismember set' s) := by
  by_cases hs : 0 < s ∧ s ≤ sigMax
  · rw [sigismember_eq hs, sigismember_eq hs, sigismember_eq hs, BitVec.getLsbD_or]
  · rw [sigismember_out hs, sigismember_out hs, sigismember_out hs]
    rfl

theorem sigismember_add (h : 0 < sig ∧ sig ≤ sigMax) :
    sigismember (sigaddset set sig) s = (sigismember set s || decide (s = sig)) := by
  by_cases hs : 0 < s ∧ s ≤ sigMax
  · unfold sigaddset
    have hbit : sig - 1 < 64 := by
      have := h.2
      unfold sigMax at this
      omega
    rw [if_pos h, sigismember_eq hs, sigismember_eq hs, BitVec.getLsbD_or, getLsbD_bit hbit]
    congr 1
    exact decide_eq_decide.mpr (by omega)
  · have hne : s ≠ sig := by
      rintro rfl
      exact hs h
    rw [sigismember_out hs, sigismember_out hs, decide_eq_false hne]
    rfl

theorem sigismember_del : sigismember (sigdelset set sig) s = (sigismember set s && !decide (s = sig)) := by
  by_cases hs : 0 < s ∧ s ≤ sigMax
  · unfold sigdelset
    split_ifs with h
    · have hbit : sig - 1 < 64 := by
        have := h.2
        unfold sigMax at this
        omega
      have hlt : s - 1 < 64 := by
        have := hs.2
        unfold sigMax at this
        omega
      rw [sigismember_eq hs, sigismember_eq hs, BitVec.getLsbD_and, BitVec.getLsbD_not, getLsbD_bit hbit,
        decide_eq_true hlt, Bool.true_and]
      congr 2
      exact decide_eq_decide.mpr (by omega)
    · have hne : s ≠ sig := by
        rintro rfl
        exact h hs
      rw [decide_eq_false hne]
      simp
  · rw [sigismember_out hs, sigismember_out hs]
    rfl

/-- Two masks with the same signals are equal. -/
theorem sigset_ext (h : ∀ s, sigismember set s = sigismember set' s) : set = set' := by
  refine BitVec.eq_of_getLsbD_eq fun i hi => ?_
  have hs : 0 < i + 1 ∧ i + 1 ≤ sigMax := ⟨Nat.succ_pos i, hi⟩
  have hmem := h (i + 1)
  rw [sigismember_eq hs, sigismember_eq hs] at hmem
  exact hmem

end Signal

namespace Signal

variable {sd sd₀ : SignalStruct} {log log₀ : ℕ → List Delivery} {p : Process} {k s sig : ℕ}

theorem due_range (h : sd.due s = true) : 0 < s ∧ s ≤ sigMax := by
  by_contra hout
  unfold SignalStruct.due at h
  rw [sigismember_out hout] at h
  cases h

/-- Nothing but the signals below `k` was touched. -/
structure Swept (sd₀ : SignalStruct) (log₀ : ℕ → List Delivery) (k : ℕ) (sd : SignalStruct) (log : ℕ → List Delivery) :
    Prop where
  actions : sd.actions = sd₀.actions
  blocked : sd.blocked = sd₀.blocked
  pending : ∀ s, sigismember sd.pending s = (sigismember sd₀.pending s && !(decide (s < k) && sd₀.due s))
  queues : ∀ s, sd.queues s = if s < k ∧ sd₀.due s = true ∧ sigRtMin ≤ s then (sd₀.queues s).tail else sd₀.queues s
  log : ∀ s, log s = log₀ s ++ if s < k ∧ sd₀.due s = true then [sd₀.dropped s] else []
  calm : ∀ s < k, sd₀.due s = true → ¬sd₀.Catches s

/-- What a call leaves. -/
structure Done (sd₀ : SignalStruct) (pid : ℕ) (log₀ : ℕ → List Delivery) (sd : SignalStruct) (log : ℕ → List Delivery) :
    Prop where
  actions : sd.actions = sd₀.actions
  pending : ∀ s, sigismember sd.pending s = true ↔ sigismember sd₀.pending s = true ∧ ¬sd₀.Taken s
  taken : ∀ s, sd₀.Taken s → sigRtMin ≤ s → sd.queues s = (sd₀.queues s).tail
  left : ∀ s, ¬(sd₀.Taken s ∧ sigRtMin ≤ s) → sd.queues s = sd₀.queues s
  dropped : ∀ s, sd₀.Taken s → ¬sd₀.Catches s → log s = log₀ s ++ [sd₀.dropped s]
  caught : ∀ s, sd₀.Taken s → sd₀.Catches s →
    log s = log₀ s ++ [sd₀.caught pid s] ∧ sd.blocked = handlerMask s (sd₀.actions s) sd₀.blocked
  quiet : ∀ s, ¬sd₀.Taken s → log s = log₀ s
  blocked : (∀ s, sd₀.Taken s → ¬sd₀.Catches s) → sd.blocked = sd₀.blocked

theorem swept_start : Swept sd log 0 sd log := by
  refine ⟨rfl, rfl, fun s => ?_, fun s => ?_, fun s => ?_, fun s hs => absurd hs (Nat.not_lt_zero s)⟩
  · simp
  · rw [if_neg fun hand => absurd hand.1 (Nat.not_lt_zero s)]
  · rw [if_neg fun hand => absurd hand.1 (Nat.not_lt_zero s), List.append_nil]

theorem lt_succ_or (h : s < k + 1) : s < k ∨ s = k := Nat.lt_succ_iff_lt_or_eq.mp h

/-- The signal is not due. -/
theorem Swept.skip (h : Swept sd₀ log₀ k sd log) (hdue : sd₀.due k = false) : Swept sd₀ log₀ (k + 1) sd log := by
  have hiff : ∀ s, (s < k + 1 ∧ sd₀.due s = true) ↔ (s < k ∧ sd₀.due s = true) := by
    intro s
    constructor
    · rintro ⟨hs, hds⟩
      rcases lt_succ_or hs with hlt | rfl
      · exact ⟨hlt, hds⟩
      · rw [hdue] at hds
        cases hds
    · rintro ⟨hs, hds⟩
      exact ⟨Nat.lt_succ_of_lt hs, hds⟩
  refine ⟨h.actions, h.blocked, fun s => ?_, fun s => ?_, fun s => ?_, fun s hs hds => ?_⟩
  · have hsame : (decide (s < k + 1) && sd₀.due s) = (decide (s < k) && sd₀.due s) := by
      rw [Bool.eq_iff_iff, Bool.and_eq_true, Bool.and_eq_true, decide_eq_true_iff, decide_eq_true_iff]
      exact hiff s
    rw [hsame]
    exact h.pending s
  · have hsame : (s < k + 1 ∧ sd₀.due s = true ∧ sigRtMin ≤ s) ↔ (s < k ∧ sd₀.due s = true ∧ sigRtMin ≤ s) := by
      rw [← and_assoc, hiff, and_assoc]
    rw [if_congr hsame rfl rfl]
    exact h.queues s
  · rw [if_congr (hiff s) rfl rfl]
    exact h.log s
  · obtain ⟨hlt, hds⟩ := (hiff s).mp ⟨hs, hds⟩
    exact h.calm s hlt hds

theorem take_pending : sigismember (sd.take sig).pending s = (sigismember sd.pending s && !decide (s = sig)) := by
  unfold SignalStruct.take
  split_ifs
  · exact sigismember_del
  · exact sigismember_del

theorem take_queues : (sd.take sig).queues s = if s = sig ∧ sigRtMin ≤ sig then (sd.queues s).tail else sd.queues s := by
  unfold SignalStruct.take
  by_cases hrt : sigRtMin ≤ sig
  · rw [if_pos hrt]
    show Function.update sd.queues sig (sd.queues sig).tail s = _
    by_cases hs : s = sig
    · rw [hs, Function.update_self, if_pos ⟨rfl, hrt⟩]
    · rw [Function.update_of_ne hs, if_neg fun hand => hs hand.1]
  · rw [if_neg hrt, if_neg fun hand => hrt hand.2]

theorem take_actions : (sd.take sig).actions = sd.actions := by
  unfold SignalStruct.take
  split_ifs <;> rfl

theorem take_blocked : (sd.take sig).blocked = sd.blocked := by
  unfold SignalStruct.take
  split_ifs <;> rfl

theorem record_apply {d : Delivery} : record log sig d s = log s ++ if s = sig then [d] else [] := by
  unfold record
  by_cases hs : s = sig
  · rw [hs, Function.update_self, if_pos rfl]
  · rw [Function.update_of_ne hs, if_neg hs, List.append_nil]

/-- The signal is as it was before the loop. -/
theorem Swept.fresh (h : Swept sd₀ log₀ k sd log) : sd.queues k = sd₀.queues k ∧ sd.due k = sd₀.due k := by
  have hk : ¬k < k := Nat.lt_irrefl k
  refine ⟨?_, ?_⟩
  · rw [h.queues, if_neg fun hand => hk hand.1]
  · unfold SignalStruct.due
    rw [h.pending, h.blocked, decide_eq_false hk]
    simp

theorem Swept.drop (h : Swept sd₀ log₀ k sd log) (hdue : sd₀.due k = true) (hcalm : ¬sd₀.Catches k) :
    Swept sd₀ log₀ (k + 1) (sd.take k) (record log k (sd.dropped k)) := by
  have hqueue := h.fresh.1
  have hsame : sd.dropped k = sd₀.dropped k := by
    unfold SignalStruct.dropped
    rw [hqueue, h.blocked]
  refine ⟨take_actions.trans h.actions, take_blocked.trans h.blocked, fun s => ?_, fun s => ?_, fun s => ?_,
    fun s hs hds => ?_⟩
  · rw [take_pending, h.pending]
    by_cases hsk : s = k
    · subst hsk
      rw [hdue]
      simp
    · have hlt : decide (s < k + 1) = decide (s < k) := decide_eq_decide.mpr (by omega)
      rw [hlt, decide_eq_false hsk]
      simp
  · rw [take_queues]
    by_cases hsk : s = k
    · subst hsk
      rw [hqueue, if_congr (show (s = s ∧ sigRtMin ≤ s) ↔ (s < s + 1 ∧ sd₀.due s = true ∧ sigRtMin ≤ s) from ?_) rfl rfl]
      constructor
      · exact fun hand => ⟨Nat.lt_succ_self s, hdue, hand.2⟩
      · exact fun hand => ⟨rfl, hand.2.2⟩
    · rw [if_neg fun hand => hsk hand.1, h.queues]
      have hlt : s < k ↔ s < k + 1 := by omega
      exact if_congr (and_congr_left' hlt) rfl rfl
  · rw [record_apply, h.log, List.append_assoc]
    by_cases hsk : s = k
    · subst hsk
      rw [if_neg fun hand => Nat.lt_irrefl s hand.1, if_pos rfl, if_pos ⟨Nat.lt_succ_self s, hdue⟩, hsame]
      rfl
    · have hlt : s < k ↔ s < k + 1 := by omega
      rw [if_neg hsk, List.append_nil, if_congr (and_congr_left' hlt) rfl rfl]
  · rcases lt_succ_or hs with hlt | rfl
    · exact h.calm s hlt hds
    · exact hcalm

/-- The loop has come to its end. -/
theorem Swept.done {pid : ℕ} (h : Swept sd₀ log₀ (sigMax + 1) sd log) : Done sd₀ pid log₀ sd log := by
  have htaken : ∀ s, sd₀.Taken s ↔ sd₀.due s = true := by
    intro s
    refine ⟨fun htaken => htaken.1, fun hdue => ⟨hdue, fun s' hs' hdue' => ?_⟩⟩
    exact h.calm s' (Nat.lt_succ_of_le ((Nat.le_of_lt hs').trans (due_range hdue).2)) hdue'
  have hlt : ∀ s, sd₀.due s = true → s < sigMax + 1 := fun s hdue => Nat.lt_succ_of_le (due_range hdue).2
  have hcalm : ∀ s, sd₀.Taken s → ¬sd₀.Catches s := fun s hs => h.calm s (hlt s hs.1) hs.1
  refine ⟨h.actions, fun s => ?_, fun s hs hrt => ?_, fun s hs => ?_, fun s hs _ => ?_,
    fun s hs hcatch => absurd hcatch (hcalm s hs), fun s hs => ?_, fun _ => h.blocked⟩
  · rw [h.pending, htaken, Bool.and_eq_true, Bool.not_eq_true', Bool.and_eq_false_iff, decide_eq_false_iff_not]
    refine and_congr_right fun _ => ⟨fun hor hdue => ?_, fun hdue => .inr (Bool.eq_false_iff.mpr hdue)⟩
    rcases hor with hge | hfalse
    · exact hge (hlt s hdue)
    · rw [hdue] at hfalse
      cases hfalse
  · rw [h.queues, if_pos ⟨hlt s hs.1, hs.1, hrt⟩]
  · rw [h.queues, if_neg fun hand => hs ⟨(htaken s).mpr hand.2.1, hand.2.2⟩]
  · rw [h.log, if_pos ⟨hlt s hs.1, hs.1⟩]
  · rw [h.log, if_neg fun hand => hs ((htaken s).mpr hand.2), List.append_nil]

/-- A signal with a handler ends the loop. -/
theorem Swept.catch (h : Swept sd₀ log₀ k sd log) (hdue : sd₀.due k = true) (hcatch : sd₀.Catches k) (pid : ℕ) :
    Done sd₀ pid log₀ { sd.take k with blocked := handlerMask k (sd.actions k) (sd.take k).blocked }
      (record log k (sd.caught pid k)) := by
  have hqueue := h.fresh.1
  have htaken : ∀ s, sd₀.Taken s ↔ (s < k ∧ sd₀.due s = true) ∨ s = k := by
    intro s
    constructor
    · rintro ⟨hds, hcalm⟩
      rcases Nat.lt_trichotomy s k with hlt | heq | hgt
      · exact .inl ⟨hlt, hds⟩
      · exact .inr heq
      · exact absurd hcatch (hcalm k hgt hdue)
    · rintro (⟨hlt, hds⟩ | rfl)
      · exact ⟨hds, fun s' hs' hds' => h.calm s' (hs'.trans hlt) hds'⟩
      · exact ⟨hdue, h.calm⟩
  have honly : ∀ s, sd₀.Taken s → sd₀.Catches s → s = k := by
    intro s hs hc
    rcases (htaken s).mp hs with ⟨hlt, hds⟩ | heq
    · exact absurd hc (h.calm s hlt hds)
    · exact heq
  have hk : sd₀.Taken k := (htaken k).mpr (.inr rfl)
  have hlt : ∀ s, s ≠ k → (sd₀.Taken s ↔ s < k ∧ sd₀.due s = true) := fun s hs => by
    rw [htaken, or_iff_left hs]
  have hcaught : sd.caught pid k = sd₀.caught pid k := by
    unfold SignalStruct.caught
    rw [h.actions, h.blocked]
  refine ⟨take_actions.trans h.actions, fun s => ?_, fun s hs hrt => ?_, fun s hs => ?_, fun s hs hcalm => ?_,
    fun s hs hc => ⟨?_, ?_⟩, fun s hs => ?_, fun hcalm => absurd hcatch (hcalm k hk)⟩
  · show sigismember (sd.take k).pending s = true ↔ _
    rw [take_pending, h.pending]
    by_cases hsk : s = k
    · subst hsk
      refine iff_of_false (by simp) fun hand => hand.2 hk
    · rw [hlt s hsk, decide_eq_false hsk]
      simp only [Bool.and_eq_true, Bool.not_eq_true', Bool.and_eq_false_iff, decide_eq_false_iff_not, Bool.not_false,
        and_true, not_and, Bool.not_eq_true]
      refine and_congr_right fun _ => ⟨fun hor hsl => ?_, fun himp => ?_⟩
      · exact hor.resolve_left fun hge => hge hsl
      · by_cases hsl : s < k
        · exact .inr (himp hsl)
        · exact .inl hsl
  · show (sd.take k).queues s = _
    rw [take_queues]
    by_cases hsk : s = k
    · rw [if_pos ⟨hsk, hsk ▸ hrt⟩, hsk, hqueue]
    · have hand := (hlt s hsk).mp hs
      rw [if_neg fun hand => hsk hand.1, h.queues, if_pos ⟨hand.1, hand.2, hrt⟩]
  · show (sd.take k).queues s = _
    rw [take_queues]
    by_cases hsk : s = k
    · rw [if_neg fun hand => hs ⟨hsk ▸ hk, hsk ▸ hand.2⟩, hsk, hqueue]
    · rw [if_neg fun hand => hsk hand.1, h.queues, if_neg fun hand => hs ⟨(hlt s hsk).mpr ⟨hand.1, hand.2.1⟩, hand.2.2⟩]
  · have hsk : s ≠ k := fun heq => hcalm (heq ▸ hcatch)
    rw [record_apply, if_neg hsk, List.append_nil, h.log, if_pos ((hlt s hsk).mp hs)]
  · obtain rfl := honly s hs hc
    rw [record_apply, if_pos rfl, h.log, if_neg fun hand => Nat.lt_irrefl s hand.1, List.append_nil, hcaught]
  · obtain rfl := honly s hs hc
    show handlerMask s (sd.actions s) (sd.take s).blocked = _
    rw [take_blocked, h.actions, h.blocked]
  · have hsk : s ≠ k := fun heq => hs (heq ▸ hk)
    rw [record_apply, if_neg hsk, List.append_nil, h.log, if_neg fun hand => hs ((hlt s hsk).mpr hand), List.append_nil]

theorem signalDefault_pid : (signalDefault sig p).pid = p.pid := by
  unfold signalDefault
  split_ifs <;> rfl

/-- The loop, from `k` on. -/
theorem doPendingLoop_spec {n pid : ℕ} (h : Swept sd₀ log₀ k sd log) (hkn : k + n = sigMax + 1) (hpid : p.pid = pid) :
    ∃ p' sd' log', doPendingLoop (List.range' k n) p sd log = (p', sd', log') ∧ p'.pid = pid ∧
      Done sd₀ pid log₀ sd' log' := by
  induction n generalizing k p sd log with
  | zero =>
    obtain rfl : k = sigMax + 1 := by omega
    exact ⟨p, sd, log, rfl, hpid, h.done⟩
  | succ n ih =>
    have hnext : k + 1 + n = sigMax + 1 := by omega
    have hdue := h.fresh.2
    rw [List.range'_succ]
    unfold doPendingLoop
    by_cases hpending : sigismember sd.pending k = false
    · rw [if_pos hpending]
      have hnot : sd.due k = false := by
        unfold SignalStruct.due
        rw [hpending]
        rfl
      exact ih (h.skip (hdue ▸ hnot)) hnext hpid
    · rw [if_neg hpending]
      by_cases hblocked : sigismember sd.blocked k = true
      · rw [if_pos hblocked]
        have hnot : sd.due k = false := by
          unfold SignalStruct.due
          rw [hblocked]
          simp
        exact ih (h.skip (hdue ▸ hnot)) hnext hpid
      · rw [if_neg hblocked]
        have hyes : sd₀.due k = true := by
          rw [← hdue]
          unfold SignalStruct.due
          rw [Bool.eq_false_iff.mpr hblocked]
          simpa using hpending
        dsimp only
        have hactions := congrFun h.actions k
        by_cases hign : (sd.actions k).saHandler = 1
        · rw [if_pos hign]
          have hcalm : ¬sd₀.Catches k := fun hc => hc.1 (hactions ▸ hign)
          exact ih (h.drop hyes hcalm) hnext hpid
        · rw [if_neg hign]
          by_cases hdfl : (sd.actions k).saHandler = 0
          · rw [if_pos hdfl]
            have hcalm : ¬sd₀.Catches k := fun hc => hc.2 (hactions ▸ hdfl)
            exact ih (h.drop hyes hcalm) hnext (signalDefault_pid.trans hpid)
          · rw [if_neg hdfl]
            have hcatch : sd₀.Catches k := ⟨fun heq => hign (hactions ▸ heq), fun heq => hdfl (hactions ▸ heq)⟩
            refine ⟨_, _, _, rfl, hpid, ?_⟩
            rw [hpid]
            exact h.catch hyes hcatch pid

/-- A call takes the signals that are due, up to the first that is caught. -/
theorem signalDoPending_spec (hsd : p.signalData = some sd) :
    ∃ p' sd' log', signalDoPending p log = (p', log') ∧ p'.signalData = some sd' ∧ p'.pid = p.pid ∧
      Done sd p.pid log sd' log' := by
  have hstart : Swept sd log 1 sd log := by
    refine swept_start.skip ?_
    by_contra hdue
    exact absurd (due_range (Bool.not_eq_false _ ▸ hdue)).1 (Nat.lt_irrefl 0)
  obtain ⟨p', sd', log', hloop, hpid, hdone⟩ := doPendingLoop_spec (n := sigMax) hstart (Nat.add_comm 1 sigMax) rfl
  refine ⟨{ p' with signalData := some sd' }, sd', log', ?_, rfl, hpid, hdone⟩
  unfold signalDoPending
  rw [hsd]
  dsimp only
  rw [hloop]

end Signal
