import Kenux.TcpCong.Model
import Mathlib.Order.Lattice.Nat

/-!
# Congestion windows

A window reaches 65535 in slow start and stays there as long as it stays positive: whatever an algorithm adds then is
lost in 16 bits. What the algorithms compute is given in natural numbers, and the states of slots that sockets have are
those for which the formulas hold.
-/

namespace TcpCong

variable {ν : Type} {w : UInt16} {ack acked : UInt32}

/-! ## Slow start and reno -/

theorem slowStart_toNat (w : UInt16) (acked : UInt32) :
    (slowStart w acked).toNat = min 65535 ((w.toNat + acked.toNat) % 2 ^ 32) := by
  have hthresh : tcpInitSsthresh.toNat = 65535 := rfl
  have hsum : (w.toUInt32 + acked).toNat = (w.toNat + acked.toNat) % 2 ^ 32 := by
    rw [UInt32.toNat_add, UInt16.toNat_toUInt32]
  unfold slowStart
  dsimp only
  split_ifs with hgt
  · have hlt : 65535 < (w.toNat + acked.toNat) % 2 ^ 32 := by
      rw [← hsum, ← hthresh]
      exact UInt32.lt_iff_toNat_lt.mp hgt
    rw [UInt32.toNat_toUInt16, hthresh]
    omega
  · have hle : (w.toNat + acked.toNat) % 2 ^ 32 ≤ 65535 := by
      rw [← hsum, ← hthresh]
      exact Nat.le_of_not_lt fun hlt => hgt (UInt32.lt_iff_toNat_lt.mpr hlt)
    rw [UInt32.toNat_toUInt16, hsum]
    omega

/-- A window is as it should be after an acknowledgement that reno or cubic handled. -/
def Grown (w w' : UInt16) : Prop := w' ≠ 0 ∧ w ≤ w'

theorem grown_iff {w w' : UInt16} : Grown w w' ↔ w'.toNat ≠ 0 ∧ w.toNat ≤ w'.toNat := by
  unfold Grown
  rw [UInt16.le_iff_toNat_le, ne_eq, ne_eq, ← UInt16.toNat_inj]
  rfl

theorem slowStart_grown (hpos : w ≠ 0) (hlow : w.toNat < 65535) :
    Grown w (slowStart w acked) ↔ w.toNat + acked.toNat < 2 ^ 32 := by
  have hpos : w.toNat ≠ 0 := fun hzero => hpos (UInt16.toNat_inj.mp hzero)
  have hacked : acked.toNat < 2 ^ 32 := acked.toNat_lt
  rw [grown_iff, slowStart_toNat]
  omega

theorem below_iff (w : UInt16) : w.toUInt32 < tcpInitSsthresh ↔ w.toNat < 65535 := by
  rw [UInt32.lt_iff_toNat_lt, UInt16.toNat_toUInt32]
  rfl

theorem full_of_not_below (h : ¬w.toNat < 65535) : w = 65535 := by
  have hlt := w.toNat_lt
  apply UInt16.toNat_inj.mp
  show w.toNat = 65535
  omega

/-- Nothing wraps in slow start, and a full window gets a multiple of what 16 bits hold. -/
def RenoOk (w : UInt16) (acked : UInt32) : Prop :=
  if w.toNat < 65535 then w.toNat + acked.toNat < 2 ^ 32 else 1460 * acked.toNat % 2 ^ 32 / 65535 = 65536

theorem reno_grown (hpos : w ≠ 0) : Grown w (tcpRenoCongAvoid w acked) ↔ RenoOk w acked := by
  unfold tcpRenoCongAvoid RenoOk
  rw [if_neg hpos]
  by_cases hlow : w.toNat < 65535
  · rw [if_pos ((below_iff w).mpr hlow), if_pos hlow]
    exact slowStart_grown hpos hlow
  · rw [if_neg fun hyes => hlow ((below_iff w).mp hyes), if_neg hlow]
    obtain rfl := full_of_not_below hlow
    have hincr : (tcpMss * acked / (65535 : UInt16).toUInt32).toNat = 1460 * acked.toNat % 2 ^ 32 / 65535 := by
      rw [UInt32.toNat_div, UInt32.toNat_mul]
      rfl
    have hbound : 1460 * acked.toNat % 2 ^ 32 / 65535 ≤ 65537 := by omega
    have hfull : (65535 : UInt16).toNat = 65535 := rfl
    obtain ⟨incr, hincr'⟩ : ∃ i, i = tcpMss * acked / (65535 : UInt16).toUInt32 := ⟨_, rfl⟩
    rw [← hincr'] at hincr
    dsimp only
    rw [grown_iff, ← hincr', ← hincr, UInt32.toNat_toUInt16, UInt32.toNat_add, UInt16.toNat_toUInt32, hfull]
    rw [← hincr] at hbound
    split_ifs with hzero
    · have hone : (1 : UInt32).toNat = 1 := rfl
      rw [hzero, hone]
      exact iff_of_false (by omega) (by decide)
    · have hne : incr.toNat ≠ 0 := fun h => hzero (UInt32.toNat_inj.mp h)
      omega

/-! ## Cubic -/

section Cubic

variable {ca : CubicState ν}

/-- The number of the acknowledgement at which the epoch of the next one begins. -/
def epochOf (ca : CubicState ν) (ack : UInt32) : ℕ :=
  if ca.epochStart = 0 then ack.toNat else ca.tcpJiffies.toNat

/-- How far along the curve an acknowledgement is. -/
def distance (j ack : ℕ) : ℕ :=
  let x := (2 ^ 32 - j + ack) % 2 ^ 32
  if x < j then 1 else x - j

/-- How far the curve is above a full window. -/
def excess (j ack : ℕ) : ℕ := min (2 ^ 32 - 1 - 65535) (410 * distance j ack * distance j ack % 2 ^ 64 / 1000000)

/-- The same in steps. -/
def cubicDelta (ca : CubicState ν) (ack : UInt32) : ℕ := max 1 (excess (epochOf ca ack) ack.toNat * 50 / 1460)

/-- The acknowledgements of the epoch, the next one with them. -/
def cubicCount (ca : CubicState ν) : ℕ := if ca.epochStart = 0 then 1 else (ca.ackCnt.toNat + 1) % 2 ^ 32

/-- The curve is not too steep, and the window is not to grow yet. -/
def CubicOk (ca : CubicState ν) (ack : UInt32) : Prop :=
  cubicDelta ca ack ≤ 1460 ∧ cubicCount ca % (1460 / cubicDelta ca ack) ≠ 0

/-- What the code keeps true of the slot of a socket. -/
structure CubicInv (ca : CubicState ν) : Prop where
  delayedAck : ca.delayedAck = 2
  found : ca.found = 0
  wMax : ca.wMax.toNat ≤ 65535
  k : ca.epochStart ≠ 0 → ca.k = 0
  originPoint : ca.epochStart ≠ 0 → ca.originPoint = 65535

theorem excess_lt (j ack : ℕ) : excess j ack < 2 ^ 32 := Nat.lt_of_le_of_lt (Nat.min_le_left _ _) (by omega)

theorem cubicFresh_inv (sk : ν) : CubicInv (cubicFresh sk) :=
  ⟨rfl, rfl, Nat.le_refl _, fun hne => absurd rfl hne, fun hne => absurd rfl hne⟩

theorem cubicEvent_inv (h : CubicInv ca) (w : UInt16) (event : UInt32) : CubicInv (cubicEvent ca w event).2 := by
  have hlt : w.toNat < 2 ^ 16 := w.toNat_lt
  unfold cubicEvent
  split_ifs with hevent hlow
  · have hmul : (w.toUInt32 * tcpCubicBeta / 1000).toNat = w.toNat * 717 % 2 ^ 32 / 1000 := by
      rw [UInt32.toNat_div, UInt32.toNat_mul, UInt16.toNat_toUInt32]
      rfl
    refine ⟨h.delayedAck, h.found, ?_, fun hne => absurd rfl hne, fun hne => absurd rfl hne⟩
    show (w.toUInt32 * tcpCubicBeta / 1000).toNat ≤ 65535
    rw [hmul, Nat.mod_eq_of_lt (by omega)]
    omega
  · refine ⟨h.delayedAck, h.found, ?_, fun hne => absurd rfl hne, fun hne => absurd rfl hne⟩
    show w.toUInt32.toNat ≤ 65535
    rw [UInt16.toNat_toUInt32]
    omega
  · exact h

/-- At a full window an epoch has its origin there and the root is not needed. -/
theorem cubicEpoch_spec (h : CubicInv ca) (ack : UInt32) :
    ∃ ca', ca' = cubicEpoch ca 65535 ack ∧ CubicInv ca' ∧ ca'.sk = ca.sk ∧ ca'.k = 0 ∧ ca'.originPoint = 65535 ∧
      ca'.tcpJiffies.toNat = epochOf ca ack ∧ ca'.ackCnt.toNat = cubicCount ca := by
  unfold cubicEpoch epochOf cubicCount
  split_ifs with hstart hlow
  · have hfull : 65535 < ca.wMax.toNat := UInt32.lt_iff_toNat_lt.mp hlow
    exact absurd h.wMax (Nat.not_le_of_gt hfull)
  · exact ⟨_, rfl, ⟨h.delayedAck, h.found, h.wMax, fun _ => rfl, fun _ => rfl⟩, rfl, rfl, rfl, rfl, rfl⟩
  · exact ⟨_, rfl, ⟨h.delayedAck, h.found, h.wMax, h.k, h.originPoint⟩, rfl, h.k hstart, h.originPoint hstart, rfl,
      UInt32.toNat_add _ _⟩

theorem cubicTarget_toNat (hk : ca.k = 0) (horigin : ca.originPoint = 65535) :
    (cubicTarget ca ack).toNat = 65535 + excess ca.tcpJiffies.toNat ack.toNat := by
  have hj := ca.tcpJiffies.toNat_lt
  have hsub : (ack - ca.tcpJiffies + 0).toNat = (2 ^ 32 - ca.tcpJiffies.toNat + ack.toNat) % 2 ^ 32 := by
    rw [UInt32.add_zero, UInt32.toNat_sub]
  obtain ⟨x, hx⟩ : ∃ x, x = ack - ca.tcpJiffies + 0 := ⟨_, rfl⟩
  rw [← hx] at hsub
  obtain ⟨d, hd⟩ : ∃ d, d = ((if x < ca.tcpJiffies then ca.tcpJiffies + 1 else x) - ca.tcpJiffies).toUInt64 := ⟨_, rfl⟩
  have hdist : d.toNat = distance ca.tcpJiffies.toNat ack.toNat := by
    have hone : (1 : UInt32).toNat = 1 := rfl
    unfold distance
    dsimp only
    rw [hd, UInt32.toNat_toUInt64, ← hsub]
    split_ifs with hlt hlt' hlt'
    · rw [UInt32.toNat_sub, UInt32.toNat_add, hone]
      omega
    · exact absurd (UInt32.lt_iff_toNat_lt.mp hlt) hlt'
    · exact absurd (UInt32.lt_iff_toNat_lt.mpr hlt') hlt
    · exact UInt32.toNat_sub_of_le _ _ (UInt32.le_iff_toNat_le.mpr (Nat.le_of_not_lt hlt'))
  have hcube : (tcpCubicC.toUInt64 * d * d / 1000000).toNat = 410 * d.toNat * d.toNat % 2 ^ 64 / 1000000 := by
    rw [UInt64.toNat_div, UInt64.toNat_mul, UInt64.toNat_mul]
    show 410 * d.toNat % 2 ^ 64 * d.toNat % 2 ^ 64 / 1000000 = _
    rw [Nat.mod_mul_mod]
  have hbound : 410 * d.toNat * d.toNat % 2 ^ 64 / 1000000 < 2 ^ 45 := by omega
  have hsum : ((65535 : UInt32).toUInt64 + tcpCubicC.toUInt64 * d * d / 1000000).toNat =
      65535 + 410 * d.toNat * d.toNat % 2 ^ 64 / 1000000 := by
    rw [UInt64.toNat_add, hcube]
    show (65535 + _) % 2 ^ 64 = _
    omega
  unfold cubicTarget excess
  dsimp only
  rw [hk, horigin, ← hx, ← hd, ← hdist]
  split_ifs with hgt
  · have hlt := UInt64.lt_iff_toNat_lt.mp hgt
    rw [hsum] at hlt
    have hmax : (0xffffffff : UInt64).toNat = 2 ^ 32 - 1 := rfl
    omega
  · have hle := Nat.le_of_not_lt fun hlt => hgt (UInt64.lt_iff_toNat_lt.mpr hlt)
    have hmax : (0xffffffff : UInt64).toNat = 2 ^ 32 - 1 := rfl
    rw [hsum] at hle ⊢
    omega

/-- What the curve asks for, in steps, as the code works it out. -/
theorem cubicSteps_toNat {target : UInt64} {x : ℕ} (htarget : target.toNat = 65535 + x) (hx : x < 2 ^ 32) :
    ((target - (65535 : UInt16).toUInt64) * tcpCubicScale.toUInt64 / (2 : UInt32).toUInt64 /
      tcpMss.toUInt64).toUInt32.toNat = x * 50 / 1460 := by
  have hfull : (65535 : UInt16).toUInt64.toNat = 65535 := rfl
  have hsub : (target - (65535 : UInt16).toUInt64).toNat = x := by
    have hle : (65535 : UInt16).toUInt64.toNat ≤ target.toNat := by
      rw [hfull, htarget]
      omega
    rw [UInt64.toNat_sub_of_le _ _ (UInt64.le_iff_toNat_le.mpr hle), htarget, hfull]
    omega
  rw [UInt64.toNat_toUInt32, UInt64.toNat_div, UInt64.toNat_div, UInt64.toNat_mul, hsub]
  show x * 100 % 2 ^ 64 / 2 / 1460 % 2 ^ 32 = x * 50 / 1460
  have hhalf : x * 100 / 2 = x * 50 := by omega
  rw [Nat.mod_eq_of_lt (by omega : x * 100 < 2 ^ 64), hhalf, Nat.mod_eq_of_lt (by omega)]

/-- At a full window the branch above the threshold takes the window on by one or leaves it. -/
theorem cubicAvoid_full (h : CubicInv ca) (ack : UInt32) :
    cubicAvoid ca 65535 ack = none ∧ 1460 < cubicDelta ca ack ∨
      cubicDelta ca ack ≤ 1460 ∧ ∃ w ca', cubicAvoid ca 65535 ack = some (w, ca') ∧ CubicInv ca' ∧ ca'.sk = ca.sk ∧
        w = if cubicCount ca % (1460 / cubicDelta ca ack) = 0 then 0 else 65535 := by
  obtain ⟨ca', hca', hinv, hsk, hk, horigin, hj, hcount⟩ := cubicEpoch_spec h ack
  have htarget : (cubicTarget ca' ack).toNat = 65535 + excess ca'.tcpJiffies.toNat ack.toNat :=
    cubicTarget_toNat hk horigin
  rw [hj] at htarget
  have hdelta : cubicDelta ca ack = max 1 (excess (epochOf ca ack) ack.toNat * 50 / 1460) := rfl
  have hlow : ¬cubicTarget ca' ack < (65535 : UInt16).toUInt64 := by
    intro hlt
    have hlt' : (cubicTarget ca' ack).toNat < 65535 := UInt64.lt_iff_toNat_lt.mp hlt
    omega
  have hsteps := cubicSteps_toNat htarget (excess_lt _ _)
  obtain ⟨steps, hsteps'⟩ : ∃ x, x = ((cubicTarget ca' ack - (65535 : UInt16).toUInt64) * tcpCubicScale.toUInt64 /
    (2 : UInt32).toUInt64 / tcpMss.toUInt64).toUInt32 := ⟨_, rfl⟩
  rw [← hsteps'] at hsteps
  have hfirst : (if steps < 1 then 1 else steps).toNat = cubicDelta ca ack := by
    have hone : (1 : UInt32).toNat = 1 := rfl
    rw [hdelta, ← hsteps]
    split_ifs with hlt
    · have hlt' := UInt32.lt_iff_toNat_lt.mp hlt
      omega
    · have hle := Nat.le_of_not_lt fun hlt' => hlt (UInt32.lt_iff_toNat_lt.mpr hlt')
      omega
  have hquot : (tcpMss / (if steps < 1 then 1 else steps)).toNat = 1460 / cubicDelta ca ack := by
    rw [UInt32.toNat_div, hfirst]
    rfl
  have hzero_iff : tcpMss / (if steps < 1 then 1 else steps) = 0 ↔ 1460 < cubicDelta ca ack := by
    rw [← UInt32.toNat_inj, hquot]
    show 1460 / cubicDelta ca ack = 0 ↔ _
    rw [Nat.div_eq_zero_iff]
    omega
  unfold cubicAvoid
  dsimp only
  rw [← hca', if_neg (not_not.mpr hinv.found), hinv.delayedAck, if_neg (by decide), if_neg hlow, ← hsteps']
  by_cases hsteep : 1460 < cubicDelta ca ack
  · exact Or.inl ⟨if_pos (hzero_iff.mpr hsteep), hsteep⟩
  · apply Or.inr
    refine ⟨Nat.le_of_not_lt hsteep, ?_⟩
    rw [if_neg fun hzero => hsteep (hzero_iff.mp hzero)]
    have hmod : (ca'.ackCnt % (tcpMss / (if steps < 1 then 1 else steps))).toNat =
        cubicCount ca % (1460 / cubicDelta ca ack) := by
      rw [UInt32.toNat_mod, hquot, hcount]
    by_cases hgrow : cubicCount ca % (1460 / cubicDelta ca ack) = 0
    · have hzero : ca'.ackCnt % (tcpMss / (if steps < 1 then 1 else steps)) = 0 := by
        apply UInt32.toNat_inj.mp
        rw [hmod, hgrow]
        rfl
      rw [if_pos hzero, if_pos hgrow]
      exact ⟨_, _, rfl, ⟨rfl, hinv.found, hinv.wMax, hinv.k, hinv.originPoint⟩, hsk, by decide⟩
    · rw [if_neg fun hzero => hgrow (hmod.symm.trans (congrArg UInt32.toNat hzero)), if_neg hgrow]
      exact ⟨_, _, rfl, ⟨rfl, hinv.found, hinv.wMax, hinv.k, hinv.originPoint⟩, hsk, rfl⟩

theorem cubic_grown (h : CubicInv ca) (ack : UInt32) :
    (∃ w ca', cubicAvoid ca 65535 ack = some (w, ca') ∧ Grown 65535 w) ↔ CubicOk ca ack := by
  have hself : Grown 65535 65535 := ⟨by decide, UInt16.le_refl _⟩
  rcases cubicAvoid_full h ack with ⟨hnone, hsteep⟩ | ⟨hle, w, ca', hsome, -, -, hw⟩
  · rw [hnone]
    apply iff_of_false
    · rintro ⟨w, ca', habsurd, -⟩
      exact absurd habsurd (Option.some_ne_none _).symm
    · exact fun hok => Nat.not_le_of_gt hsteep hok.1
  · rw [hsome]
    constructor
    · rintro ⟨w', ca'', heq, hgrown⟩
      obtain ⟨rfl, rfl⟩ : w = w' ∧ ca' = ca'' := Prod.mk.inj (Option.some.inj heq)
      refine ⟨hle, fun hzero => hgrown.1 ?_⟩
      rw [hw, if_pos hzero]
    · rintro ⟨-, hne⟩
      refine ⟨w, ca', rfl, ?_⟩
      rw [hw, if_neg hne]
      exact hself

end Cubic

/-! ## BBR -/

section Bbr

variable {bbr : BbrState ν}

/-- The largest bandwidth that is kept once an acknowledgement is counted. -/
def bbrPeak (bbr : BbrState ν) (acked : UInt32) : ℕ :=
  (Finset.range (min 20 (bbr.bwCnt.toNat + 1))).sup fun i =>
    if i = bbr.bwHead.toNat then acked.toNat * 1000000 else (bbr.bwSamples i).toNat

/-- The pipe was found full before, or is with this bandwidth. -/
def Draining (bbr : BbrState ν) (peak : ℕ) : Prop :=
  bbr.mode = 1 ∨ peak < bbr.fullBw.toNat * 125 / 100 ∧ bbr.fullBwCnt = 2

instance (bbr : BbrState ν) (peak : ℕ) : Decidable (Draining bbr peak) :=
  inferInstanceAs (Decidable (_ ∨ _))

/-- The window that a bandwidth is good for. -/
def bbrCwnd (bbr : BbrState ν) (peak : ℕ) : ℕ := peak / 500 * (if Draining bbr peak then 733 else 2885) / 1024

/-- The window is not a positive multiple of what 16 bits hold, or is cut to a number that is none. -/
def BbrOk (bbr : BbrState ν) (acked : UInt32) : Prop :=
  let cwnd := bbrCwnd bbr (bbrPeak bbr acked)
  cwnd < 5840 ∨ 2 ^ 32 ≤ cwnd ∨ cwnd % 65536 ≠ 0

def bbrBwMax : ℕ := (2 ^ 32 - 1) * 1000000

/-- What the code keeps true of every slot. -/
structure BbrInv (bbr : BbrState ν) : Prop where
  minRttUs : bbr.minRttUs = 0
  deliveredMstamp : bbr.deliveredMstamp = 0
  fullBw : bbr.fullBw.toNat ≤ bbrBwMax
  samples : ∀ i, (bbr.bwSamples i).toNat ≤ bbrBwMax
  bwCnt : bbr.bwCnt.toNat ≤ 20
  mode : bbr.mode = 0 ∧ bbr.filledPipe = false ∧ bbr.fullBwCnt.toNat ≤ 2 ∨ bbr.mode = 1 ∧ bbr.filledPipe = true

theorem bbrFresh_inv (sk : ν) : BbrInv (bbrFresh sk) :=
  ⟨rfl, rfl, Nat.zero_le _, fun _ => Nat.zero_le _, Nat.zero_le _, Or.inl ⟨rfl, rfl, Nat.zero_le _⟩⟩

theorem bbrEvent_inv (h : BbrInv bbr) (w : UInt16) (event : UInt32) : BbrInv (bbrEvent bbr w event).2 := by
  unfold bbrEvent
  split_ifs with hevent
  · exact ⟨h.minRttUs, h.deliveredMstamp, Nat.zero_le _, h.samples, h.bwCnt, Or.inl ⟨rfl, rfl, Nat.zero_le _⟩⟩
  · exact h

theorem foldl_max (f : ℕ → UInt64) (n : ℕ) :
    ((List.range n).foldl (fun maxb i => if f i > maxb then f i else maxb) 0).toNat =
      (Finset.range n).sup fun i => (f i).toNat := by
  induction n with
  | zero => rfl
  | succ n ih =>
    rw [List.range_succ, List.foldl_append, Finset.range_add_one, Finset.sup_insert, ← ih, List.foldl_cons,
      List.foldl_nil]
    split_ifs with hgt
    · exact (Nat.max_eq_left (Nat.le_of_lt (UInt64.lt_iff_toNat_lt.mp hgt))).symm
    · exact (Nat.max_eq_right (Nat.le_of_not_lt fun hlt => hgt (UInt64.lt_iff_toNat_lt.mpr hlt))).symm

theorem bbrPeak_le (h : BbrInv bbr) (acked : UInt32) : bbrPeak bbr acked ≤ bbrBwMax := by
  have hacked : acked.toNat < 2 ^ 32 := acked.toNat_lt
  apply Finset.sup_le
  intro i _
  split_ifs with hi
  · unfold bbrBwMax
    omega
  · exact h.samples i

theorem bbrMeasure_spec (h : BbrInv bbr) (acked : UInt32) :
    ∃ m, m = bbrMeasure bbr acked ∧ BbrInv m ∧ m.maxBw.toNat = bbrPeak bbr acked ∧ m.sk = bbr.sk ∧
      m.mode = bbr.mode ∧ m.filledPipe = bbr.filledPipe ∧ m.fullBw = bbr.fullBw ∧ m.fullBwCnt = bbr.fullBwCnt := by
  have hacked : acked.toNat < 2 ^ 32 := acked.toNat_lt
  have hsample : (bbrBwFromDelta acked.toUInt64 1).toNat = acked.toNat * 1000000 := by
    have hmul : (acked.toUInt64 * 1000000).toNat = acked.toNat * 1000000 := by
      rw [UInt64.toNat_mul, UInt32.toNat_toUInt64]
      show acked.toNat * 1000000 % 2 ^ 64 = _
      omega
    unfold bbrBwFromDelta
    rw [if_neg (by decide), UInt64.toNat_div, hmul]
    exact Nat.div_one _
  have hcnt : (if bbr.bwCnt < 20 then bbr.bwCnt + 1 else bbr.bwCnt).toNat = min 20 (bbr.bwCnt.toNat + 1) := by
    have htwenty : (20 : UInt32).toNat = 20 := rfl
    have hone : (1 : UInt32).toNat = 1 := rfl
    have hle := h.bwCnt
    split_ifs with hlt
    · have hlt' := UInt32.lt_iff_toNat_lt.mp hlt
      rw [UInt32.toNat_add, hone]
      omega
    · have hge := Nat.le_of_not_lt fun hlt' => hlt (UInt32.lt_iff_toNat_lt.mpr hlt')
      omega
  have hsamples : ∀ i, (Function.update bbr.bwSamples bbr.bwHead.toNat (bbrBwFromDelta acked.toUInt64 1) i).toNat =
      if i = bbr.bwHead.toNat then acked.toNat * 1000000 else (bbr.bwSamples i).toNat := by
    intro i
    rw [Function.update_apply]
    split_ifs
    · exact hsample
    · rfl
  refine ⟨_, rfl, ⟨h.minRttUs, rfl, h.fullBw, ?_, ?_, h.mode⟩, ?_, rfl, rfl, rfl, rfl, rfl⟩
  · intro i
    unfold bbrMeasure bbrUpdateBw
    rw [h.deliveredMstamp]
    refine (hsamples i).trans_le ?_
    split_ifs
    · unfold bbrBwMax
      omega
    · exact h.samples i
  · unfold bbrMeasure bbrUpdateBw
    exact hcnt.trans_le (Nat.min_le_left _ _)
  · unfold bbrMeasure bbrUpdateBw bbrPeak
    rw [h.deliveredMstamp]
    refine (foldl_max _ _).trans ?_
    rw [hcnt]
    exact congrArg _ (funext hsamples)

theorem bbrUpdateMode_spec (h : BbrInv bbr) (hw : w ≠ 0) (hbw : bbr.maxBw.toNat ≤ bbrBwMax) :
    ∃ m, m = bbrUpdateMode bbr w ∧ BbrInv m ∧ m.maxBw = bbr.maxBw ∧ m.sk = bbr.sk ∧
      m.mode = if Draining bbr bbr.maxBw.toNat then 1 else 0 := by
  have hfull := h.fullBw
  have hquarter : bbr.maxBw ≥ bbr.fullBw * 125 / 100 ↔ ¬bbr.maxBw.toNat < bbr.fullBw.toNat * 125 / 100 := by
    have hmul : (bbr.fullBw * 125 / 100).toNat = bbr.fullBw.toNat * 125 / 100 := by
      rw [UInt64.toNat_div, UInt64.toNat_mul]
      show bbr.fullBw.toNat * 125 % 2 ^ 64 / 100 = _
      unfold bbrBwMax at hfull
      rw [Nat.mod_eq_of_lt (by omega)]
    rw [ge_iff_le, UInt64.le_iff_toNat_le, hmul]
    exact Nat.not_lt.symm
  have hkeep : ∀ p : Prop, ¬(p ∧ w = 0) := fun _ hyes => hw hyes.2
  unfold bbrUpdateMode
  dsimp only
  rw [if_neg (hkeep _)]
  rcases h.mode with ⟨hmode, hfilled, hcnt⟩ | ⟨hmode, hfilled⟩
  · have hne : ¬bbr.mode = 1 := by
      rw [hmode]
      decide
    rw [if_neg (Bool.eq_false_iff.mp hfilled)]
    by_cases hgrown : bbr.maxBw ≥ bbr.fullBw * 125 / 100
    · have hdrain : ¬Draining bbr bbr.maxBw.toNat := by
        rintro (hone | ⟨hlt, -⟩)
        · exact hne hone
        · exact hquarter.mp hgrown hlt
      rw [if_pos hgrown, if_neg hdrain, if_neg fun hyes => Bool.eq_false_iff.mp hfilled hyes.2]
      exact ⟨_, rfl, ⟨h.minRttUs, h.deliveredMstamp, hbw, h.samples, h.bwCnt, Or.inl ⟨hmode, hfilled, Nat.zero_le _⟩⟩,
        rfl, rfl, hmode⟩
    · have hlow := not_not.mp fun hnot => hgrown (hquarter.mpr hnot)
      have hsum : (bbr.fullBwCnt + 1).toNat = bbr.fullBwCnt.toNat + 1 := by
        rw [UInt64.toNat_add]
        show (bbr.fullBwCnt.toNat + 1) % 2 ^ 64 = _
        omega
      have hthree : bbr.fullBwCnt + 1 ≥ 3 ↔ bbr.fullBwCnt = 2 := by
        rw [ge_iff_le, UInt64.le_iff_toNat_le, hsum, ← UInt64.toNat_inj]
        show 3 ≤ bbr.fullBwCnt.toNat + 1 ↔ bbr.fullBwCnt.toNat = 2
        omega
      rw [if_neg hgrown]
      dsimp only
      by_cases hlast : bbr.fullBwCnt = 2
      · have hdrain : Draining bbr bbr.maxBw.toNat := Or.inr ⟨hlow, hlast⟩
        rw [if_pos hdrain, if_pos ⟨hmode, decide_eq_true (hthree.mpr hlast)⟩]
        exact ⟨_, rfl, ⟨h.minRttUs, h.deliveredMstamp, hfull, h.samples, h.bwCnt,
          Or.inr ⟨rfl, decide_eq_true (hthree.mpr hlast)⟩⟩, rfl, rfl, rfl⟩
      · have hdrain : ¬Draining bbr bbr.maxBw.toNat := by
          rintro (hone | ⟨-, htwo⟩)
          · exact hne hone
          · exact hlast htwo
        have hno : decide (bbr.fullBwCnt + 1 ≥ 3) = false := decide_eq_false fun hge => hlast (hthree.mp hge)
        have hle : (bbr.fullBwCnt + 1).toNat ≤ 2 := by
          have htwo : bbr.fullBwCnt.toNat ≠ 2 := fun heq => hlast (UInt64.toNat_inj.mp heq)
          rw [hsum]
          omega
        rw [if_neg hdrain, hno, if_neg fun hyes => Bool.false_ne_true hyes.2]
        exact ⟨_, rfl, ⟨h.minRttUs, h.deliveredMstamp, hfull, h.samples, h.bwCnt, Or.inl ⟨hmode, rfl, hle⟩⟩, rfl, rfl,
          hmode⟩
  · have hne : ¬bbr.mode = 0 := by
      rw [hmode]
      decide
    have hdrain : Draining bbr bbr.maxBw.toNat := Or.inl hmode
    rw [if_pos hfilled, if_neg fun hyes => hne hyes.1, if_pos hdrain]
    exact ⟨_, rfl, h, rfl, rfl, hmode⟩

theorem bbrTargetCwnd_toNat (h : BbrInv bbr) (hbw : bbr.maxBw.toNat ≤ bbrBwMax) :
    (bbrTargetCwnd bbr).toNat = max 5840 (bbr.maxBw.toNat / 500 * (if bbr.mode = 1 then 733 else 2885) / 1024) := by
  have hbdp : (bbrBdp bbr).toNat = bbr.maxBw.toNat / 500 := by
    unfold bbrBdp
    dsimp only
    rw [h.minRttUs, if_neg (by decide), UInt64.toNat_div, UInt64.toNat_mul]
    show bbr.maxBw.toNat * 2000 % 2 ^ 64 / 1000000 = _
    unfold bbrBwMax at hbw
    rw [Nat.mod_eq_of_lt (by omega)]
    omega
  have hgain : ∀ g : UInt64, g.toNat ≤ 2885 →
      (bbrBdp bbr * g / bbrUnit).toNat = bbr.maxBw.toNat / 500 * g.toNat / 1024 := by
    intro g hg
    rw [UInt64.toNat_div, UInt64.toNat_mul, hbdp]
    have hle : bbr.maxBw.toNat / 500 * g.toNat ≤ bbr.maxBw.toNat / 500 * 2885 := Nat.mul_le_mul_left _ hg
    unfold bbrBwMax at hbw
    rw [Nat.mod_eq_of_lt (by omega)]
    rfl
  have hfloor : ∀ c : UInt64,
      (if c < tcpMss.toUInt64 * 4 then tcpMss.toUInt64 * 4 else c).toNat = max 5840 c.toNat := by
    intro c
    have hmin : (tcpMss.toUInt64 * 4).toNat = 5840 := rfl
    split_ifs with hlt
    · have hlt' := UInt64.lt_iff_toNat_lt.mp hlt
      omega
    · have hle := Nat.le_of_not_lt fun hlt' => hlt (UInt64.lt_iff_toNat_lt.mpr hlt')
      omega
  unfold bbrTargetCwnd
  dsimp only
  rw [hfloor]
  rcases h.mode with ⟨hmode, -, -⟩ | ⟨hmode, -⟩
  · rw [hmode, if_pos rfl, if_neg (by decide), hgain bbrHighGain (by decide)]
    rfl
  · rw [hmode, if_neg (by decide), if_pos rfl, if_pos rfl, hgain bbrDrainGain (by decide)]
    rfl

/-- A positive window stays what it is or becomes the low bits of a window for the bandwidth. -/
theorem bbrAvoid_spec (h : BbrInv bbr) (hw : w ≠ 0) (acked : UInt32) :
    BbrInv (bbrAvoid bbr w acked).2 ∧ (bbrAvoid bbr w acked).2.sk = bbr.sk ∧
      (acked ≠ 0 → ((bbrAvoid bbr w acked).1 ≠ 0 ↔ BbrOk bbr acked)) := by
  unfold bbrAvoid
  by_cases hacked : acked = 0
  · rw [if_pos hacked]
    exact ⟨h, rfl, fun hne => absurd hacked hne⟩
  rw [if_neg hacked]
  obtain ⟨m, hm, hinv, hmax, hsk, hmode, -, hfull, hcnt⟩ := bbrMeasure_spec h acked
  have hpeak := bbrPeak_le h acked
  have hdrain : Draining m m.maxBw.toNat ↔ Draining bbr (bbrPeak bbr acked) := by
    unfold Draining
    rw [hmax, hmode, hfull, hcnt]
  dsimp only
  rw [← hm]
  by_cases hzero : m.maxBw = 0
  · rw [if_pos hzero]
    have hpeak₀ : bbrPeak bbr acked = 0 := by
      rw [← hmax, hzero]
      rfl
    refine ⟨hinv, hsk, fun _ => iff_of_true hw (Or.inl ?_)⟩
    unfold bbrCwnd
    rw [hpeak₀]
    split_ifs <;> decide
  rw [if_neg hzero]
  obtain ⟨u, hu, huinv, humax, husk, humode⟩ := bbrUpdateMode_spec hinv hw (hmax.trans_le hpeak)
  have htarget := bbrTargetCwnd_toNat huinv ((congrArg UInt64.toNat humax).trans hmax |>.trans_le hpeak)
  rw [← hu]
  have hcwnd : (bbrTargetCwnd u).toNat = max 5840 (bbrCwnd bbr (bbrPeak bbr acked)) := by
    have hone : u.mode = 1 ↔ Draining bbr (bbrPeak bbr acked) := by
      rw [humode, ← hdrain]
      split_ifs with hyes
      · exact iff_of_true rfl hyes
      · exact iff_of_false (by decide) hyes
    unfold bbrCwnd
    rw [htarget, humax, hmax]
    simp only [hone]
  refine ⟨⟨huinv.minRttUs, huinv.deliveredMstamp, huinv.fullBw, huinv.samples, huinv.bwCnt, huinv.mode⟩, husk.trans hsk,
    fun _ => ?_⟩
  unfold BbrOk
  obtain ⟨cwnd, hcwnd'⟩ : ∃ c, c = bbrCwnd bbr (bbrPeak bbr acked) := ⟨_, rfl⟩
  rw [← hcwnd'] at hcwnd ⊢
  obtain ⟨t, ht⟩ : ∃ t, t = bbrTargetCwnd u := ⟨_, rfl⟩
  rw [← ht] at hcwnd ⊢
  have hmax : tcpCongMaxCwnd.toUInt64.toNat = 2 ^ 32 - 1 := rfl
  dsimp only
  rw [ne_eq, ← UInt16.toNat_inj]
  have hnil : (0 : UInt16).toNat = 0 := rfl
  split_ifs with hgt
  · have hgt' := UInt64.lt_iff_toNat_lt.mp hgt
    rw [hmax, hcwnd] at hgt'
    refine iff_of_true (by decide) (Or.inr (Or.inl ?_))
    omega
  · have hle := Nat.le_of_not_lt fun hlt => hgt (UInt64.lt_iff_toNat_lt.mpr hlt)
    rw [hmax, hcwnd] at hle
    rw [UInt32.toNat_toUInt16, UInt64.toNat_toUInt32, hcwnd, hnil]
    omega

end Bbr

end TcpCong
