import Kenux.Lib.Run
import Mathlib.Data.UInt

/-!
# Congestion control (`arch/x86_64/tcp_cong.c`)

A division or a remainder by zero has no result, and neither has the increment of an `int` that holds its greatest
value. Fields of a slot that nothing reads are left out.
-/

namespace TcpCong

def tcpMss : UInt32 := 1460

def tcpInitCwnd : UInt16 := 10

def tcpInitSsthresh : UInt32 := 0xffff

def tcpCongMaxCwnd : UInt32 := 0xffffffff

def slotMax : ℕ := 64

def intMax : ℕ := 2 ^ 31 - 1

/-- `TCP_CONG_EVENT_*`. -/
def eventRetrans : UInt32 := 2

def eventFrto : UInt32 := 3

def eventLossTimeout : UInt32 := 4

/-! ## Slow start and reno -/

/-- The branch below the threshold, which reno and cubic share. -/
def slowStart (sndWnd : UInt16) (acked : UInt32) : UInt16 :=
  let newCwnd := sndWnd.toUInt32 + acked
  let newCwnd := if newCwnd > tcpInitSsthresh then tcpInitSsthresh else newCwnd
  newCwnd.toUInt16

def tcpRenoCongAvoid (sndWnd : UInt16) (acked : UInt32) : UInt16 :=
  if sndWnd = 0 then sndWnd
  else if sndWnd.toUInt32 < tcpInitSsthresh then slowStart sndWnd acked
  else
    let incr := tcpMss * acked / sndWnd.toUInt32
    let incr := if incr = 0 then 1 else incr
    (sndWnd.toUInt32 + incr).toUInt16

def tcpRenoCwndEvent (sndWnd : UInt16) (event : UInt32) : UInt16 :=
  if event = eventRetrans ∨ event = eventLossTimeout then 1
  else if event = eventFrto then tcpInitCwnd
  else sndWnd

/-! ## Cubic -/

def tcpCubicC : UInt32 := 410

def tcpCubicBeta : UInt32 := 717

def tcpCubicScale : UInt32 := 100

/-- The search of `cubic_root`, which has 22 rounds at most. -/
def cubicRootLoop (x : UInt64) : ℕ → UInt64 → UInt64 → UInt64
  | 0, lo, _ => lo
  | fuel + 1, lo, hi =>
    if lo < hi then
      let mid := (lo + hi + 1) / 2
      if mid * mid * mid ≤ x then cubicRootLoop x fuel mid hi else cubicRootLoop x fuel lo (mid - 1)
    else lo

def cubicRoot (x : UInt64) : UInt64 := if x = 0 then 0 else cubicRootLoop x 22 0 2097152

/-- `cubic_state_t` -/
structure CubicState (ν : Type) where
  wMax : UInt32 := 0
  epochStart : UInt32 := 0
  ackCnt : UInt32 := 0
  tcpJiffies : UInt32 := 0
  originPoint : UInt32 := 0
  k : UInt32 := 0
  delayedAck : UInt32 := 0
  lastWnd : UInt32 := 0
  found : UInt8 := 0
  sk : Option ν := none

variable {ν : Type}

/-- What `tcp_cubic_init` writes to a slot. -/
def cubicFresh (sk : ν) : CubicState ν where
  wMax := tcpInitSsthresh
  delayedAck := 2
  lastWnd := tcpInitCwnd.toUInt32
  sk := some sk

/-- An epoch begins, or one more acknowledgement is counted. -/
def cubicEpoch (ca : CubicState ν) (sndWnd : UInt16) (ack : UInt32) : CubicState ν :=
  if ca.epochStart = 0 then
    { ca with
      epochStart := ack
      originPoint := sndWnd.toUInt32
      k := if sndWnd.toUInt32 < ca.wMax then
          (cubicRoot ((ca.wMax - sndWnd.toUInt32) * 1000000 * tcpCubicScale / tcpCubicC).toUInt64).toUInt32
        else 0
      ackCnt := 1
      tcpJiffies := ack }
  else { ca with ackCnt := ca.ackCnt + 1 }

/-- The window that the curve gives for an acknowledgement. -/
def cubicTarget (ca : CubicState ν) (ack : UInt32) : UInt64 :=
  let t := ack - ca.tcpJiffies + ca.k
  let t := if t < ca.tcpJiffies then ca.tcpJiffies + 1 else t
  let d := (t - ca.tcpJiffies).toUInt64
  let target := ca.originPoint.toUInt64 + tcpCubicC.toUInt64 * d * d / 1000000
  if target > 0xffffffff then 0xffffffff else target

/-- The branch of `tcp_cubic_cong_avoid` above the threshold. -/
def cubicAvoid (ca : CubicState ν) (sndWnd : UInt16) (ack : UInt32) : Option (UInt16 × CubicState ν) :=
  let ca := cubicEpoch ca sndWnd ack
  if ca.found ≠ 0 then some ((ca.lastWnd + 1).toUInt16, { ca with found := 0 })
  else
    let target := cubicTarget ca ack
    if ca.delayedAck = 0 then none
    else
      let delta :=
        if target < sndWnd.toUInt64 then
          (sndWnd.toUInt32 - target.toUInt32) * tcpCubicScale / ca.delayedAck / tcpMss
        else
          ((target - sndWnd.toUInt64) * tcpCubicScale.toUInt64 / ca.delayedAck.toUInt64 / tcpMss.toUInt64).toUInt32
      let delta := if delta < 1 then 1 else delta
      if tcpMss / delta = 0 then none
      else
        let ca := { ca with ackCnt := ca.ackCnt % (tcpMss / delta) }
        if ca.ackCnt = 0 then
          let sndWnd := if sndWnd.toUInt32 < tcpCongMaxCwnd then sndWnd + 1 else sndWnd
          some (sndWnd, { ca with lastWnd := sndWnd.toUInt32 })
        else some (sndWnd, ca)

/-- What `tcp_cubic_cwnd_event` does with the state it finds. -/
def cubicEvent (ca : CubicState ν) (sndWnd : UInt16) (event : UInt32) : UInt16 × CubicState ν :=
  if event = eventRetrans ∨ event = eventLossTimeout then
    let wMax := if sndWnd.toUInt32 < ca.wMax then sndWnd.toUInt32 * tcpCubicBeta / 1000 else sndWnd.toUInt32
    (tcpInitCwnd, { ca with wMax := wMax, epochStart := 0 })
  else (sndWnd, ca)

/-! ## BBR -/

def bbrUnit : UInt64 := 1024

def bbrHighGain : UInt64 := 2885

def bbrDrainGain : UInt64 := 733

/-- `bbr_cong_state_t` -/
structure BbrState (ν : Type) where
  minRttUs : UInt64 := 0
  maxBw : UInt64 := 0
  targetCwnd : UInt64 := 0
  deliveredMstamp : UInt64 := 0
  fullBw : UInt64 := 0
  fullBwCnt : UInt64 := 0
  cycleIdx : UInt32 := 0
  mode : UInt32 := 0
  filledPipe : Bool := false
  bwCnt : UInt32 := 0
  bwSamples : ℕ → UInt64 := fun _ => 0
  bwHead : UInt32 := 0
  sk : Option ν := none

/-- What `tcp_bbr_init` writes to a slot. -/
def bbrFresh (sk : ν) : BbrState ν := { targetCwnd := tcpMss.toUInt64 * 4, sk := some sk }

def bbrBwFromDelta (delta timeUs : UInt64) : UInt64 :=
  if timeUs = 0 then 0xffffffffffffffff else delta * 1000000 / timeUs

def bbrUpdateBw (bbr : BbrState ν) (delivered intervalUs : UInt64) : BbrState ν :=
  let samples := Function.update bbr.bwSamples bbr.bwHead.toNat (bbrBwFromDelta delivered intervalUs)
  let bwCnt := if bbr.bwCnt < 20 then bbr.bwCnt + 1 else bbr.bwCnt
  { bbr with
    bwSamples := samples
    bwHead := (bbr.bwHead + 1) % 20
    bwCnt := bwCnt
    maxBw := (List.range bwCnt.toNat).foldl (fun maxb i => if samples i > maxb then samples i else maxb) 0 }

def bbrBdp (bbr : BbrState ν) : UInt64 :=
  let rtt := if bbr.minRttUs ≠ 0 then bbr.minRttUs else 2000
  bbr.maxBw * rtt / 1000000

/-- `gains[i]` -/
def bbrGains (i : UInt32) : UInt64 :=
  if i % 8 = 0 then bbrUnit * 5 / 4 else if i % 8 = 6 then bbrUnit * 3 / 4 else bbrUnit

def bbrTargetCwnd (bbr : BbrState ν) : UInt64 :=
  let cwnd :=
    if bbr.mode = 0 then bbrBdp bbr * bbrHighGain / bbrUnit
    else if bbr.mode = 1 then bbrBdp bbr * bbrDrainGain / bbrUnit
    else if bbr.mode = 2 then bbrBdp bbr * bbrGains bbr.cycleIdx / bbrUnit
    else tcpMss.toUInt64 * 4
  if cwnd < tcpMss.toUInt64 * 4 then tcpMss.toUInt64 * 4 else cwnd

/-- The modes of `tcp_bbr_cong_avoid`. -/
def bbrUpdateMode (bbr : BbrState ν) (sndWnd : UInt16) : BbrState ν :=
  let bbr :=
    if bbr.filledPipe then bbr
    else if bbr.maxBw ≥ bbr.fullBw * 125 / 100 then { bbr with fullBw := bbr.maxBw, fullBwCnt := 0 }
    else { bbr with fullBwCnt := bbr.fullBwCnt + 1, filledPipe := decide (bbr.fullBwCnt + 1 ≥ 3) }
  let bbr := if bbr.mode = 0 ∧ bbr.filledPipe then { bbr with mode := 1, cycleIdx := 0 } else bbr
  if bbr.mode = 1 ∧ sndWnd = 0 then { bbr with mode := 2, cycleIdx := 1 } else bbr

/-- The bandwidth of `tcp_bbr_cong_avoid`; the time is always 0. -/
def bbrMeasure (bbr : BbrState ν) (acked : UInt32) : BbrState ν :=
  let interval := 0 - bbr.deliveredMstamp
  let interval := if interval = 0 then 1 else interval
  { bbrUpdateBw bbr acked.toUInt64 interval with deliveredMstamp := 0 }

/-- `tcp_bbr_cong_avoid` on the state it finds. -/
def bbrAvoid (bbr : BbrState ν) (sndWnd : UInt16) (acked : UInt32) : UInt16 × BbrState ν :=
  if acked = 0 then (sndWnd, bbr)
  else
    let bbr := bbrMeasure bbr acked
    if bbr.maxBw = 0 then (sndWnd, bbr)
    else
      let bbr := bbrUpdateMode bbr sndWnd
      let target := bbrTargetCwnd bbr
      let target := if target > tcpCongMaxCwnd.toUInt64 then tcpCongMaxCwnd.toUInt64 else target
      (target.toUInt32.toUInt16, { bbr with targetCwnd := target })

def bbrEvent (bbr : BbrState ν) (sndWnd : UInt16) (event : UInt32) : UInt16 × BbrState ν :=
  if event = eventRetrans ∨ event = eventLossTimeout then
    (tcpInitCwnd, { bbr with mode := 0, filledPipe := false, fullBw := 0, fullBwCnt := 0 })
  else (sndWnd, bbr)

/-! ## Sockets -/

inductive Algo where
  | reno
  | cubic
  | bbr
  deriving DecidableEq

/-- The windows of the sockets, those that were initialised, and the slots. -/
structure State (ν : Type) where
  sndWnd : ν → UInt16
  sockets : List ν := []
  cubicSlots : ℕ → CubicState ν := fun _ => {}
  cubicSlotNext : ℕ := 0
  bbrSlots : ℕ → BbrState ν := fun _ => {}
  bbrSlotNext : ℕ := 0

variable [DecidableEq ν]

def State.setWnd (s : State ν) (sk : ν) (w : UInt16) : State ν := { s with sndWnd := Function.update s.sndWnd sk w }

def cubicFindState (s : State ν) (sk : ν) : Option ℕ :=
  (List.range slotMax).find? fun i => (s.cubicSlots i).sk = some sk

def bbrFindState (s : State ν) (sk : ν) : Option ℕ := (List.range slotMax).find? fun i => (s.bbrSlots i).sk = some sk

def State.setCubic (s : State ν) (i : ℕ) (ca : CubicState ν) : State ν :=
  { s with cubicSlots := Function.update s.cubicSlots i ca }

def State.setBbr (s : State ν) (i : ℕ) (bbr : BbrState ν) : State ν :=
  { s with bbrSlots := Function.update s.bbrSlots i bbr }

/-- `tcp_cong_init_sock` with a default. -/
def tcpCongInitSock (algo : Algo) (s : State ν) (sk : ν) : Option (State ν) :=
  let s := { s.setWnd sk tcpInitCwnd with sockets := sk :: s.sockets }
  match algo with
  | .reno => some s
  | .cubic =>
    if s.cubicSlotNext < intMax then
      some { s.setCubic (s.cubicSlotNext % slotMax) (cubicFresh sk) with cubicSlotNext := s.cubicSlotNext + 1 }
    else none
  | .bbr =>
    if s.bbrSlotNext < intMax then
      some { s.setBbr (s.bbrSlotNext % slotMax) (bbrFresh sk) with bbrSlotNext := s.bbrSlotNext + 1 }
    else none

def tcpCubicCongAvoid (s : State ν) (sk : ν) (ack acked : UInt32) : Option (State ν) :=
  if (s.sndWnd sk).toUInt32 < tcpInitSsthresh then some (s.setWnd sk (slowStart (s.sndWnd sk) acked))
  else
    match cubicFindState s sk with
    | none => some s
    | some i => do
      let (w, ca) ← cubicAvoid (s.cubicSlots i) (s.sndWnd sk) ack
      pure ((s.setCubic i ca).setWnd sk w)

/-- `tcp_cong_on_ack` -/
def tcpCongOnAck (algo : Algo) (s : State ν) (sk : ν) (ack acked : UInt32) : Option (State ν) :=
  match algo with
  | .reno => some (s.setWnd sk (tcpRenoCongAvoid (s.sndWnd sk) acked))
  | .cubic => tcpCubicCongAvoid s sk ack acked
  | .bbr =>
    match bbrFindState s sk with
    | none => some s
    | some i =>
      let (w, bbr) := bbrAvoid (s.bbrSlots i) (s.sndWnd sk) acked
      some ((s.setBbr i bbr).setWnd sk w)

/-- `tcp_cong_event` -/
def tcpCongEvent (algo : Algo) (s : State ν) (sk : ν) (event : UInt32) : State ν :=
  match algo with
  | .reno => s.setWnd sk (tcpRenoCwndEvent (s.sndWnd sk) event)
  | .cubic =>
    match cubicFindState s sk with
    | none => s
    | some i =>
      let (w, ca) := cubicEvent (s.cubicSlots i) (s.sndWnd sk) event
      (s.setCubic i ca).setWnd sk w
  | .bbr =>
    match bbrFindState s sk with
    | none => s
    | some i =>
      let (w, bbr) := bbrEvent (s.bbrSlots i) (s.sndWnd sk) event
      (s.setBbr i bbr).setWnd sk w

inductive Call (ν : Type) where
  | init (sk : ν)
  | ack (sk : ν) (ack acked : UInt32)
  | event (sk : ν) (event : UInt32)

def step (algo : Algo) (s : State ν) : Call ν → Option (State ν)
  | .init sk => tcpCongInitSock algo s sk
  | .ack sk ack acked => tcpCongOnAck algo s sk ack acked
  | .event sk event => some (tcpCongEvent algo s sk event)

/-- Acknowledgements and events come for sockets that were initialised, and something is acknowledged. -/
def Allowed (s : State ν) : Call ν → Prop
  | .init _ => True
  | .ack sk _ acked => sk ∈ s.sockets ∧ 0 < acked
  | .event sk _ => sk ∈ s.sockets

/-- Before any socket, with whatever the windows hold. -/
def start (sndWnd : ν → UInt16) : State ν := { sndWnd := sndWnd }

end TcpCong
