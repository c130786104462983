import Kenux.Lib.Run
import Mathlib.Data.UInt

/-!
# Signals of a process (`kernel/signal.c`)

The process that sends, receives and sets its signals up is the current one. The arrays are indexed by the
number of the signal (the code takes 1 from it), a queue is the list of its entries, and what
`signal_do_pending` does to a signal is recorded as a `Delivery` for it. Each `kzalloc` takes its answer.
-/

namespace Signal

/-- `k_sigset_t`: one word, as `SIG_WORDS` is 1. -/
abbrev SigSet := BitVec 64

def sigMax : ℕ := 64
def sigRtMin : ℕ := 32
def sigKill : ℕ := 9
def sigStop : ℕ := 19
def sigQueueMax : ℕ := 8
def processMax : ℕ := 256

def sigaddset (set : SigSet) (sig : ℕ) : SigSet :=
  if 0 < sig ∧ sig ≤ sigMax then set ||| (1#64 <<< (sig - 1)) else set

def sigdelset (set : SigSet) (sig : ℕ) : SigSet :=
  if 0 < sig ∧ sig ≤ sigMax then set &&& ~~~(1#64 <<< (sig - 1)) else set

def sigismember (set : SigSet) (sig : ℕ) : Bool :=
  if 0 < sig ∧ sig ≤ sigMax then (set >>> (sig - 1)) &&& 1#64 != 0#64 else false

/-- `k_siginfo_t`. -/
structure Info where
  siSigno : ℤ
  siCode : ℤ
  siErrno : ℤ
  siAddr : UInt64
  siUid : ℤ
  siPid : ℤ
  siValue : UInt64
  deriving DecidableEq

/-- After `memset` or `kzalloc`. -/
def Info.zero : Info := ⟨0, 0, 0, 0, 0, 0, 0⟩

/-- `k_sigaction_t`: the handler is 0 for `SIG_DFL` and 1 for `SIG_IGN`. -/
structure Action where
  saHandler : UInt64
  saMask : SigSet
  saFlags : BitVec 32

/-- `signal_struct_t`. -/
structure SignalStruct where
  actions : ℕ → Action
  blocked : SigSet
  pending : SigSet
  queues : ℕ → List Info

inductive ProcState where
  | terminated | ready | running | sleeping | waiting | zombie | stopped | dead | unused
  deriving DecidableEq

/-- `process_context_t`. -/
structure Context where
  (r15 r14 r13 r12 r11 r10 r9 r8 rbp rdi rsi rdx rcx rbx rax rip cs rflags rsp ss cr3 gsBase fsBase : UInt64)
  deriving Inhabited

/-- `k_ucontext_t`. -/
structure UContext where
  ucFlags : UInt64
  ucLink : UInt64
  ucSigmask : SigSet
  ucMcontext : Context

/-- What `__signal_setup_frame` writes to the stack, from the top down. -/
structure Frame where
  uc : UContext
  info : Info
  returnAddress : UInt64

structure Process where
  pid : ℕ
  state : ProcState
  context : Context
  signalData : Option SignalStruct
  frames : List Frame

def signalCreate : SignalStruct where
  actions _ := ⟨0, 0#64, 0#32⟩
  blocked := 0#64
  pending := 0#64
  queues _ := []

/-! ## `signal_send` -/

/-- The entry for the queue. -/
def newEntry (sig : ℕ) (info : Option Info) : Info :=
  { info.getD Info.zero with siSigno := sig }

/-- A sleeping or waiting target becomes ready. -/
def wake (p : Process) : Process :=
  if p.state = .sleeping ∨ p.state = .waiting then { p with state := .ready } else p

/-- The signal is pending; a real-time signal gets an entry, if there is room in its queue. -/
def SignalStruct.post (sd : SignalStruct) (sig : ℕ) (info : Option Info) : SignalStruct :=
  if sigRtMin ≤ sig then
    if (sd.queues sig).length < sigQueueMax then
      { sd with
        queues := Function.update sd.queues sig (sd.queues sig ++ [newEntry sig info])
        pending := sigaddset sd.pending sig }
    else sd
  else { sd with pending := sigaddset sd.pending sig }

/-- `kzalloc` tells whether there is memory for an entry. -/
def signalSend (kzalloc : Bool) (p : Process) (sig : ℤ) (info : Option Info) : ℤ × Process :=
  if sig < 1 ∨ sig > sigMax then (-1, p)
  else if processMax ≤ p.pid then (-1, p)
  else if p.state = .dead then (-1, p)
  else if sig = sigKill then (0, { p with state := .dead })
  else match p.signalData with
    | none => (-1, p)
    | some sd =>
      if sigRtMin ≤ sig.toNat ∧ kzalloc = false then (-1, p)
      else (0, wake { p with signalData := some (sd.post sig.toNat info) })

/-! ## `signal_do_pending` -/

/-- `__signal_default` -/
def signalDefault (sig : ℕ) (p : Process) : Process :=
  if sig ∈ [17, 23, 28, 29] then p
  else if sig ∈ [19, 20, 21, 22] then { p with state := .stopped }
  else if sig = 18 then if p.state = .stopped then { p with state := .ready } else p
  else { p with state := .dead }

/-- The `siginfo` in a frame. -/
def frameInfo (pid sig : ℕ) : Info := { Info.zero with siSigno := sig, siPid := pid }

/-- `SA_SIGINFO`. -/
def saSigInfo : BitVec 32 := 0x4#32

/-- The flag that keeps a signal from being blocked while it is handled. -/
def saNodefer : BitVec 32 := 0x40000000#32

/-- `__signal_setup_frame`: the context is 208 bytes long, the `siginfo` 40. -/
def signalSetupFrame (sig : ℕ) (act : Action) (sd : SignalStruct) (p : Process) : Process :=
  let rsp := p.context.rsp &&& ~~~0xF
  let ucPtr := rsp - 208
  let uc := ⟨0, 0, sd.blocked, p.context⟩
  let siginfoPtr := ucPtr - 40
  let rsp := siginfoPtr - 8
  let context := { p.context with
    rsp := rsp
    rip := act.saHandler
    rdi := sig.toUInt64 }
  let context :=
    if act.saFlags &&& saSigInfo ≠ 0#32 then { context with rsi := siginfoPtr, rdx := ucPtr } else context
  { p with
    context := context
    frames := ⟨uc, frameInfo p.pid sig, 0⟩ :: p.frames }

/-- The pending bit is cleared, and the first entry of the queue, if any, is taken out. -/
def SignalStruct.take (sd : SignalStruct) (sig : ℕ) : SignalStruct :=
  let sd := { sd with pending := sigdelset sd.pending sig }
  if sigRtMin ≤ sig then { sd with queues := Function.update sd.queues sig (sd.queues sig).tail } else sd

/-- The mask while the handler runs. -/
def handlerMask (sig : ℕ) (act : Action) (blocked : SigSet) : SigSet :=
  let blocked := blocked ||| act.saMask
  let blocked := if act.saFlags &&& saNodefer = 0#32 then sigaddset blocked sig else blocked
  let blocked := sigdelset blocked sigKill
  sigdelset blocked sigStop

/-- What happens to a signal: the info that is taken for it or passed on, the mask at that moment, and the
one that a frame saves. -/
structure Delivery where
  info : Info
  before : SigSet
  saved : Option SigSet

/-- A signal that is ignored or has its default action goes with the entry of its queue. -/
def SignalStruct.dropped (sd : SignalStruct) (sig : ℕ) : Delivery :=
  ⟨(sd.queues sig).headD Info.zero, sd.blocked, none⟩

def SignalStruct.caught (sd : SignalStruct) (pid sig : ℕ) : Delivery :=
  ⟨frameInfo pid sig, sd.blocked, some (handlerMask sig (sd.actions sig) sd.blocked)⟩

def record (log : ℕ → List Delivery) (sig : ℕ) (d : Delivery) : ℕ → List Delivery :=
  Function.update log sig (log sig ++ [d])

/-- The loop over the signals. -/
def doPendingLoop : List ℕ → Process → SignalStruct → (ℕ → List Delivery) →
    Process × SignalStruct × (ℕ → List Delivery)
  | [], p, sd, log => (p, sd, log)
  | sig :: sigs, p, sd, log =>
    if sigismember sd.pending sig = false then doPendingLoop sigs p sd log
    else if sigismember sd.blocked sig then doPendingLoop sigs p sd log
    else
      let act := sd.actions sig
      if act.saHandler = 1 then doPendingLoop sigs p (sd.take sig) (record log sig (sd.dropped sig))
      else if act.saHandler = 0 then
        doPendingLoop sigs (signalDefault sig p) (sd.take sig) (record log sig (sd.dropped sig))
      else
        -- the entry is taken out, but the frame is made without it
        let log := record log sig (sd.caught p.pid sig)
        let sd := sd.take sig
        let sd := { sd with blocked := handlerMask sig act sd.blocked }
        (signalSetupFrame sig act sd p, sd, log)

def signalDoPending (p : Process) (log : ℕ → List Delivery) : Process × (ℕ → List Delivery) :=
  match p.signalData with
  | none => (p, log)
  | some sd =>
    let (p, sd, log) := doPendingLoop (List.range' 1 sigMax) p sd log
    ({ p with signalData := some sd }, log)

/-! ## `signal_sigaction` and `signal_sigprocmask` -/

def signalSigaction (p : Process) (sig : ℤ) (act : Option Action) : ℤ × Process :=
  if sig < 1 ∨ sig > sigMax then (-1, p)
  else if sig = sigKill ∨ sig = sigStop then (-1, p)
  else match p.signalData, act with
    | none, _ => (-1, p)
    | some _, none => (0, p)
    | some sd, some act => (0, { p with signalData := some { sd with
        actions := Function.update sd.actions sig.toNat act } })

/-- What `how` makes of the mask; `none` for an unknown one. -/
def newMask (how : ℤ) (blocked set : SigSet) : Option SigSet :=
  if how = 0 then some (blocked ||| set)
  else if how = 1 then some (blocked &&& ~~~set)
  else if how = 2 then some set
  else none

def signalSigprocmask (p : Process) (how : ℤ) (set : Option SigSet) : ℤ × Process :=
  match p.signalData, set with
  | none, _ => (-1, p)
  | some _, none => (0, p)
  | some sd, some set => match newMask how sd.blocked set with
    | none => (-1, p)
    | some blocked => (0, { p with signalData := some { sd with
        blocked := sigdelset (sigdelset blocked sigKill) sigStop } })

/-! ## Runs -/

/-- The process, what was sent to it as each signal, with success, and what was delivered. -/
structure Traced where
  process : Process
  sent : ℕ → List Info
  log : ℕ → List Delivery

inductive Op where
  | send (kzalloc : Bool) (sig : ℤ) (info : Option Info)
  | sigaction (sig : ℤ) (act : Option Action)
  | sigprocmask (how : ℤ) (set : Option SigSet)
  | doPending

/-- A signal that was sent with the result `0`. -/
def Traced.sentAlso (t : Traced) (ret : ℤ) (sig : ℕ) (info : Option Info) : ℕ → List Info :=
  if ret = 0 then Function.update t.sent sig (t.sent sig ++ [newEntry sig info]) else t.sent

def step (t : Traced) : Op → Traced
  | .send kzalloc sig info =>
    let (ret, p) := signalSend kzalloc t.process sig info
    ⟨p, t.sentAlso ret sig.toNat info, t.log⟩
  | .sigaction sig act => { t with process := (signalSigaction t.process sig act).2 }
  | .sigprocmask how set => { t with process := (signalSigprocmask t.process how set).2 }
  | .doPending =>
    let (p, log) := signalDoPending t.process t.log
    { t with process := p, log := log }

/-!
## What the signals are for

A real-time signal is pending as long as its queue has entries, and what was sent is what was delivered and then
what is still queued.
-/

/-- The numbers of the real-time signals that the code queues. -/
def RealTime (sig : ℕ) : Prop := sigRtMin ≤ sig ∧ sig ≤ sigMax

/-- What holds of the signals of a process throughout. -/
structure Sound (sd : SignalStruct) (sent : ℕ → List Info) (log : ℕ → List Delivery) : Prop where
  pending : ∀ sig, RealTime sig → (sigismember sd.pending sig = true ↔ sd.queues sig ≠ [])
  ledger : ∀ sig, RealTime sig → sent sig = (log sig).map Delivery.info ++ sd.queues sig
  unblocked : ∀ sig, ∀ d ∈ log sig, sigismember d.before sig = false
  kill : ∀ sig, sig = sigKill ∨ sig = sigStop → sigismember sd.blocked sig = false ∧ (sd.actions sig).saHandler = 0
  saved : ∀ sig, ∀ d ∈ log sig, ∀ mask, d.saved = some mask → mask = d.before

def Traced.Sound (t : Traced) : Prop := ∃ sd, t.process.signalData = some sd ∧ Signal.Sound sd t.sent t.log

/-- The signal is pending and not blocked. -/
def SignalStruct.due (sd : SignalStruct) (sig : ℕ) : Bool := sigismember sd.pending sig && !sigismember sd.blocked sig

/-- The signal has a handler of the program. -/
def SignalStruct.Catches (sd : SignalStruct) (sig : ℕ) : Prop :=
  (sd.actions sig).saHandler ≠ 1 ∧ (sd.actions sig).saHandler ≠ 0

/-- `signal_do_pending` gets as far as this signal, and it is due. -/
def SignalStruct.Taken (sd : SignalStruct) (sig : ℕ) : Prop :=
  sd.due sig = true ∧ ∀ s < sig, sd.due s = true → ¬sd.Catches s

/-- The handler blocks nothing that is not blocked already. -/
def Action.KeepsMask (act : Action) (blocked : SigSet) : Prop :=
  act.saFlags &&& saNodefer ≠ 0#32 ∧
    ∀ s, s ≠ sigKill → s ≠ sigStop → sigismember act.saMask s = true → sigismember blocked s = true

/-- No real-time signal is sent to a full queue; when `signal_do_pending` takes one, it is the only one in its
queue, and if it is caught then its info is the one that a frame has; and a handler that is called keeps the
mask. -/
def Traced.Kept (t : Traced) : Op → Prop
  | .send kzalloc sig _ => RealTime sig.toNat → t.process.pid < processMax → t.process.state ≠ .dead →
      kzalloc = true → ∀ sd, t.process.signalData = some sd → (sd.queues sig.toNat).length < sigQueueMax
  | .doPending => ∀ sd, t.process.signalData = some sd → ∀ sig, sd.Taken sig →
      (RealTime sig → ∃ info, sd.queues sig = [info] ∧ (sd.Catches sig → info = frameInfo t.process.pid sig)) ∧
      (sd.Catches sig → (sd.actions sig).KeepsMask sd.blocked)
  | _ => True

end Signal
