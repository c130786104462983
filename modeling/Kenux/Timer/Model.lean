import Kenux.Lib.Run
import Mathlib.Data.UInt

/-!
# The timer wheel (`kernel/timer.c`)

A link that is followed through a null pointer has no result. The loops over a list have as many rounds as timers
were ever added: a longer list is a cycle, and the loop does not end. `jiffies` counts milliseconds in 64 bits and
does not wrap.
-/

namespace Timer

inductive TimerState where
  | inactive | active | expired
  deriving DecidableEq

/-- `timer_entry_t`; of its flags `TIMER_FLAG_ONESHOT`. -/
structure TimerEntry where
  next : Option ℕ
  prev : Option ℕ
  expires : ℕ
  state : TimerState
  oneshot : Bool

/-- What was called, and for a tick whose callbacks it ran. -/
inductive Event where
  | add (t ticks : ℕ)
  | mod (t ticks : ℕ)
  | del (t : ℕ)
  | tick (ran : List ℕ)

/-- The timers by their addresses, `timer_wheel_t`, the timers that were ever added and the calls so far. -/
structure State where
  mem : ℕ → TimerEntry
  lists : ℕ → ℕ → Option ℕ
  jiffies : ℕ
  known : List ℕ
  events : List Event

def wheelBits : ℕ := 8

def wheelSize : ℕ := 256

/-- `timer_ms_to_jiffies`, with ticks of one millisecond. -/
def msToJiffies (ms : ℕ) : ℕ := if ms = 0 then 1 else ms

/-- The level and the index of a list, from the time that is left. -/
def calcIndex (expires now : ℕ) : ℕ × ℕ :=
  let delta := (expires + 2 ^ 64 - now) % 2 ^ 64
  let level :=
    if delta < 2 ^ wheelBits then 0
    else if delta < 2 ^ (2 * wheelBits) then 1
    else if delta < 2 ^ (3 * wheelBits) then 2
    else 3
  (level, expires / 2 ^ (wheelBits * level) % wheelSize)

def State.setTimer (s : State) (t : ℕ) (x : TimerEntry) : State := { s with mem := Function.update s.mem t x }

def State.setList (s : State) (level idx : ℕ) (head : Option ℕ) : State :=
  { s with lists := fun l i => if l = level ∧ i = idx then head else s.lists l i }

def State.setNext (s : State) (t : ℕ) (n : Option ℕ) : State := s.setTimer t { s.mem t with next := n }

def State.setPrev (s : State) (t : ℕ) (p : Option ℕ) : State := s.setTimer t { s.mem t with prev := p }

def State.setState (s : State) (t : ℕ) (state : TimerState) : State := s.setTimer t { s.mem t with state := state }

/-- `__timer_enqueue`. -/
def enqueue (t : ℕ) (s : State) : Option State :=
  let idx := calcIndex (s.mem t).expires s.jiffies
  match s.lists idx.1 idx.2 with
  | none => some (((((s.setNext t none).setPrev t none).setList idx.1 idx.2 (some t)).setPrev t (some t)).setState t .active)
  | some h =>
    match (s.mem h).prev with
    | none => none
    | some last =>
      some (((((s.setNext t none).setPrev t (some last)).setNext last (some t)).setPrev h (some t)).setState t .active)

/-- `__timer_dequeue`. -/
def dequeue (t : ℕ) (s : State) : Option State :=
  match (s.mem t).next with
  | none => none
  | some n =>
    if n = t then
      let idx := calcIndex (s.mem t).expires s.jiffies
      some ((((s.setList idx.1 idx.2 none).setNext t none).setPrev t none).setState t .inactive)
    else
      match (s.mem t).prev with
      | none => none
      | some p =>
        some (((((s.setNext p (some n)).setPrev n (some p)).setNext t none).setPrev t none).setState t .inactive)

/-- The loop of `__cascade`. -/
def cascadeLoop : ℕ → Option ℕ → State → Option State
  | _, none, s => some s
  | 0, some _, _ => none
  | n + 1, some t, s =>
    let next := (s.mem t).next
    (enqueue t ((s.setNext t none).setPrev t none)).bind fun s => cascadeLoop n next s

/-- `__cascade(level)`. -/
def cascade (level : ℕ) (s : State) : Option State :=
  if level ≥ 3 then some s
  else
    let idx := s.jiffies / 2 ^ (wheelBits * (level + 1)) % wheelSize
    let list := s.lists (level + 1) idx
    cascadeLoop s.known.length list (s.setList (level + 1) idx none)

/-- The loop of `__expire_level0`: the timers whose callbacks ran. -/
def expireLoop : ℕ → Option ℕ → State → Option (List ℕ × State)
  | _, none, s => some ([], s)
  | 0, some _, _ => none
  | n + 1, some t, s =>
    let next := (s.mem t).next
    let s := ((s.setNext t none).setPrev t none).setState t .expired
    let again := if (s.mem t).oneshot then some s
      else enqueue t (s.setTimer t { s.mem t with expires := (s.mem t).expires + msToJiffies 1 })
    again.bind fun s => (expireLoop n next s).map fun r => (t :: r.1, r.2)

/-- `__expire_level0`. -/
def expireLevel0 (s : State) : Option (List ℕ × State) :=
  let idx := s.jiffies % wheelSize
  let list := s.lists 0 idx
  (expireLoop s.known.length list (s.setList 0 idx none)).bind fun r =>
    if idx = 0 then (cascade 0 r.2).map fun s => (r.1, s) else some r

def timerTick (s : State) : Option State :=
  (expireLevel0 { s with jiffies := s.jiffies + 1 }).map fun r => { r.2 with events := r.2.events ++ [.tick r.1] }

def timerAdd (t ms : ℕ) (s : State) : Option State :=
  let s := s.setTimer t ⟨none, none, s.jiffies + msToJiffies ms, .inactive, false⟩
  enqueue t { s with known := t :: s.known }

def timerAddOneshot (t ms : ℕ) (s : State) : Option State :=
  (timerAdd t ms s).map fun s =>
    { s.setTimer t { s.mem t with oneshot := true } with events := s.events ++ [.add t (msToJiffies ms)] }

def timerMod (t ms : ℕ) (s : State) : Option State :=
  if (s.mem t).state ≠ .active then some s
  else
    (dequeue t s).bind fun s =>
      (enqueue t (s.setTimer t { s.mem t with expires := s.jiffies + msToJiffies ms })).map fun s =>
        { s with events := s.events ++ [.mod t (msToJiffies ms)] }

def timerDel (t : ℕ) (s : State) : Option State :=
  if (s.mem t).state ≠ .active then some s
  else (dequeue t s).map fun s => { s with events := s.events ++ [.del t] }

inductive Call where
  | add (t ms : ℕ)
  | mod (t ms : ℕ)
  | del (t : ℕ)
  | tick

/-- A timer is added only while it is not active. -/
def step (s : State) : Call → Option State
  | .add t ms => if (s.mem t).state = .active then none else timerAddOneshot t ms s
  | .mod t ms => timerMod t ms s
  | .del t => timerDel t s
  | .tick => timerTick s

/-- `timer_wheel_init`; the timers are as they come. -/
def start (mem : ℕ → TimerEntry) : State := ⟨mem, fun _ _ => none, 0, [], []⟩

/-! ## What the wheel is for -/

/-- The timers that wait, with the tick they wait for. A tick runs the callbacks of those that wait for it, each once. -/
inductive Schedule : (ℕ → Option ℕ) → ℕ → Event → (ℕ → Option ℕ) → ℕ → Prop where
  | add {pending : ℕ → Option ℕ} {now : ℕ} (t ticks : ℕ) (h : pending t = none) :
      Schedule pending now (.add t ticks) (Function.update pending t (some (now + ticks))) now
  | mod {pending : ℕ → Option ℕ} {now : ℕ} (t ticks : ℕ) (h : pending t ≠ none) :
      Schedule pending now (.mod t ticks) (Function.update pending t (some (now + ticks))) now
  | del {pending : ℕ → Option ℕ} {now : ℕ} (t : ℕ) (h : pending t ≠ none) :
      Schedule pending now (.del t) (Function.update pending t none) now
  | tick {pending : ℕ → Option ℕ} {now : ℕ} (ran : List ℕ) (hnodup : ran.Nodup)
      (hran : ∀ t, t ∈ ran ↔ pending t = some (now + 1)) :
      Schedule pending now (.tick ran) (fun t => if t ∈ ran then none else pending t) (now + 1)

/-- The events are those of a schedule that starts with no timer at 0. -/
inductive History : List Event → (ℕ → Option ℕ) → ℕ → Prop where
  | start : History [] (fun _ => none) 0
  | snoc {events : List Event} {e : Event} {pending pending' : ℕ → Option ℕ} {now now' : ℕ}
      (h : History events pending now) (he : Schedule pending now e pending' now') :
      History (events ++ [e]) pending' now'

end Timer
