import Kenux.Lib.Run
import Mathlib.Data.UInt

/-!
# Connection tracking (`arch/x86_64/conntrack.c`)

A call that touches an entry that is not allocated has no result. The loops over a bucket have as many rounds as
entries were ever allocated. Time counts seconds.
-/

namespace Conntrack

def conntrackMax : ℕ := 65536

def conntrackBuckets : ℕ := 1024

def conntrackTimeout : ℕ := 300

def ipprotoTcp : UInt8 := 6

def ipprotoUdp : UInt8 := 17

/-- `nf_conn_tuple_t`. -/
structure Tuple where
  srcIp : UInt32
  dstIp : UInt32
  srcPort : UInt16
  dstPort : UInt16
  proto : UInt8
  deriving DecidableEq

/-- `conntrack_tuple_hash`. -/
def conntrackTupleHash (t : Tuple) : ℕ :=
  let h := t.srcIp * 2654435761
  let h := h ^^^ t.dstIp * 40503
  let h := h ^^^ (t.srcPort.toUInt32 ||| t.dstPort.toUInt32 <<< 16) * 0x9E3779B9
  let h := h ^^^ t.proto.toUInt32
  let h := h ^^^ h >>> 16
  let h := h * 0x85EBCA6B
  let h := h ^^^ h >>> 13
  let h := h * 0xC2B2AE35
  let h := h ^^^ h >>> 16
  h.toNat % conntrackBuckets

/-- `conntrack_make_reply`. -/
def conntrackMakeReply (t : Tuple) : Tuple := ⟨t.dstIp, t.srcIp, t.dstPort, t.srcPort, t.proto⟩

/-- `nf_conntrack_t`, without the fields that no call here reads. -/
structure Entry where
  tuple : Tuple
  replyTuple : Tuple
  proto : UInt8
  state : UInt8
  timeout : ℕ
  lastSeen : ℕ
  refcnt : ℕ
  next : Option ℕ
  prev : Option ℕ

/-- `conntrack_hash`, the allocated entries by their addresses, every address that was ever given out, the time, and
how many references to an entry callers of `conntrack_find_get` have not put back. -/
structure State where
  heads : ℕ → Option ℕ
  counts : ℕ → ℕ
  totalCount : ℕ
  mem : ℕ → Option Entry
  known : List ℕ
  now : ℕ
  held : ℕ → ℕ

def State.modify (s : State) (a : ℕ) (f : Entry → Entry) : Option State :=
  match s.mem a with
  | none => none
  | some e => some { s with mem := Function.update s.mem a (some (f e)) }

def State.setHead (s : State) (b : ℕ) (head : Option ℕ) : State := { s with heads := Function.update s.heads b head }

def State.setCount (s : State) (b n : ℕ) : State := { s with counts := Function.update s.counts b n }

/-- `kfree`. -/
def State.free (s : State) (a : ℕ) : State := { s with mem := Function.update s.mem a none }

/-- The loop of `conntrack_lookup`. -/
def lookupLoop (t : Tuple) : ℕ → Option ℕ → State → Option (Option ℕ)
  | _, none, _ => some none
  | 0, some _, _ => none
  | n + 1, some a, s =>
    match s.mem a with
    | none => none
    | some e =>
      if e.tuple = t then some (some a)
      else if e.replyTuple = t then some (some a)
      else lookupLoop t n e.next s

def conntrackLookup (t : Tuple) (s : State) : Option (Option ℕ) :=
  lookupLoop t s.known.length (s.heads (conntrackTupleHash t)) s

/-- The entry, and the state after. -/
def conntrackFindGet (t : Tuple) (s : State) : Option (Option ℕ × State) :=
  (conntrackLookup t s).bind fun r =>
    match r with
    | none => some (none, s)
    | some a => (s.modify a fun e => { e with refcnt := (e.refcnt + 1) % 2 ^ 32 }).map fun s => (some a, s)

/-- Joins the neighbours of an entry. -/
def unlink (e : Entry) (b : ℕ) (s : State) : Option State :=
  let joined : Option State := match e.prev with
    | some p => s.modify p fun x => { x with next := e.next }
    | none => some (s.setHead b e.next)
  joined.bind fun s =>
    match e.next with
    | some n => s.modify n fun x => { x with prev := e.prev }
    | none => some s

def decrement (n : ℕ) : ℕ := (n + 2 ^ 32 - 1) % 2 ^ 32

def conntrackRemove (a : ℕ) (s : State) : Option State :=
  (s.mem a).bind fun e =>
    let b := conntrackTupleHash e.tuple
    (unlink e b s).map fun s =>
      { (s.setCount b (decrement (s.counts b))).free a with totalCount := decrement s.totalCount }

def conntrackPut (a : ℕ) (s : State) : Option State :=
  (s.mem a).bind fun e =>
    let ref := if e.refcnt > 0 then e.refcnt - 1 else e.refcnt
    (s.modify a fun e => { e with refcnt := ref }).bind fun s => if ref = 0 then conntrackRemove a s else some s

/-- The state and the timeout of a new entry. -/
def fresh (proto : UInt8) (now : ℕ) : UInt8 × ℕ :=
  if proto = ipprotoTcp then (1, now + 120)
  else if proto = ipprotoUdp then (1, now + conntrackTimeout)
  else (0, now + conntrackTimeout)

/-- Puts a new entry at the front of its bucket. -/
def insert (a : ℕ) (e : Entry) (s : State) : Option State :=
  let b := conntrackTupleHash e.tuple
  let s : State := { s with
    mem := Function.update s.mem a (some { e with next := s.heads b, prev := none })
    known := a :: s.known }
  let linked : Option State := match s.heads b with
    | some h => s.modify h fun x => { x with prev := some a }
    | none => some s
  linked.map fun s =>
    { (s.setHead b (some a)).setCount b ((s.counts b + 1) % 2 ^ 32) with totalCount := (s.totalCount + 1) % 2 ^ 32 }

/-- `conntrack_add`; `addr` is what `kmalloc` returns if it is called. -/
def conntrackAdd (t : Tuple) (proto : UInt8) (addr : Option ℕ) (s : State) : Option (Option ℕ × State) :=
  if s.totalCount ≥ conntrackMax then some (none, s)
  else
    (conntrackLookup t s).bind fun existing =>
      match existing with
      | some a => some (some a, s)
      | none =>
        match addr with
        | none => some (none, s)
        | some a =>
          let x := fresh proto s.now
          (insert a ⟨t, conntrackMakeReply t, proto, x.1, x.2, s.now, 1, none, none⟩ s).map fun s => (some a, s)

/-- How long a state lasts when no timeout is given. -/
def defaultTimeout (proto newState : UInt8) : ℕ :=
  if proto = ipprotoTcp then
    if newState = 1 ∨ newState = 2 then 120
    else if newState = 3 then 432000
    else if newState = 4 then 120
    else if newState = 5 ∨ newState = 6 then 30
    else if newState = 7 then 120
    else if newState = 8 then 10
    else 300
  else conntrackTimeout

def conntrackUpdate (a : ℕ) (newState : UInt8) (timeout : ℕ) (s : State) : Option State :=
  s.modify a fun e => { e with
    state := newState
    lastSeen := s.now
    timeout := if timeout > 0 then timeout else s.now + defaultTimeout e.proto newState }

/-- Goes through the buckets below `n`. -/
def eachBucket (f : ℕ → State → Option State) : ℕ → State → Option State
  | 0, s => some s
  | n + 1, s => (eachBucket f n s).bind (f n)

/-- The loop of `conntrack_cleanup` over bucket `b`. -/
def cleanupLoop (b : ℕ) : ℕ → Option ℕ → State → Option State
  | _, none, s => some s
  | 0, some _, _ => none
  | n + 1, some a, s =>
    (s.mem a).bind fun e =>
      if s.now ≥ e.timeout ∧ e.refcnt = 0 then
        (unlink e b s).bind fun s => cleanupLoop b n e.next ((s.setCount b (decrement (s.counts b))).free a)
      else cleanupLoop b n e.next s

/-- The counts of the buckets below `n`, added in 32 bits. -/
def recount (counts : ℕ → ℕ) : ℕ → ℕ
  | 0 => 0
  | n + 1 => (recount counts n + counts n) % 2 ^ 32

def conntrackCleanup (s : State) : Option State :=
  (eachBucket (fun b s => cleanupLoop b s.known.length (s.heads b) s) conntrackBuckets s).map fun s =>
    { s with totalCount := recount s.counts conntrackBuckets }

/-- The loop of `conntrack_flush` over a bucket. -/
def flushLoop : ℕ → Option ℕ → State → Option State
  | _, none, s => some s
  | 0, some _, _ => none
  | n + 1, some a, s => (s.mem a).bind fun e => flushLoop n e.next (s.free a)

def conntrackFlush (s : State) : Option State :=
  (eachBucket (fun b s => (flushLoop s.known.length (s.heads b) s).map fun s => (s.setHead b none).setCount b 0)
    conntrackBuckets s).map fun s => { s with totalCount := 0 }

/-! ## Runs -/

inductive Call where
  | add (t : Tuple) (proto : UInt8) (addr : Option ℕ)
  | lookup (t : Tuple)
  | findGet (t : Tuple)
  | put (a : ℕ)
  | update (a : ℕ) (newState : UInt8) (timeout : ℕ)
  | cleanup
  | flush
  | wait (seconds : ℕ)

/-- What callers do: memory that is given out is not in use, a reference is put back by one who holds it, and an entry
is updated through a pointer to it. -/
def Allowed (s : State) : Call → Prop
  | .add _ _ (some a) => s.mem a = none
  | .put a => 0 < s.held a
  | .update a _ _ => s.mem a ≠ none
  | _ => True

def step (s : State) : Call → Option State
  | .add t proto addr => (conntrackAdd t proto addr s).map (·.2)
  | .lookup t => (conntrackLookup t s).map fun _ => s
  | .findGet t => (conntrackFindGet t s).map fun r =>
    match r.1 with
    | none => r.2
    | some a => { r.2 with held := Function.update r.2.held a (r.2.held a + 1) }
  | .put a => (conntrackPut a s).map fun s => { s with held := Function.update s.held a (s.held a - 1) }
  | .update a newState timeout => conntrackUpdate a newState timeout s
  | .cleanup => conntrackCleanup s
  | .flush => conntrackFlush s
  | .wait seconds => some { s with now := s.now + seconds }

/-- `conntrack_init`. -/
def start : State := ⟨fun _ => none, fun _ => 0, 0, fun _ => none, [], 0, fun _ => 0⟩

end Conntrack
