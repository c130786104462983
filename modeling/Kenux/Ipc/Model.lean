import Kenux.Lib.Memory
import Kenux.Lib.Run

/-!
# The message ring (`kernel/ipc.c`, `ipc_send` and `ipc_receive`)

Each call holds `ipc_buf_lock` from its first access to the ring to its last, so it is one step. What the calls
returned is kept in a history.
-/

namespace Ipc

open Memory

/-- `ipc_message_t`. -/
structure Message where
  source : ℕ
  destination : ℕ
  type : ℕ
  size : ℕ
  data : Mem

/-- `ipc_buffer`, `ipc_head`, `ipc_tail` and `ipc_count`. -/
structure Ring where
  buffer : ℕ → Message
  head : ℕ
  tail : ℕ
  count : ℕ

def ipcMaxMessages : ℕ := 64

def ipcMaxSize : ℕ := 256

/-- `(uint64_t)-1`, which stands for any source. -/
def anySource : ℕ := 2 ^ 64 - 1

/-- `ipc_init`. -/
def ipcInit : Ring := ⟨fun _ => ⟨0, 0, 0, 0, fun _ => 0⟩, 0, 0, 0⟩

/-- `memcpy(msg->data, data, size)`, if there are data. -/
def copyIn (old : Mem) (data : Option Mem) (size : ℕ) : Mem := fun o =>
  match data with
  | some d => if o < size then d o else old o
  | none => old o

/-- Whether the message was accepted. -/
def ipcSend (current destination type : ℕ) (data : Option Mem) (size : ℕ) (r : Ring) : Bool × Ring :=
  if size > ipcMaxSize then (false, r)
  else if r.count ≥ ipcMaxMessages then (false, r)
  else
    let msg : Message := ⟨current, destination, type, size, copyIn (r.buffer r.tail).data data size⟩
    (true, { r with
      buffer := Function.update r.buffer r.tail msg
      tail := (r.tail + 1) % ipcMaxMessages
      count := r.count + 1 })

/-- Which of the pointers `type` and `data` are given, and what `size` points to. -/
structure Pointers where
  type : Bool
  data : Bool
  size : Option ℕ

/-- What is stored through the pointers; `data` is the bytes copied and how many. -/
structure Reply where
  type : Option ℕ
  data : Option (Mem × ℕ)
  size : Option ℕ

def replyOf (msg : Message) (p : Pointers) : Reply :=
  let type := if p.type then some msg.type else none
  match p.size with
  | some room =>
    if p.data ∧ room > 0 then
      let copySize := if msg.size < room then msg.size else room
      ⟨type, some (msg.data, copySize), some copySize⟩
    else ⟨type, none, some msg.size⟩
  | none => ⟨type, none, none⟩

/-- The message is for the caller, and from the source it asks for. -/
def Matches (current source : ℕ) (msg : Message) : Prop :=
  msg.destination = current ∧ (source = anySource ∨ msg.source = source)

instance (current source : ℕ) (msg : Message) : Decidable (Matches current source msg) :=
  inferInstanceAs (Decidable (_ ∧ _))

/-- The `i`-th message from the head on. -/
def Ring.at (r : Ring) (i : ℕ) : Message := r.buffer ((r.head + i) % ipcMaxMessages)

/-- The first message from the `i`-th on that matches, among the next `n`. -/
def search (current source : ℕ) (r : Ring) : ℕ → ℕ → Option ℕ
  | _, 0 => none
  | i, n + 1 => if Matches current source (r.at i) then some i else search current source r (i + 1) n

def ipcReceive (current source : ℕ) (p : Pointers) (r : Ring) : Option Reply × Ring :=
  match search current source r 0 r.count with
  | some i =>
    let idx := (r.head + i) % ipcMaxMessages
    let tailIdx := (r.head + r.count - 1) % ipcMaxMessages
    let buffer := if idx ≠ tailIdx then Function.update r.buffer idx (r.buffer tailIdx) else r.buffer
    (some (replyOf (r.buffer idx) p), { r with buffer := buffer, count := r.count - 1 })
  | none => (none, r)

inductive Call where
  | send (current destination type : ℕ) (data : Option Mem) (size : ℕ)
  | receive (current source : ℕ) (p : Pointers)

/-- A call and what it returned. -/
inductive Event where
  | send (current destination type : ℕ) (data : Option Mem) (size : ℕ) (accepted : Bool)
  | receive (current source : ℕ) (p : Pointers) (reply : Option Reply)

structure State where
  ring : Ring
  events : List Event

def step (s : State) : Call → Option State
  | .send current destination type data size =>
    let r := ipcSend current destination type data size s.ring
    some ⟨r.2, s.events ++ [.send current destination type data size r.1]⟩
  | .receive current source p =>
    let r := ipcReceive current source p s.ring
    some ⟨r.2, s.events ++ [.receive current source p r.1]⟩

/-! ## What the calls are for -/

/-- The two messages have one source and one destination. -/
def SamePair (m m' : Message) : Prop := m.source = m'.source ∧ m.destination = m'.destination

instance (m m' : Message) : Decidable (SamePair m m') := inferInstanceAs (Decidable (_ ∧ _))

/-- The messages that are accepted and not delivered, in the order they were accepted, before and after a call. A
message is delivered before those of its source and destination that were accepted after it. -/
inductive Mailbox : List Message → Event → List Message → Prop where
  | accept {q : List Message} {current destination type : ℕ} {data : Option Mem} {size : ℕ} (bytes : Mem)
      (hsize : size ≤ ipcMaxSize) (hroom : q.length < ipcMaxMessages)
      (hbytes : ∀ d, data = some d → ∀ o < size, bytes o = d o) :
      Mailbox q (.send current destination type data size true)
        (q ++ [⟨current, destination, type, size, bytes⟩])
  | refuse {q : List Message} {current destination type : ℕ} {data : Option Mem} {size : ℕ}
      (h : ipcMaxSize < size ∨ ipcMaxMessages ≤ q.length) :
      Mailbox q (.send current destination type data size false) q
  | deliver {l₁ l₂ : List Message} {m : Message} {current source : ℕ} {p : Pointers}
      (hm : Matches current source m) (hfirst : ∀ m' ∈ l₁, ¬ SamePair m' m) :
      Mailbox (l₁ ++ m :: l₂) (.receive current source p (some (replyOf m p))) (l₁ ++ l₂)
  | nothing {q : List Message} {current source : ℕ} {p : Pointers} (h : ∀ m ∈ q, ¬ Matches current source m) :
      Mailbox q (.receive current source p none) q

/-- The history is one of the mailbox, which has the messages `q` at its end. -/
inductive History : List Event → List Message → Prop where
  | nil : History [] []
  | snoc {events : List Event} {e : Event} {q q' : List Message} (h : History events q) (he : Mailbox q e q') :
      History (events ++ [e]) q'

end Ipc

/-!
## Semaphore sets (`kernel/ipc.c`, `sem_op` and `sem_ctl`)

A process in `sem_op` gives up `sem_lock` while it waits; from one point at which it takes the lock to the next at
which it releases it, it makes one step.
-/

namespace Ipc.Sem

/-- `sem_set_t`: `nsems` and `values`. -/
structure SemSet where
  nsems : ℕ
  values : ℕ → ℤ

/-- `struct sembuf`; `nowait` is the flag `IPC_NOWAIT`. -/
structure Sembuf where
  num : ℕ
  op : ℤ
  nowait : Bool

/-- `sem_table` and `sem_count`. -/
structure Table where
  sets : ℕ → SemSet
  count : ℕ

def Table.setValues (t : Table) (id : ℕ) (values : ℕ → ℤ) : Table :=
  { t with sets := Function.update t.sets id { t.sets id with values := values } }

/-- A number stored as `int16_t`. -/
def int16 (v : ℤ) : ℤ := v.bmod (2 ^ 16)

/-- How the loop is left: the call returns 0 or -1, or it waits with these operations still to do. -/
inductive Outcome where
  | returns (ok : Bool)
  | waits (rest : List Sembuf)

/-- The loop of `sem_op` under the lock. -/
def loop (nsems : ℕ) : List Sembuf → (ℕ → ℤ) → (ℕ → ℤ) × Outcome
  | [], values => (values, .returns true)
  | o :: os, values =>
    if o.num ≥ nsems then (values, .returns false)
    else
      let val := values o.num + o.op
      if val < 0 then if o.nowait then (values, .returns false) else (values, .waits (o :: os))
      else loop nsems os (Function.update values o.num (int16 val))

/-- The commands of `sem_ctl`, with the argument that `arg` points to. -/
inductive Cmd where
  | remove
  | setval (semnum : ℕ) (arg : Option ℤ)
  | getval (semnum : ℕ) (arg : Bool)
  | getall (arg : Bool)
  | other

/-- The result, and what is stored through `arg`. -/
def semCtl (id : ℕ) (cmd : Cmd) (t : Table) : (ℤ × List ℤ) × Table :=
  if id ≥ t.count then ((-1, []), t)
  else
    let ss := t.sets id
    match cmd with
    | .remove => ((0, []), { t with sets := Function.update t.sets id ⟨0, fun _ => 0⟩ })
    | .setval semnum (some v) =>
      if semnum < ss.nsems then
        ((0, []), t.setValues id (Function.update ss.values semnum (int16 v)))
      else ((0, []), t)
    | .setval _ none => ((0, []), t)
    | .getval semnum arg => if arg ∧ semnum < ss.nsems then ((0, [ss.values semnum]), t) else ((0, []), t)
    | .getall arg => if arg then ((0, (List.range ss.nsems).map ss.values), t) else ((0, []), t)
    | .other => ((-1, []), t)

/-- A process that waits in `sem_op`. -/
structure Waiter where
  id : ℕ
  ops : List Sembuf
  rest : List Sembuf

inductive Call where
  | semOp (pid id : ℕ) (ops : List Sembuf)
  | resume (pid : ℕ)
  | semCtl (id : ℕ) (cmd : Cmd)

/-- What a step showed: a section of a call of `sem_op` and how it ended, or a call of `sem_ctl`. -/
inductive Event where
  | semOp (pid id : ℕ) (ops : List Sembuf) (ended : Option Bool)
  | semCtl (id : ℕ) (cmd : Cmd) (result : ℤ × List ℤ)

structure State where
  table : Table
  waiting : ℕ → Option Waiter
  events : List Event

/-- The operations `rest` of a call of `sem_op` with the array `ops`. -/
def underLock (pid id : ℕ) (ops rest : List Sembuf) (s : State) : State :=
  let ss := s.table.sets id
  let r := loop ss.nsems rest ss.values
  let table := s.table.setValues id r.1
  match r.2 with
  | .returns ok => ⟨table, Function.update s.waiting pid none, s.events ++ [.semOp pid id ops (some ok)]⟩
  | .waits rest =>
    ⟨table, Function.update s.waiting pid (some ⟨id, ops, rest⟩), s.events ++ [.semOp pid id ops none]⟩

/-- A process that waits makes no other call. -/
def step (s : State) : Call → Option State
  | .semOp pid id ops =>
    match s.waiting pid with
    | some _ => none
    | none =>
      if id ≥ s.table.count then some { s with events := s.events ++ [.semOp pid id ops (some false)] }
      else some (underLock pid id ops ops s)
  | .resume pid =>
    match s.waiting pid with
    | some w => some (underLock pid w.id w.ops w.rest s)
    | none => none
  | .semCtl id cmd =>
    let r := semCtl id cmd s.table
    some { s with table := r.2, events := s.events ++ [.semCtl id cmd r.1] }

/-! ## What the calls are for -/

/-- What the operations put to each value together. -/
def net : List Sembuf → ℕ → ℤ
  | [], _ => 0
  | o :: os, num => (if num = o.num then o.op else 0) + net os num

/-- Every value is between 0 and 32767. -/
def InRange (t : Table) : Prop := ∀ id num, 0 ≤ (t.sets id).values num ∧ (t.sets id).values num ≤ 32767

/-- A call of `sem_op` that returns 0 applies all its operations at that moment; one that returns -1, or waits,
changes nothing. -/
inductive Atomic : Table → Event → Table → Prop where
  | applied {t : Table} (pid id : ℕ) (ops : List Sembuf) :
      Atomic t (.semOp pid id ops (some true)) (t.setValues id fun num => (t.sets id).values num + net ops num)
  | failed {t : Table} (pid id : ℕ) (ops : List Sembuf) : Atomic t (.semOp pid id ops (some false)) t
  | waits {t : Table} (pid id : ℕ) (ops : List Sembuf) : Atomic t (.semOp pid id ops none) t
  | semCtl {t : Table} (id : ℕ) (cmd : Cmd) : Atomic t (.semCtl id cmd (semCtl id cmd t).1) (semCtl id cmd t).2

/-- The events are those of atomic calls from table `t` on, and all values are in range at each moment. -/
inductive History (t : Table) : List Event → Table → Prop where
  | start (h : InRange t) : History t [] t
  | snoc {events : List Event} {e : Event} {u u' : Table} (h : History t events u) (he : Atomic u e u')
      (hu : InRange u') : History t (events ++ [e]) u'

end Ipc.Sem

/-!
## Futexes (`kernel/ipc.c`, `futex_wait`, `futex_wake` and `futex_requeue`; `kernel/signal.c`, `signal_send`)

A section under `futex_lock` is one step, as is the comparison that `futex_wait` makes before it takes the lock. A
node has the address it was allocated at, and `kfree` is recorded. A process runs unless it sleeps or is dead.
-/

namespace Ipc.Futex

/-- `futex_waiter_t`. -/
structure Node where
  address : ℕ
  pid : ℕ
  uaddr : ℕ

inductive ProcState where
  | awake | sleeping | dead
  deriving DecidableEq

/-- Where a process is in `futex_wait`: it has compared the word, or gone to sleep with this node, having computed the
bucket `h`. -/
inductive Pc where
  | idle
  | compared (uaddr val : ℕ)
  | asleep (uaddr val waiter h : ℕ)

/-- A process. Of the word it waits on, whether it was changed away from the value since the comparison, and whether
after that all waiters were woken. -/
structure Process where
  state : ProcState
  pc : Pc
  changed : Bool
  missed : Bool

structure State where
  words : ℕ → ℕ
  queues : ℕ → List Node
  procs : ℕ → Process
  nextAddress : ℕ
  freed : List ℕ

def futexMaxQueues : ℕ := 128

def processMax : ℕ := 256

def intMax : ℕ := 2 ^ 31 - 1

def futexHash (uaddr : ℕ) : ℕ := uaddr / 16 % 2 ^ 32 % futexMaxQueues

/-- The word and the value of the call that the process is in. -/
def Pc.call : Pc → Option (ℕ × ℕ)
  | .idle => none
  | .compared uaddr val => some (uaddr, val)
  | .asleep uaddr val _ _ => some (uaddr, val)

/-- The nodes that stay in the bucket and those that are taken off it, `count` at most. -/
def wakeLoop (uaddr : ℕ) : ℕ → List Node → List Node × List Node
  | _, [] => ([], [])
  | 0, q => (q, [])
  | n + 1, x :: q =>
    if x.uaddr = uaddr then
      let r := wakeLoop uaddr n q
      (r.1, x :: r.2)
    else
      let r := wakeLoop uaddr (n + 1) q
      (x :: r.1, r.2)

/-- The process of a node that is taken off becomes ready if it sleeps. -/
def wakeProcess (x : Node) (procs : ℕ → Process) : ℕ → Process :=
  if x.pid < processMax ∧ (procs x.pid).state = .sleeping then
    Function.update procs x.pid { procs x.pid with state := .awake }
  else procs

/-- The first nodes of a bucket that wait on another word, and the rest. -/
def skipOthers (uaddr : ℕ) (q : List Node) : List Node × List Node := q.span fun x => x.uaddr ≠ uaddr

/-- The loop of `futex_requeue` within one bucket: `done` are the nodes in front of `pp`. A node that is moved comes
to the front of the bucket, which is where `pp` points if no node was passed. -/
def requeueWithin (uaddr uaddr2 : ℕ) : ℕ → List Node → List Node → List Node
  | 0, done, q => done ++ q
  | n + 1, done, q =>
    match skipOthers uaddr q with
    | (others, []) => done ++ others
    | (others, x :: q) =>
      let x := { x with uaddr := uaddr2 }
      if done ++ others = [] then requeueWithin uaddr uaddr2 n [] (x :: q)
      else requeueWithin uaddr uaddr2 n (x :: done ++ others) q

/-- The loop between two buckets. -/
def requeueInto (uaddr uaddr2 : ℕ) : ℕ → List Node → List Node → List Node × List Node
  | 0, q, q2 => (q, q2)
  | n + 1, q, q2 =>
    match skipOthers uaddr q with
    | (others, []) => (others, q2)
    | (others, x :: q) =>
      let r := requeueInto uaddr uaddr2 n q ({ x with uaddr := uaddr2 } :: q2)
      (others ++ r.1, r.2)

/-- Removes the node with the address, if there is one. -/
def unlink (waiter : ℕ) (q : List Node) : List Node := q.eraseP fun x => x.address = waiter

inductive Call where
  | write (uaddr v : ℕ)
  | compare (pid uaddr val : ℕ)
  | enqueue (pid : ℕ) (alloc : Bool)
  | resume (pid : ℕ)
  | wake (uaddr count : ℕ)
  | requeue (uaddr uaddr2 count : ℕ)
  | signal (pid : ℕ) (kill : Bool)

/-- A store to a word, seen by the calls that wait for it to change. -/
def write (uaddr v : ℕ) (s : State) : State :=
  { s with
    words := Function.update s.words uaddr v
    procs := fun p =>
      match (s.procs p).pc.call with
      | some (u, val) => if u = uaddr ∧ v ≠ val then { s.procs p with changed := true } else s.procs p
      | none => s.procs p }

/-- All waiters of a word are woken: a call on it whose word was changed should not sleep any more. -/
def markMissed (uaddr count : ℕ) (procs : ℕ → Process) : ℕ → Process := fun p =>
  match (procs p).pc.call with
  | some (u, _) => if u = uaddr ∧ intMax ≤ count ∧ (procs p).changed then { procs p with missed := true } else procs p
  | none => procs p

def futexWake (uaddr count : ℕ) (s : State) : State :=
  if count = 0 then s
  else
    let h := futexHash uaddr
    let r := wakeLoop uaddr count (s.queues h)
    { s with
      queues := Function.update s.queues h r.1
      procs := r.2.foldl (fun procs x => wakeProcess x procs) (markMissed uaddr count s.procs)
      freed := s.freed ++ r.2.map fun x => x.address }

def futexRequeue (uaddr uaddr2 count : ℕ) (s : State) : State :=
  let h1 := futexHash uaddr
  let h2 := futexHash uaddr2
  if h1 = h2 then
    { s with queues := Function.update s.queues h1 (requeueWithin uaddr uaddr2 count [] (s.queues h1)) }
  else
    let r := requeueInto uaddr uaddr2 count (s.queues h1) (s.queues h2)
    { s with queues := Function.update (Function.update s.queues h1 r.1) h2 r.2 }

/-- The part of `futex_wait` that puts the process to sleep; without memory for the node it returns. -/
def enqueue (pid uaddr val : ℕ) (alloc : Bool) (s : State) : State :=
  if alloc then
    let h := futexHash uaddr
    { s with
      queues := Function.update s.queues h (⟨s.nextAddress, pid, uaddr⟩ :: s.queues h)
      procs := Function.update s.procs pid
        { s.procs pid with state := .sleeping, pc := .asleep uaddr val s.nextAddress h }
      nextAddress := s.nextAddress + 1 }
  else { s with procs := Function.update s.procs pid { s.procs pid with pc := .idle } }

/-- The part of `futex_wait` after `process_yield`. -/
def resume (pid waiter h : ℕ) (s : State) : State :=
  { s with
    queues := Function.update s.queues h (unlink waiter (s.queues h))
    procs := Function.update s.procs pid { s.procs pid with pc := .idle }
    freed := s.freed ++ [waiter] }

/-- What `signal_send` does to the target's state. -/
def signalSend (pid : ℕ) (kill : Bool) (s : State) : State :=
  if (s.procs pid).state = .dead then s
  else if kill then { s with procs := Function.update s.procs pid { s.procs pid with state := .dead } }
  else if (s.procs pid).state = .sleeping then
    { s with procs := Function.update s.procs pid { s.procs pid with state := .awake } }
  else s

/-- A process takes a step only while it is awake. -/
def step (s : State) : Call → Option State
  | .write uaddr v => some (write uaddr v s)
  | .compare pid uaddr val =>
    match (s.procs pid).state, (s.procs pid).pc with
    | .awake, .idle =>
      if pid < processMax then
        if s.words uaddr = val then
          some { s with procs := Function.update s.procs pid ⟨.awake, .compared uaddr val, false, false⟩ }
        else some s
      else none
    | _, _ => none
  | .enqueue pid alloc =>
    match (s.procs pid).state, (s.procs pid).pc with
    | .awake, .compared uaddr val => some (enqueue pid uaddr val alloc s)
    | _, _ => none
  | .resume pid =>
    match (s.procs pid).state, (s.procs pid).pc with
    | .awake, .asleep _ _ waiter h => some (resume pid waiter h s)
    | _, _ => none
  | .wake uaddr count => some (futexWake uaddr count s)
  | .requeue uaddr uaddr2 count => some (futexRequeue uaddr uaddr2 count s)
  | .signal pid kill => some (signalSend pid kill s)

/-- No process is in a call and no queue has a node. -/
def start : State := ⟨fun _ => 0, fun _ => [], fun _ => ⟨.awake, .idle, false, false⟩, 1, []⟩

end Ipc.Futex
