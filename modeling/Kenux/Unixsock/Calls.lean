import Kenux.Fifo.Pipe
import Kenux.Lib.Threads

/-!
# Sequences of calls on sockets (`kernel/unixsock.c`)

Here a call runs until it returns or waits in `wait_queue_wait`; one that waits goes on later, after any other calls. A
program faults when it follows a pointer to no socket, and hangs when it takes a lock that is held: nobody else runs
meanwhile. The lock of the table of sockets is left out: no call keeps it.
-/

/-!
## Unix sockets: the data (`kernel/unixsock.c`)

A pending list is the list of its clients. Reference counts stay below the number of sockets and threads, far from
2^32, and are numbers.
-/

namespace Unixsock

open Fifo

def unixSockMax : ℕ := 128

def unixSockPathMax : ℕ := 108

def unixSockBacklogMax : ℕ := 16

def unixSockRecvBuf : ℕ := 4096

inductive SockType where
  | stream
  | dgram
  deriving DecidableEq

inductive SockState where
  | unconnected
  | listening
  | connected
  | connecting
  | closed
  deriving DecidableEq

/-- The flags `UNIX_SOCK_SHUT_RD`, `UNIX_SOCK_SHUT_WR` and `UNIX_SOCK_PEER_CLOSED`. -/
structure Flags where
  shutRd : Bool
  shutWr : Bool
  peerClosed : Bool

/-- `unix_sock_t`, without the send buffer that nothing uses; `bound` is the path that the socket is bound to. -/
structure Sock where
  type : SockType
  state : SockState
  bound : Option (List UInt8)
  peer : Option ℕ
  recv : Ring
  readWaiters : List ℕ
  writeWaiters : List ℕ
  connectWaiters : List ℕ
  refCount : ℕ
  pending : List ℕ
  pendingCount : ℕ
  backlog : ℕ
  flags : Flags

/-- The sockets by their addresses, and `g_unix_sockets`. -/
structure Sockets where
  sock : ℕ → Option Sock
  table : ℕ → Option ℕ

def Sockets.set (x : Sockets) (a : ℕ) (k : Sock) : Sockets := { x with sock := Function.update x.sock a (some k) }

/-- `kfree`. -/
def Sockets.free (x : Sockets) (a : ℕ) : Sockets := { x with sock := Function.update x.sock a none }

/-- Whether the socket is bound to the path, as `strncmp` with `UNIX_SOCK_PATH_MAX` says. -/
def Sock.boundTo (k : Sock) (path : List UInt8) : Bool :=
  match k.bound with
  | none => false
  | some b => b = path.take unixSockPathMax

/-- `find_bound_socket`. -/
def findBoundSocket (path : List UInt8) (x : Sockets) : Option ℕ :=
  (List.range unixSockMax).findSome? fun i =>
    match x.table i with
    | none => none
    | some a =>
      match x.sock a with
      | none => none
      | some k => if k.boundTo path then some a else none

/-- `register_socket`; `none` when the table is full. -/
def registerSocket (a : ℕ) (x : Sockets) : Option Sockets :=
  ((List.range unixSockMax).find? fun i => (x.table i).isNone).map fun i =>
    { x with table := Function.update x.table i (some a) }

/-- `unregister_socket`. -/
def unregisterSocket (a : ℕ) (x : Sockets) : Sockets :=
  match (List.range unixSockMax).find? fun i => x.table i = some a with
  | none => x
  | some i => { x with table := Function.update x.table i none }

/-- `ring_write`: the ring after, and how many bytes went in. -/
def ringWrite (r : Ring) (data : List UInt8) : Ring × ℕ :=
  let space := unixSockRecvBuf - r.bytes
  let count := min data.length space
  if count = 0 then (r, 0)
  else
    let r := r.copyIn unixSockRecvBuf (data.take count)
    ({ r with writePos := advance unixSockRecvBuf r.writePos count, bytes := r.bytes + count }, count)

/-- `ring_read`: the ring after, and the bytes that came out. -/
def ringRead (r : Ring) (count : ℕ) : Ring × List UInt8 :=
  let count := min count r.bytes
  if count = 0 then (r, [])
  else
    ({ r with readPos := advance unixSockRecvBuf r.readPos count, bytes := r.bytes - count },
      r.copyOut unixSockRecvBuf count)

/-- What `unix_socket_create` puts into a new socket. -/
def newSock (type : SockType) : Sock :=
  ⟨type, .unconnected, none, none, ⟨fun _ => 0, 0, 0, 0⟩, [], [], [], 1, [], 0, 0, ⟨false, false, false⟩⟩

/-- Two sockets become each other's peers. -/
def joinPeers (new client : ℕ) (n c : Sock) (x : Sockets) : Sockets :=
  (x.set new { n with peer := some client, state := .connected, refCount := n.refCount + 1 }).set client
    { c with peer := some new, state := .connected, refCount := c.refCount + 1 }

end Unixsock

namespace Unixsock.Life

open Fifo (waitQueueAdd waitQueueWakeOne waitQueueWakeAll remaining)
open Programs

/-- Where a call waits. -/
inductive Wait where
  | accept (l : ℕ)
  | connect (s v : ℕ)
  | send (s v : ℕ) (buf : List UInt8) (written : ℕ)
  | recv (s n : ℕ)

/-- The sockets, the processes in `PROCESS_WAITING`, the locks that are held, the calls that wait, and the sockets that
were created and not closed. -/
structure State where
  unix : Sockets
  waiting : ℕ → Bool
  locked : ℕ → Bool
  calls : ℕ → Option Wait
  owned : ℕ → Bool

/-- What a call returns. -/
inductive Ret where
  | int (v : ℤ)
  | sock (a : Option ℕ)
  | waits

abbrev M := Program State

def State.setSock (s : State) (a : ℕ) (k : Sock) : State := { s with unix := s.unix.set a k }

def fault {α : Type} : M α := fun _ => .fault

def getSock (a : ℕ) : M Sock := fun s =>
  match s.unix.sock a with
  | none => .fault
  | some k => .ok (k, s)

def modify (a : ℕ) (f : Sock → Sock) : M Unit := fun s =>
  match s.unix.sock a with
  | none => .fault
  | some k => .ok ((), s.setSock a (f k))

/-- `spin_lock(&sock->lock)`. -/
def lock (a : ℕ) : M Unit := fun s =>
  match s.unix.sock a with
  | none => .fault
  | some _ => if s.locked a then .hang else .ok ((), { s with locked := Function.update s.locked a true })

/-- `spin_unlock(&sock->lock)`. -/
def unlock (a : ℕ) : M Unit := fun s =>
  match s.unix.sock a with
  | none => .fault
  | some _ => .ok ((), { s with locked := Function.update s.locked a false })

inductive Queue where
  | read
  | write
  | connect

def Sock.queue (k : Sock) : Queue → List ℕ
  | .read => k.readWaiters
  | .write => k.writeWaiters
  | .connect => k.connectWaiters

def Sock.setQueue (k : Sock) (q : Queue) (l : List ℕ) : Sock :=
  match q with
  | .read => { k with readWaiters := l }
  | .write => { k with writeWaiters := l }
  | .connect => { k with connectWaiters := l }

def onQueue (a : ℕ) (q : Queue) (f : List ℕ → (ℕ → Bool) → List ℕ × (ℕ → Bool)) : M Unit := fun s =>
  match s.unix.sock a with
  | none => .fault
  | some k =>
    let r := f (Sock.queue k q) s.waiting
    .ok ((), { s.setSock a (Sock.setQueue k q r.1) with waiting := r.2 })

def wakeOne (a : ℕ) (q : Queue) : M Unit := onQueue a q waitQueueWakeOne

def wakeAll (a : ℕ) (q : Queue) : M Unit := onQueue a q waitQueueWakeAll

/-- `if (p) wait_queue_wake_all(..);` -/
def wakeAllIf (p : Prop) [Decidable p] (a : ℕ) (q : Queue) : M Unit := if p then wakeAll a q else pure ()

def setCall (t : ℕ) (w : Option Wait) : M Unit := fun s => .ok ((), { s with calls := Function.update s.calls t w })

def setOwned (a : ℕ) (b : Bool) : M Unit := fun s => .ok ((), { s with owned := Function.update s.owned a b })

/-- `wait_queue_wait` on a queue of socket `a` with its lock; the caller goes on as `w` says. -/
def waitOn (t a : ℕ) (q : Queue) (w : Wait) : M Ret := do
  onQueue a q (waitQueueAdd t)
  unlock a
  setCall t (some w)
  pure .waits

/-- What a program does with the sockets and their table. -/
def onSockets {α : Type} (f : Sockets → α × Sockets) : M α := fun s =>
  let r := f s.unix
  .ok (r.1, { s with unix := r.2 })

/-! ## The calls -/

/-- `unix_socket_create`; `addr` is what `kmalloc` returns. -/
def unixSocketCreate (type : SockType) (addr : Option ℕ) : M (Option ℕ) :=
  match addr with
  | none => pure none
  | some a => do
    onSockets fun x => ((), x.set a (newSock type))
    let registered ← onSockets fun x =>
      match registerSocket a x with
      | none => (false, x)
      | some y => (true, y)
    if registered then do
      setOwned a true
      pure (some a)
    else do
      onSockets fun x => ((), x.free a)
      pure none

def unixSocketBind (s : ℕ) (path : List UInt8) : M Ret := do
  let k ← getSock s
  match k.bound with
  | some _ => pure (.int (-1))
  | none => do
    let found ← onSockets fun x => (findBoundSocket path x, x)
    match found with
    | some _ => pure (.int (-1))
    | none => do
      modify s fun k => { k with bound := some (path.take (unixSockPathMax - 1)) }
      pure (.int 0)

def unixSocketListen (s : ℕ) (backlog : ℤ) : M Ret := do
  let k ← getSock s
  if k.type ≠ .stream then pure (.int (-1))
  else
    match k.bound with
    | none => pure (.int (-1))
    | some _ => do
      lock s
      modify s fun k => { k with
        backlog := if backlog ≤ 0 ∨ backlog > unixSockBacklogMax then unixSockBacklogMax else backlog.toNat
        pending := []
        pendingCount := 0
        state := .listening }
      unlock s
      pure (.int 0)

/-- The new socket `a` and the client `c` become each other's peers. -/
def joinClient (a c : ℕ) : M Unit := do
  lock a
  lock c
  modify a fun k => { k with peer := some c, state := .connected }
  modify c fun k => { k with peer := some a, state := .connected, refCount := k.refCount + 1 }
  modify a fun k => { k with refCount := k.refCount + 1 }
  unlock c
  unlock a

/-- `unix_socket_accept` from its loop on. -/
def acceptLoop (t l : ℕ) (addr : Option ℕ) : M Ret := do
  let k ← getSock l
  match k.pending with
  | [] =>
    if k.state = .closed then do
      unlock l
      pure (.sock none)
    else waitOn t l .connect (.accept l)
  | c :: rest => do
    modify l fun k => { k with pending := rest, pendingCount := (k.pendingCount + 2 ^ 32 - 1) % 2 ^ 32 }
    unlock l
    let new ← unixSocketCreate .stream addr
    match new with
    | none => pure (.sock none)
    | some a => do
      joinClient a c
      pure (.sock (some a))

def unixSocketAccept (t l : ℕ) (addr : Option ℕ) : M Ret := do
  lock l
  let k ← getSock l
  if k.state ≠ .listening then do
    unlock l
    pure (.sock none)
  else acceptLoop t l addr

/-- Finds the socket that is bound to a path, and takes a reference to it. -/
def findAndRef (path : List UInt8) : M (Option ℕ) := do
  let found ← onSockets fun x => (findBoundSocket path x, x)
  match found with
  | none => pure none
  | some v => do
    modify v fun k => { k with refCount := k.refCount + 1 }
    pure (some v)

def dropRef (v : ℕ) : M Unit := modify v fun k => { k with refCount := k.refCount - 1 }

/-- The loop of `unix_socket_connect` and what comes after. -/
def connectLoop (t s v : ℕ) : M Ret := do
  let k ← getSock s
  if k.state = .connecting then
    if k.flags.peerClosed then do
      unlock s
      pure (.int (-1))
    else waitOn t s .connect (.connect s v)
  else do
    unlock s
    dropRef v
    let k ← getSock s
    pure (.int (if k.state = .connected then 0 else -1))

/-- `unix_socket_connect` to the stream socket `v`; `alloc` says whether `kmalloc` gives a node. -/
def connectStream (t s v : ℕ) (alloc : Bool) : M Ret := do
  lock v
  let server ← getSock v
  if server.state ≠ .listening ∨ server.pendingCount ≥ server.backlog ∨ alloc = false then do
    unlock v
    dropRef v
    pure (.int (-1))
  else do
    modify v fun k => { k with pending := k.pending ++ [s], pendingCount := (k.pendingCount + 1) % 2 ^ 32 }
    modify s fun k => { k with state := .connecting }
    wakeOne v .connect
    unlock v
    lock s
    connectLoop t s v

def unixSocketConnect (t s : ℕ) (path : List UInt8) (alloc : Bool) : M Ret := do
  let k ← getSock s
  let found ← findAndRef path
  match found with
  | none => pure (.int (-1))
  | some v => do
    let server ← getSock v
    if server.type ≠ k.type then pure (.int (-1))
    else
      match k.type with
      | .stream => connectStream t s v alloc
      | .dgram => do
        lock s
        modify s fun k => { k with peer := some v, state := .connected }
        unlock s
        pure (.int 0)

/-- The loop of `unix_socket_send`; every round but the last fills the ring, or ends the data. -/
def sendLoop (t s v : ℕ) (buf : List UInt8) : ℕ → ℕ → M Ret
  | 0, _ => fun _ => .hang
  | rounds + 1, written =>
    if remaining buf written = 0 then pure (.int written)
    else do
      lock v
      let k ← getSock v
      if k.flags.peerClosed ∨ k.flags.shutRd then do
        unlock v
        lock s
        modify s fun k => { k with flags := { k.flags with peerClosed := true } }
        unlock s
        pure (.int (if written > 0 then written else -1))
      else if unixSockRecvBuf - k.recv.bytes = 0 then waitOn t v .read (.send s v buf written)
      else do
        let r := ringWrite k.recv ((buf.drop written).take (remaining buf written))
        modify v fun k => { k with recv := r.1 }
        wakeAllIf (k.recv.bytes = 0 ∧ r.2 > 0) v .read
        unlock v
        sendLoop t s v buf rounds (written + r.2)

/-- Puts a datagram into the ring of `v`, whose lock is held, if there is room. -/
def putDgram (v : ℕ) (buf : List UInt8) : M Bool := do
  let k ← getSock v
  if unixSockRecvBuf - k.recv.bytes < buf.length % 2 ^ 32 then pure false
  else do
    modify v fun k => { k with recv := (ringWrite k.recv (buf.take (buf.length % 2 ^ 32))).1 }
    wakeAllIf (k.recv.bytes = 0) v .read
    pure true

def unixSocketSend (t s : ℕ) (buf : List UInt8) : M Ret := do
  let k ← getSock s
  match k.peer with
  | none => pure (.int (-1))
  | some v =>
    if buf = [] ∨ k.flags.shutWr then pure (.int (-1))
    else
      match k.type with
      | .stream => sendLoop t s v buf (buf.length + 1) 0
      | .dgram => do
        lock v
        let sent ← putDgram v buf
        unlock v
        pure (.int (if sent then buf.length else -1))

/-- The loop of `unix_socket_recv` and what comes after. -/
def recvLoop (t s n : ℕ) : M Ret := do
  let k ← getSock s
  if k.recv.bytes = 0 then
    if k.flags.peerClosed then do
      unlock s
      pure (.int 0)
    else waitOn t s .read (.recv s n)
  else do
    let r := ringRead k.recv (n % 2 ^ 32)
    modify s fun k => { k with recv := r.1 }
    wakeAllIf (r.2.length > 0) s .write
    unlock s
    pure (.int r.2.length)

def unixSocketRecv (t s n : ℕ) : M Ret := do
  let k ← getSock s
  if n = 0 ∨ k.flags.shutRd then pure (.int (-1))
  else do
    lock s
    recvLoop t s n

def unixSocketSendto (s : ℕ) (buf path : List UInt8) : M Ret := do
  let k ← getSock s
  if buf = [] ∨ k.type ≠ .dgram then pure (.int (-1))
  else do
    let found ← findAndRef path
    match found with
    | none => pure (.int (-1))
    | some v => do
      lock v
      let sent ← putDgram v buf
      unlock v
      dropRef v
      pure (.int (if sent then buf.length else -1))

/-- The part of `unix_socket_shutdown` for the peer. -/
def shutPeer : Option ℕ → M Unit
  | none => pure ()
  | some v => do
    lock v
    modify v fun k => { k with flags := { k.flags with peerClosed := true } }
    wakeAll v .read
    wakeAll v .write
    unlock v

/-- `rd` and `wr` are the flags of `how`. -/
def unixSocketShutdown (s : ℕ) (rd wr : Bool) : M Ret := do
  lock s
  modify s fun k => { k with flags := { k.flags with shutRd := k.flags.shutRd || rd, shutWr := k.flags.shutWr || wr } }
  let k ← getSock s
  shutPeer k.peer
  wakeAll s .read
  wakeAll s .write
  unlock s
  pure (.int 0)

/-- The part of `unix_socket_close` for the peer: the last `spin_unlock` is of `sock->peer->lock`, with
`sock->peer` set to `NULL` right before. -/
def closePeer (s : ℕ) : Option ℕ → M Unit
  | none => pure ()
  | some v => do
    lock v
    modify v fun k => { k with flags := { k.flags with peerClosed := true } }
    wakeAll v .read
    wakeAll v .write
    modify v fun k => { k with
      refCount := k.refCount - 1
      state := if k.refCount - 1 = 0 then .closed else k.state }
    modify s fun k => { k with peer := none }
    fault

/-- The pending clients of a socket that is closed. -/
def closePending : List ℕ → M Unit
  | [] => pure ()
  | c :: rest => do
    lock c
    modify c fun k => { k with state := .unconnected, flags := { k.flags with peerClosed := true } }
    wakeAll c .connect
    unlock c
    closePending rest

/-- `kfree` after the last reference. -/
def freeLast (s : ℕ) : M Unit := do
  let k ← getSock s
  if k.refCount = 0 then onSockets fun x => ((), x.free s) else pure ()

def unixSocketClose (s : ℕ) : M Ret := do
  lock s
  modify s fun k => { k with state := .closed }
  let k ← getSock s
  closePeer s k.peer
  wakeAll s .read
  wakeAll s .write
  wakeAll s .connect
  let k ← getSock s
  closePending k.pending
  modify s fun k => { k with pending := [], pendingCount := 0 }
  unlock s
  onSockets fun x => ((), unregisterSocket s x)
  dropRef s
  setOwned s false
  freeLast s
  pure (.int 0)

/-! ## Sequences -/

inductive Call where
  | create (type : SockType) (addr : Option ℕ)
  | bind (s : ℕ) (path : List UInt8)
  | listen (s : ℕ) (backlog : ℤ)
  | accept (t l : ℕ) (addr : Option ℕ)
  | connect (t s : ℕ) (path : List UInt8) (alloc : Bool)
  | send (t s : ℕ) (buf : List UInt8)
  | recv (t s n : ℕ)
  | sendto (s : ℕ) (buf path : List UInt8)
  | shutdown (s : ℕ) (rd wr : Bool)
  | close (s : ℕ)
  | resume (t : ℕ) (addr : Option ℕ)

/-- A call that waits goes on. -/
def resume (t : ℕ) (addr : Option ℕ) : Wait → M Ret
  | .accept l => acceptLoop t l addr
  | .connect s v => connectLoop t s v
  | .send s v buf written => sendLoop t s v buf (buf.length + 1) written
  | .recv s n => recvLoop t s n

def program : Call → M Ret
  | .create type addr => do
    let a ← unixSocketCreate type addr
    pure (.sock a)
  | .bind s path => unixSocketBind s path
  | .listen s backlog => unixSocketListen s backlog
  | .accept t l addr => unixSocketAccept t l addr
  | .connect t s path alloc => unixSocketConnect t s path alloc
  | .send t s buf => unixSocketSend t s buf
  | .recv t s n => unixSocketRecv t s n
  | .sendto s buf path => unixSocketSendto s buf path
  | .shutdown s rd wr => unixSocketShutdown s rd wr
  | .close s => unixSocketClose s
  | .resume t addr => fun s =>
    match s.calls t with
    | none => .ok (.int 0, s)
    | some w => (setCall t none >>= fun _ => resume t addr w) s

/-- What callers do: a socket is used until it is closed, a process that waits makes no call, one that goes on waited,
and memory that is given out is not in use. -/
def Allowed (s : State) : Call → Prop
  | .create _ addr => ∀ a, addr = some a → s.unix.sock a = none
  | .bind a _ | .listen a _ | .sendto a _ _ | .shutdown a _ _ | .close a => s.owned a = true
  | .accept t l addr => s.calls t = none ∧ s.owned l = true ∧ ∀ a, addr = some a → s.unix.sock a = none
  | .connect t a _ _ | .send t a _ | .recv t a _ => s.calls t = none ∧ s.owned a = true
  | .resume t addr => s.calls t ≠ none ∧ ∀ a, addr = some a → s.unix.sock a = none

def step (s : State) (c : Call) : Option State := (program c s).state

/-- No sockets. -/
def start : State := ⟨⟨fun _ => none, fun _ => none⟩, fun _ => false, fun _ => false, fun _ => none, fun _ => false⟩

end Unixsock.Life
