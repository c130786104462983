import Kenux.Unixsock.Calls

/-!
# Threads on pipes and sockets

The code of `kernel/fifo.c` and of `unix_socket_accept`, `unix_socket_connect`, `unix_socket_send` and
`unix_socket_recv` in `kernel/unixsock.c`, for threads that take turns in any order. What `spin_lock` protects are the
fields of a pipe, and of a socket its ring, its pending list and `state`. `process_yield` may come back at any time: it
does so at once when no other process is ready.
-/

namespace Unixsock

open Fifo (Ring waitQueueAdd waitQueueWakeOne waitQueueWakeAll)

inductive Lock where
  | table
  | pipe (p : ℕ)
  | sock (a : ℕ)
  deriving DecidableEq

structure Kernel where
  waiting : ℕ → Bool
  pipe : ℕ → Option Fifo.Pipe
  unix : Sockets

/-- The places in the code of the sockets. `l` listens, `s` is the socket of the caller, `v` the one that was found for
a path, `c` a client and `a` a new socket. -/
inductive SockPc where
  | acceptEnter (l : ℕ)
  | acceptCheck (l : ℕ)
  | acceptTop (l : ℕ)
  | acceptQueue (l : ℕ)
  | acceptDrop (l : ℕ)
  | acceptAsleep (l : ℕ)
  | acceptFail (l : ℕ)
  | acceptUnlock (l c : ℕ)
  | acceptCreate (c : ℕ)
  | createTable (a c : ℕ)
  | createRegister (a c : ℕ)
  | createUnlock (a c : ℕ)
  | createFull (a : ℕ)
  | createFree (a : ℕ)
  | acceptLockNew (a c : ℕ)
  | acceptLockClient (a c : ℕ)
  | acceptJoin (a c : ℕ)
  | acceptUnlockClient (a c : ℕ)
  | acceptUnlockNew (a : ℕ)
  | connectEnter (s : ℕ) (path : List UInt8)
  | connectFind (s : ℕ) (path : List UInt8)
  | connectFound (s : ℕ) (v : Option ℕ)
  | connectType (s : ℕ) (v : Option ℕ)
  | connectLock (s v : ℕ)
  | connectCheck (s v : ℕ)
  | connectRefuse (v : ℕ)
  | connectDrop (v : ℕ)
  | connectSet (s v : ℕ)
  | connectWake (s v : ℕ)
  | connectUnlock (s v : ℕ)
  | connectLockSelf (s v : ℕ)
  | connectTop (s v : ℕ)
  | connectQueue (s v : ℕ)
  | connectWait (s v : ℕ)
  | connectAsleep (s v : ℕ)
  | connectGone (s : ℕ)
  | connectUnlockSelf (s v : ℕ)
  | connectEnd (s v : ℕ)
  | dgramLock (s v : ℕ)
  | dgramJoin (s v : ℕ)
  | dgramUnlock (s : ℕ)
  | sendEnter (s : ℕ) (buf : List UInt8)
  | sendTop (s v : ℕ) (buf : List UInt8) (written : ℕ)
  | sendCheck (s v : ℕ) (buf : List UInt8) (written : ℕ)
  | sendQueue (s v : ℕ) (buf : List UInt8) (written : ℕ)
  | sendDrop (s v : ℕ) (buf : List UInt8) (written : ℕ)
  | sendAsleep (s v : ℕ) (buf : List UInt8) (written : ℕ)
  | sendUnlock (s v : ℕ) (buf : List UInt8) (written : ℕ)
  | sendGone (s v written : ℕ)
  | sendGoneLock (s written : ℕ)
  | sendGoneSet (s written : ℕ)
  | sendGoneUnlock (s written : ℕ)
  | dsendLock (v : ℕ) (buf : List UInt8)
  | dsendCheck (v : ℕ) (buf : List UInt8)
  | dsendUnlock (v : ℕ) (result : ℤ)
  | recvEnter (s n : ℕ)
  | recvLock (s n : ℕ)
  | recvTop (s n : ℕ)
  | recvQueue (s n : ℕ)
  | recvDrop (s n : ℕ)
  | recvAsleep (s n : ℕ)
  | recvUnlock (s : ℕ) (result : ℤ)
  | ret (result : ℤ)

inductive Pc where
  | fifo (c : Fifo.Pc)
  | unix (c : SockPc)

abbrev Instr := Threads.Instr Lock Kernel (Option ℕ) Pc

/-- What a thread does to a pipe. -/
def onPipe (p : ℕ) (f : (ℕ → Bool) → Fifo.Pipe → Fifo.Result) : Option ℕ → Kernel → Option (Kernel × Pc) := fun _ k =>
  match k.pipe p with
  | none => none
  | some x =>
    let r := f k.waiting x
    some ({ k with waiting := r.1, pipe := Function.update k.pipe p r.2.1 }, .fifo r.2.2)

def fifoInstr (t : ℕ) : Fifo.Pc → Instr
  | .readEnter p n => .acquire (.pipe p) (.fifo (.readTop p n []))
  | .readTop p n got => .act [.pipe p] (onPipe p (Fifo.readTop p n got))
  | .readQueue p n got => .act [] (onPipe p (Fifo.readQueue t p n got))
  | .readDrop p n got => .release (.pipe p) (.fifo (.readAsleep p n got))
  | .readAsleep p n got => .act [.pipe p] (onPipe p (Fifo.readTop p n got))
  | .readCopy p n got => .act [.pipe p] (onPipe p (Fifo.readCopy p n got))
  | .readAdvance p n got chunk => .act [.pipe p] (onPipe p (Fifo.readAdvance p n got chunk))
  | .readUnlock p got => .release (.pipe p) (.fifo (.ret got.length))
  | .writeEnter p buf => .acquire (.pipe p) (.fifo (.writeTop p buf 0))
  | .writeTop p buf done => .act [.pipe p] (onPipe p (Fifo.writeTop p buf done))
  | .writeQueue p buf done => .act [] (onPipe p (Fifo.writeQueue t p buf done))
  | .writeDrop p buf done => .release (.pipe p) (.fifo (.writeAsleep p buf done))
  | .writeAsleep p buf done => .act [.pipe p] (onPipe p (Fifo.writeTop p buf done))
  | .writeCopy p buf done => .act [.pipe p] (onPipe p (Fifo.writeCopy p buf done))
  | .writeAdvance p buf done n => .act [.pipe p] (onPipe p (Fifo.writeAdvance p buf done n))
  | .writeUnlock p _ done closed => .release (.pipe p) (.fifo (.ret (Fifo.writeResult done closed)))
  | .closeEnter p e => .acquire (.pipe p) (.fifo (.closeFlag p e))
  | .closeFlag p e => .act [.pipe p] (onPipe p (Fifo.closeFlag p e))
  | .closeUnlock p e => .release (.pipe p) (.fifo (.closeDrop p e))
  | .closeDrop p _ => .act [] (onPipe p Fifo.closeDrop)
  | .ret _ => .act [] fun _ _ => none

/-- What a thread does to a socket. -/
def onSock (a : ℕ) (f : (ℕ → Bool) → Sock → (ℕ → Bool) × Sock × SockPc) : Option ℕ → Kernel → Option (Kernel × Pc) :=
  fun _ k =>
    match k.unix.sock a with
    | none => none
    | some x =>
      let r := f k.waiting x
      some ({ k with waiting := r.1, unix := k.unix.set a r.2.1 }, .unix r.2.2)

/-- What a thread does to the sockets and their table, with the result of `kmalloc` if it is called. -/
def onSockets (f : Option ℕ → Sockets → Option (Sockets × SockPc)) : Option ℕ → Kernel → Option (Kernel × Pc) :=
  fun i k => (f i k.unix).map fun r => ({ k with unix := r.1 }, .unix r.2)

/-! ## `unix_socket_accept` -/

def acceptCheck (l : ℕ) (waiting : ℕ → Bool) (x : Sock) : (ℕ → Bool) × Sock × SockPc :=
  (waiting, x, if x.state ≠ .listening then .acceptFail l else .acceptTop l)

def acceptTop (l : ℕ) (waiting : ℕ → Bool) (x : Sock) : (ℕ → Bool) × Sock × SockPc :=
  match x.pending with
  | [] => (waiting, x, if x.state = .closed then .acceptFail l else .acceptQueue l)
  | c :: rest =>
    (waiting, { x with pending := rest, pendingCount := (x.pendingCount + 2 ^ 32 - 1) % 2 ^ 32 }, .acceptUnlock l c)

def acceptQueue (t l : ℕ) (waiting : ℕ → Bool) (x : Sock) : (ℕ → Bool) × Sock × SockPc :=
  let r := waitQueueAdd t x.connectWaiters waiting
  (r.2, { x with connectWaiters := r.1 }, .acceptDrop l)

/-- `kmalloc` gives no address that is in use. -/
def acceptCreate (c : ℕ) (i : Option ℕ) (x : Sockets) : Option (Sockets × SockPc) :=
  match i with
  | none => some (x, .ret 0)
  | some a =>
    match x.sock a with
    | none => some (x.set a (newSock .stream), .createTable a c)
    | some _ => none

def createRegister (a c : ℕ) (_ : Option ℕ) (x : Sockets) : Option (Sockets × SockPc) :=
  match registerSocket a x with
  | none => some (x, .createFull a)
  | some y => some (y, .createUnlock a c)

def acceptJoin (a c : ℕ) (_ : Option ℕ) (x : Sockets) : Option (Sockets × SockPc) :=
  match x.sock a, x.sock c with
  | some n, some client => some (joinPeers a c n client x, .acceptUnlockClient a c)
  | _, _ => none

/-! ## `unix_socket_connect` -/

def connectFind (s : ℕ) (path : List UInt8) (_ : Option ℕ) (x : Sockets) : Option (Sockets × SockPc) :=
  match findBoundSocket path x with
  | none => some (x, .connectFound s none)
  | some v => (x.sock v).map fun k => (x.set v { k with refCount := k.refCount + 1 }, .connectFound s (some v))

def connectType (s : ℕ) (v : Option ℕ) (_ : Option ℕ) (x : Sockets) : Option (Sockets × SockPc) :=
  match v with
  | none => some (x, .ret (-1))
  | some v =>
    match x.sock s, x.sock v with
    | some k, some server =>
      if server.type ≠ k.type then some (x, .ret (-1))
      else
        match k.type with
        | .stream => some (x, .connectLock s v)
        | .dgram => some (x, .dgramLock s v)
    | _, _ => none

/-- `kmalloc` gives memory for the node or not. -/
def connectCheck (s v : ℕ) (i : Option ℕ) (x : Sockets) : Option (Sockets × SockPc) :=
  (x.sock v).map fun server =>
    if server.state ≠ .listening then (x, .connectRefuse v)
    else if server.pendingCount ≥ server.backlog then (x, .connectRefuse v)
    else
      match i with
      | none => (x, .connectRefuse v)
      | some _ =>
        (x.set v { server with
          pending := server.pending ++ [s]
          pendingCount := (server.pendingCount + 1) % 2 ^ 32 }, .connectSet s v)

def connectDrop (v : ℕ) (_ : Option ℕ) (x : Sockets) : Option (Sockets × SockPc) :=
  (x.sock v).map fun server => (x.set v { server with refCount := server.refCount - 1 }, .ret (-1))

def connectSet (s v : ℕ) (waiting : ℕ → Bool) (x : Sock) : (ℕ → Bool) × Sock × SockPc :=
  (waiting, { x with state := .connecting }, .connectWake s v)

def connectWake (s v : ℕ) (waiting : ℕ → Bool) (x : Sock) : (ℕ → Bool) × Sock × SockPc :=
  let r := waitQueueWakeOne x.connectWaiters waiting
  (r.2, { x with connectWaiters := r.1 }, .connectUnlock s v)

def connectTop (s v : ℕ) (waiting : ℕ → Bool) (x : Sock) : (ℕ → Bool) × Sock × SockPc :=
  (waiting, x,
    if x.state = .connecting then if x.flags.peerClosed then .connectGone s else .connectQueue s v
    else .connectUnlockSelf s v)

def connectQueue (t s v : ℕ) (waiting : ℕ → Bool) (x : Sock) : (ℕ → Bool) × Sock × SockPc :=
  let r := waitQueueAdd t x.connectWaiters waiting
  (r.2, { x with connectWaiters := r.1 }, .connectWait s v)

def connectEnd (s v : ℕ) (_ : Option ℕ) (x : Sockets) : Option (Sockets × SockPc) :=
  (x.sock v).bind fun server =>
    let x := x.set v { server with refCount := server.refCount - 1 }
    (x.sock s).map fun k => (x, .ret (if k.state = .connected then 0 else -1))

def dgramJoin (s v : ℕ) (waiting : ℕ → Bool) (x : Sock) : (ℕ → Bool) × Sock × SockPc :=
  (waiting, { x with peer := some v, state := .connected }, .dgramUnlock s)

/-! ## `unix_socket_send` -/

def sendEnter (s : ℕ) (buf : List UInt8) (waiting : ℕ → Bool) (x : Sock) : (ℕ → Bool) × Sock × SockPc :=
  (waiting, x,
    match x.peer with
    | none => .ret (-1)
    | some v =>
      if x.flags.shutWr then .ret (-1)
      else
        match x.type with
        | .stream => .sendTop s v buf 0
        | .dgram => .dsendLock v buf)

def sendCheck (s v : ℕ) (buf : List UInt8) (written : ℕ) (waiting : ℕ → Bool) (x : Sock) :
    (ℕ → Bool) × Sock × SockPc :=
  if x.flags.peerClosed ∨ x.flags.shutRd then (waiting, x, .sendGone s v written)
  else if unixSockRecvBuf - x.recv.bytes = 0 then (waiting, x, .sendQueue s v buf written)
  else
    let r := ringWrite x.recv ((buf.drop written).take (Fifo.remaining buf written))
    let woken := if x.recv.bytes = 0 ∧ r.2 > 0 then waitQueueWakeAll x.readWaiters waiting else (x.readWaiters, waiting)
    (woken.2, { x with recv := r.1, readWaiters := woken.1 }, .sendUnlock s v buf (written + r.2))

def sendQueue (t s v : ℕ) (buf : List UInt8) (written : ℕ) (waiting : ℕ → Bool) (x : Sock) :
    (ℕ → Bool) × Sock × SockPc :=
  let r := waitQueueAdd t x.readWaiters waiting
  (r.2, { x with readWaiters := r.1 }, .sendDrop s v buf written)

def sendGoneSet (s written : ℕ) (waiting : ℕ → Bool) (x : Sock) : (ℕ → Bool) × Sock × SockPc :=
  (waiting, { x with flags := { x.flags with peerClosed := true } }, .sendGoneUnlock s written)

def dsendCheck (v : ℕ) (buf : List UInt8) (waiting : ℕ → Bool) (x : Sock) : (ℕ → Bool) × Sock × SockPc :=
  let count := buf.length % 2 ^ 32
  if unixSockRecvBuf - x.recv.bytes < count then (waiting, x, .dsendUnlock v (-1))
  else
    let r := ringWrite x.recv (buf.take count)
    let woken := if x.recv.bytes = 0 then waitQueueWakeAll x.readWaiters waiting else (x.readWaiters, waiting)
    (woken.2, { x with recv := r.1, readWaiters := woken.1 }, .dsendUnlock v buf.length)

/-! ## `unix_socket_recv` -/

def recvEnter (s n : ℕ) (waiting : ℕ → Bool) (x : Sock) : (ℕ → Bool) × Sock × SockPc :=
  (waiting, x, if x.flags.shutRd then .ret (-1) else .recvLock s n)

def recvTop (s n : ℕ) (waiting : ℕ → Bool) (x : Sock) : (ℕ → Bool) × Sock × SockPc :=
  if x.recv.bytes = 0 then (waiting, x, if x.flags.peerClosed then .recvUnlock s 0 else .recvQueue s n)
  else
    let r := ringRead x.recv (n % 2 ^ 32)
    let woken := if r.2.length > 0 then waitQueueWakeAll x.writeWaiters waiting else (x.writeWaiters, waiting)
    (woken.2, { x with recv := r.1, writeWaiters := woken.1 }, .recvUnlock s r.2.length)

def recvQueue (t s n : ℕ) (waiting : ℕ → Bool) (x : Sock) : (ℕ → Bool) × Sock × SockPc :=
  let r := waitQueueAdd t x.readWaiters waiting
  (r.2, { x with readWaiters := r.1 }, .recvDrop s n)

/-! ## The code -/

def sockInstr (t : ℕ) : SockPc → Instr
  | .acceptEnter l => .acquire (.sock l) (.unix (.acceptCheck l))
  | .acceptCheck l => .act [.sock l] (onSock l (acceptCheck l))
  | .acceptTop l => .act [.sock l] (onSock l (acceptTop l))
  | .acceptQueue l => .act [] (onSock l (acceptQueue t l))
  | .acceptDrop l => .release (.sock l) (.unix (.acceptAsleep l))
  | .acceptAsleep l => .act [.sock l] (onSock l (acceptTop l))
  | .acceptFail l => .release (.sock l) (.unix (.ret 0))
  | .acceptUnlock l c => .release (.sock l) (.unix (.acceptCreate c))
  | .acceptCreate c => .act [] (onSockets (acceptCreate c))
  | .createTable a c => .acquire .table (.unix (.createRegister a c))
  | .createRegister a c => .act [] (onSockets (createRegister a c))
  | .createUnlock a c => .release .table (.unix (.acceptLockNew a c))
  | .createFull a => .release .table (.unix (.createFree a))
  | .createFree a => .act [] (onSockets fun _ x => some (x.free a, .ret 0))
  | .acceptLockNew a c => .acquire (.sock a) (.unix (.acceptLockClient a c))
  | .acceptLockClient a c => .acquire (.sock c) (.unix (.acceptJoin a c))
  | .acceptJoin a c => .act [.sock a, .sock c] (onSockets (acceptJoin a c))
  | .acceptUnlockClient a c => .release (.sock c) (.unix (.acceptUnlockNew a))
  | .acceptUnlockNew a => .release (.sock a) (.unix (.ret a))
  | .connectEnter s path => .acquire .table (.unix (.connectFind s path))
  | .connectFind s path => .act [] (onSockets (connectFind s path))
  | .connectFound s v => .release .table (.unix (.connectType s v))
  | .connectType s v => .act [] (onSockets (connectType s v))
  | .connectLock s v => .acquire (.sock v) (.unix (.connectCheck s v))
  | .connectCheck s v => .act [.sock v] (onSockets (connectCheck s v))
  | .connectRefuse v => .release (.sock v) (.unix (.connectDrop v))
  | .connectDrop v => .act [] (onSockets (connectDrop v))
  | .connectSet s v => .act [.sock s] (onSock s (connectSet s v))
  | .connectWake s v => .act [] (onSock v (connectWake s v))
  | .connectUnlock s v => .release (.sock v) (.unix (.connectLockSelf s v))
  | .connectLockSelf s v => .acquire (.sock s) (.unix (.connectTop s v))
  | .connectTop s v => .act [.sock s] (onSock s (connectTop s v))
  | .connectQueue s v => .act [] (onSock s (connectQueue t s v))
  | .connectWait s v => .release (.sock s) (.unix (.connectAsleep s v))
  | .connectAsleep s v => .act [.sock s] (onSock s (connectTop s v))
  | .connectGone s => .release (.sock s) (.unix (.ret (-1)))
  | .connectUnlockSelf s v => .release (.sock s) (.unix (.connectEnd s v))
  | .connectEnd s v => .act [.sock s] (onSockets (connectEnd s v))
  | .dgramLock s v => .acquire (.sock s) (.unix (.dgramJoin s v))
  | .dgramJoin s v => .act [.sock s] (onSock s (dgramJoin s v))
  | .dgramUnlock s => .release (.sock s) (.unix (.ret 0))
  | .sendEnter s buf => .act [] (onSock s (sendEnter s buf))
  | .sendTop s v buf written =>
    if Fifo.remaining buf written > 0 then .acquire (.sock v) (.unix (.sendCheck s v buf written))
    else .act [] fun _ k => some (k, .unix (.ret written))
  | .sendCheck s v buf written => .act [.sock v] (onSock v (sendCheck s v buf written))
  | .sendQueue s v buf written => .act [] (onSock v (sendQueue t s v buf written))
  | .sendDrop s v buf written => .release (.sock v) (.unix (.sendAsleep s v buf written))
  | .sendAsleep s v buf written => .act [] fun _ k => some (k, .unix (.sendTop s v buf written))
  | .sendUnlock s v buf written => .release (.sock v) (.unix (.sendTop s v buf written))
  | .sendGone s v written => .release (.sock v) (.unix (.sendGoneLock s written))
  | .sendGoneLock s written => .acquire (.sock s) (.unix (.sendGoneSet s written))
  | .sendGoneSet s written => .act [] (onSock s (sendGoneSet s written))
  | .sendGoneUnlock s written => .release (.sock s) (.unix (.ret (if written > 0 then written else -1)))
  | .dsendLock v buf => .acquire (.sock v) (.unix (.dsendCheck v buf))
  | .dsendCheck v buf => .act [.sock v] (onSock v (dsendCheck v buf))
  | .dsendUnlock v result => .release (.sock v) (.unix (.ret result))
  | .recvEnter s n => .act [] (onSock s (recvEnter s n))
  | .recvLock s n => .acquire (.sock s) (.unix (.recvTop s n))
  | .recvTop s n => .act [.sock s] (onSock s (recvTop s n))
  | .recvQueue s n => .act [] (onSock s (recvQueue t s n))
  | .recvDrop s n => .release (.sock s) (.unix (.recvAsleep s n))
  | .recvAsleep s n => .act [.sock s] (onSock s (recvTop s n))
  | .recvUnlock s result => .release (.sock s) (.unix (.ret result))
  | .ret _ => .act [] fun _ _ => none

inductive Call where
  | read (p n : ℕ)
  | write (p : ℕ) (buf : List UInt8)
  | close (p : ℕ) (e : Fifo.End)
  | accept (l : ℕ)
  | connect (s : ℕ) (path : List UInt8)
  | send (s : ℕ) (buf : List UInt8)
  | recv (s n : ℕ)

/-- Where a call begins; one with an empty buffer returns at once. -/
def entry : Call → Pc
  | .read p n => .fifo (if n = 0 then .ret (-1) else .readEnter p n)
  | .write p buf => .fifo (if buf = [] then .ret (-1) else .writeEnter p buf)
  | .close p e => .fifo (.closeEnter p e)
  | .accept l => .unix (.acceptEnter l)
  | .connect s path => .unix (.connectEnter s path)
  | .send s buf => .unix (if buf = [] then .ret (-1) else .sendEnter s buf)
  | .recv s n => .unix (if n = 0 then .ret (-1) else .recvEnter s n)

/-- Whether a thread is in no call. -/
def idle : Pc → Bool
  | .fifo (.ret _) => true
  | .unix (.ret _) => true
  | _ => false

def code : Threads.Code Lock Kernel (Option ℕ) Pc Call where
  instr t c :=
    match c with
    | .fifo c => fifoInstr t c
    | .unix c => sockInstr t c
  entry := entry
  idle := idle

abbrev State := Threads.State Lock Kernel Pc

abbrev Input := Threads.Input (Option ℕ) Call

/-- New pipes, and any sockets; no thread is in a call. -/
def start (unix : Sockets) : State :=
  ⟨⟨fun _ => false, fun _ => some Fifo.fifoCreate, unix⟩, fun _ => none, fun _ => .unix (.ret 0)⟩

end Unixsock
