import Kenux.Lib.Memory
import Kenux.Lib.RingBuf
import Kenux.Lib.Run

/-!
# Sockets and TCP (`arch/x86_64/net.c`)

A socket points to a TCP or a UDP control block, and the pointer is a union: a call that takes it for a TCP block
writes the fields of a TCP block wherever it points. So a UDP block is kept as bytes. The calls and the packets come
one after the other; a packet that `tcp_send_packet` builds is noted in the order of the calls.
-/

namespace Net

open Memory

def tcpMaxSockets : ℕ := 64

def udpMaxSockets : ℕ := 32

/-- The entries of `sockets`. -/
def maxSockets : ℕ := 128

def tcpRxBufSize : ℕ := 32768

def tcpMss : ℕ := 1460

def afInet : ℕ := 2

/-! ## The states of a TCP control block -/

def tcpClosed : ℕ := 0

def tcpSynSent : ℕ := 1

def tcpSynRecv : ℕ := 2

def tcpEstablished : ℕ := 3

def tcpFinWait1 : ℕ := 4

def tcpCloseWait : ℕ := 6

def tcpLastAck : ℕ := 8

def tcpListen : ℕ := 10

/-! ## Control blocks -/

/-- The fields of `tcp_socket_t` before its buffers. -/
inductive TcpField where
  | state | localIp | localPort | remoteIp | remotePort | sndUna | sndNxt | rcvNxt | sndWnd | rcvWnd
  deriving DecidableEq

def TcpField.offset : TcpField → ℕ
  | state => 0
  | localIp => 4
  | localPort => 8
  | remoteIp => 12
  | remotePort => 16
  | sndUna => 20
  | sndNxt => 24
  | rcvNxt => 28
  | sndWnd => 32
  | rcvWnd => 34

def TcpField.width : TcpField → ℕ
  | localPort | remotePort | sndWnd | rcvWnd => 2
  | _ => 4

/-- `tcp_socket_t`. -/
structure TcpSocket where
  field : TcpField → ℕ
  rxBuf : ℕ → UInt8
  rxHead : ℕ
  rxTail : ℕ

/-- After `memset(.., 0, ..)`. -/
def TcpSocket.zero : TcpSocket := ⟨fun _ => 0, fun _ => 0, 0, 0⟩

/-- The fields of `udp_socket_t` that the calls here use. -/
inductive UdpField where
  | localIp | localPort | bound
  deriving DecidableEq

def UdpField.offset : UdpField → ℕ
  | localIp => 0
  | localPort => 4
  | bound => 16

def UdpField.width : UdpField → ℕ
  | localPort => 2
  | _ => 4

/-- Where a socket points to. -/
inductive Block where
  | tcp (k : ℕ)
  | udp (k : ℕ)
  deriving DecidableEq

inductive SockType where
  | stream | dgram | other
  deriving DecidableEq

/-- `socket_t`; its protocol is never read. -/
structure Socket where
  domain : ℕ
  type : SockType
  block : Option Block

def Socket.zero : Socket := ⟨0, .other, none⟩

structure Flags where
  fin : Bool
  syn : Bool
  psh : Bool
  ack : Bool

/-- A packet that `tcp_send_packet` hands to `ip_send_packet`. -/
structure Sent where
  block : Block
  remoteIp : ℕ
  srcPort : ℕ
  dstPort : ℕ
  seq : ℕ
  ack : ℕ
  flags : Flags
  window : ℕ
  data : List UInt8

/-- `sockets`, `tcp_socks`, `udp_socks`, `local_ip` and `tcp_next_seq`. -/
structure State where
  sockets : ℕ → Socket
  tcp : ℕ → TcpSocket
  udp : ℕ → Mem
  localIp : ℕ
  nextSeq : ℕ
  sent : List Sent

/-- `b->f`, for a block that is taken for a TCP block. -/
def State.get (s : State) (b : Block) (f : TcpField) : ℕ :=
  match b with
  | .tcp k => (s.tcp k).field f
  | .udp k => load (s.udp k) f.offset f.width

/-- `b->f = v`. -/
def State.set (s : State) (b : Block) (f : TcpField) (v : ℕ) : State :=
  match b with
  | .tcp k => { s with tcp := Function.update s.tcp k { s.tcp k with
      field := Function.update (s.tcp k).field f (v % 256 ^ f.width) } }
  | .udp k => { s with udp := Function.update s.udp k (store (s.udp k) f.offset v f.width) }

def State.udpGet (s : State) (k : ℕ) (f : UdpField) : ℕ := load (s.udp k) f.offset f.width

def State.udpSet (s : State) (k : ℕ) (f : UdpField) (v : ℕ) : State :=
  { s with udp := Function.update s.udp k (store (s.udp k) f.offset v f.width) }

def State.setTcp (s : State) (k : ℕ) (x : TcpSocket) : State := { s with tcp := Function.update s.tcp k x }

def State.setSocket (s : State) (fd : ℕ) (x : Socket) : State := { s with sockets := Function.update s.sockets fd x }

/-- The first of the entries below `n` that meets a condition. -/
def firstBelow (n : ℕ) (p : ℕ → Bool) : Option ℕ := (List.range n).find? p

/-! ## Sending -/

/-- `tcp_send_packet`; `alloc` says whether `memory_alloc` succeeds. -/
def tcpSendPacket (b : Block) (flags : Flags) (data : List UInt8) (alloc : Bool) (s : State) : State :=
  if ¬ alloc then s
  else
    let packet : Sent := ⟨b, s.get b .remoteIp, s.get b .localPort, s.get b .remotePort, s.get b .sndNxt,
      s.get b .rcvNxt, flags, s.get b .rcvWnd, data⟩
    let s := { s with sent := s.sent ++ [packet] }
    let s := if flags.syn then s.set b .sndNxt (s.get b .sndNxt + 1) else s
    let s := if flags.fin then s.set b .sndNxt (s.get b .sndNxt + 1) else s
    s.set b .sndNxt (s.get b .sndNxt + data.length)

/-! ## Receiving -/

/-- A TCP segment: what its headers say, its length, and the bytes from its TCP header on. `dataOffset` counts words
of four bytes. -/
structure Segment where
  srcIp : ℕ
  srcPort : ℕ
  dstPort : ℕ
  seq : ℕ
  ack : ℕ
  flags : Flags
  window : ℕ
  dataOffset : ℕ
  len : ℕ
  bytes : ℕ → UInt8

/-- The test that `tcp_find_socket` makes of a block. -/
def finds (x : TcpSocket) (localPort remoteIp remotePort : ℕ) : Bool :=
  x.field .state ≠ tcpClosed && x.field .localPort = localPort &&
    if x.field .state = tcpSynRecv ∨ x.field .state = tcpEstablished then
      x.field .remoteIp = remoteIp && x.field .remotePort = remotePort
    else x.field .state = tcpListen

def tcpFindSocket (localPort remoteIp remotePort : ℕ) (s : State) : Option ℕ :=
  firstBelow tcpMaxSockets fun i => finds (s.tcp i) localPort remoteIp remotePort

/-- The first TCP block that counts as free. -/
def firstClosed (s : State) : Option ℕ :=
  firstBelow tcpMaxSockets fun i => (s.tcp i).field .state = tcpClosed

/-- The first UDP block that counts as free. -/
def firstUnbound (s : State) : Option ℕ := firstBelow udpMaxSockets fun i => s.udpGet i .bound = 0

def Segment.payloadLen (p : Segment) : ℕ := (p.len + 2 ^ 64 - p.dataOffset * 4) % 2 ^ 64 % 2 ^ 16

def Segment.payload (p : Segment) : List UInt8 :=
  (List.range p.payloadLen).map fun i => p.bytes (p.dataOffset * 4 + i)

/-- The bytes in the receive buffer. -/
def TcpSocket.used (x : TcpSocket) : ℕ := (x.rxTail + 2 ^ 32 - x.rxHead) % 2 ^ 32

/-- A listener that gets a SYN: a new block is put up in the first free one. -/
def handleListen (p : Segment) (alloc : Bool) (s : State) : State :=
  if p.flags.syn then
    match firstClosed s with
    | none => s
    | some i =>
      let b := Block.tcp i
      let s := s.setTcp i .zero
      let s := s.set b .state tcpSynRecv
      let s := s.set b .localIp s.localIp
      let s := s.set b .localPort p.dstPort
      let s := s.set b .remoteIp p.srcIp
      let s := s.set b .remotePort p.srcPort
      let s := s.set b .rcvNxt (p.seq + 1)
      let s := s.set b .sndNxt s.nextSeq
      let s := { s with nextSeq := (s.nextSeq + 1) % 2 ^ 32 }
      let s := s.set b .sndUna (s.get b .sndNxt)
      let s := s.set b .rcvWnd tcpRxBufSize
      let s := s.set b .sndWnd p.window
      tcpSendPacket b ⟨false, true, false, true⟩ [] alloc s
  else s

def ackFlag : Flags := ⟨false, false, false, true⟩

/-- A block in `TCP_ESTABLISHED`. -/
def handleEstablished (k : ℕ) (p : Segment) (alloc : Bool) (s : State) : State :=
  let b := Block.tcp k
  if p.flags.fin then
    let s := s.set b .rcvNxt (p.seq + 1)
    let s := tcpSendPacket b ackFlag [] alloc s
    s.set b .state tcpCloseWait
  else if p.payloadLen > 0 then
    let x := s.tcp k
    let avail := min ((tcpRxBufSize + 2 ^ 32 - x.used) % 2 ^ 32) p.payloadLen
    let s := s.setTcp k { x with
      rxBuf := RingBuf.fill tcpRxBufSize x.rxBuf x.rxTail (p.payload.take avail)
      rxTail := (x.rxTail + avail) % 2 ^ 32 }
    let s := s.set b .rcvNxt (p.seq + p.payloadLen)
    tcpSendPacket b ackFlag [] alloc s
  else s

def tcpHandlePacket (p : Segment) (alloc : Bool) (s : State) : State :=
  if p.len < 20 then s
  else
    match tcpFindSocket p.dstPort p.srcIp p.srcPort s with
    | none => s
    | some k =>
      let b := Block.tcp k
      let state := s.get b .state
      if state = tcpListen then handleListen p alloc s
      else if state = tcpSynSent then
        if p.flags.syn ∧ p.flags.ack ∧ p.ack = s.get b .sndNxt then
          let s := s.set b .state tcpEstablished
          let s := s.set b .rcvNxt (p.seq + 1)
          tcpSendPacket b ackFlag [] alloc s
        else s
      else if state = tcpSynRecv then
        if p.flags.ack then s.set b .state tcpEstablished else s
      else if state = tcpEstablished then handleEstablished k p alloc s
      else if state = tcpCloseWait then
        if p.flags.fin then tcpSendPacket b ackFlag [] alloc s else s
      else if state = tcpLastAck then
        if p.flags.ack then s.set b .state tcpClosed else s
      else s

/-! ## The calls; `none` stands for -1 -/

/-- The first descriptor that is free. -/
def freeFd (s : State) : Option ℕ := firstBelow maxSockets fun i => (s.sockets i).domain = 0

def sysSocket (domain : ℕ) (type : SockType) (s : State) : Option ℕ × State :=
  if domain ≠ afInet then (none, s)
  else
    match freeFd s with
    | none => (none, s)
    | some fd =>
      match type with
      | .stream =>
        match firstClosed s with
        | none => (none, s.setSocket fd .zero)
        | some i =>
          let s := s.setTcp i { TcpSocket.zero with field := Function.update TcpSocket.zero.field .state tcpClosed }
          (some fd, s.setSocket fd ⟨domain, .stream, some (.tcp i)⟩)
      | .dgram =>
        match firstUnbound s with
        | none => (none, s.setSocket fd .zero)
        | some i =>
          let s := { s with udp := Function.update s.udp i fun _ => 0 }
          (some fd, s.setSocket fd ⟨domain, .dgram, some (.udp i)⟩)
      | .other => (some fd, s.setSocket fd ⟨domain, .other, none⟩)

def sysBind (fd ip port : ℕ) (s : State) : Bool × State :=
  if fd ≥ maxSockets then (false, s)
  else if (s.sockets fd).domain = 0 then (false, s)
  else
    match (s.sockets fd).type, (s.sockets fd).block with
    | .stream, some b => (true, (s.set b .localIp ip).set b .localPort port)
    | .dgram, some (.udp k) => (true, ((s.udpSet k .localIp ip).udpSet k .localPort port).udpSet k .bound 1)
    -- a datagram socket has no TCP block
    | _, _ => (true, s)

def sysListen (fd : ℕ) (s : State) : Bool × State :=
  if fd ≥ maxSockets then (false, s)
  else
    match (s.sockets fd).block with
    | none => (false, s)
    | some b => (true, s.set b .state tcpListen)

/-- Whether the descriptor listens. -/
def listens (s : State) (fd : ℕ) : Bool :=
  match (s.sockets fd).block with
  | none => false
  | some b => s.get b .state = tcpListen

/-- The new descriptor, and the peer's address. -/
def sysAccept (fd : ℕ) (s : State) : Option (ℕ × ℕ × ℕ) × State :=
  if fd ≥ maxSockets then (none, s)
  else if ¬ listens s fd then (none, s)
  else
    match firstBelow tcpMaxSockets fun i => (s.tcp i).field .state = tcpSynRecv with
    | none => (none, s)
    | some i =>
      match freeFd s with
      | none => (none, s)
      | some newFd =>
        let s := s.setSocket newFd ⟨afInet, .stream, some (.tcp i)⟩
        let s := s.set (.tcp i) .state tcpEstablished
        (some (newFd, (s.tcp i).field .remoteIp, (s.tcp i).field .remotePort), s)

def sysConnect (fd ip port : ℕ) (alloc : Bool) (s : State) : Bool × State :=
  if fd ≥ maxSockets then (false, s)
  else
    match (s.sockets fd).block with
    | none => (false, s)
    | some b =>
      let s := s.set b .remoteIp ip
      let s := s.set b .remotePort port
      let s := s.set b .localIp s.localIp
      let s := if s.get b .localPort = 0 then s.set b .localPort (0xC000 + s.nextSeq % 0x4000) else s
      let s := s.set b .sndNxt s.nextSeq
      let s := { s with nextSeq := (s.nextSeq + 1) % 2 ^ 32 }
      let s := s.set b .sndUna (s.get b .sndNxt)
      let s := s.set b .rcvWnd tcpRxBufSize
      let s := s.set b .state tcpSynSent
      (true, tcpSendPacket b ⟨false, true, false, false⟩ [] alloc s)

/-- The loop of `sys_send`; `alloc` says for each packet whether `memory_alloc` succeeds. -/
def sendLoop (b : Block) : ℕ → List UInt8 → (ℕ → Bool) → State → State
  | 0, _, _, s => s
  | n + 1, data, alloc, s =>
    if data = [] then s
    else
      let s := tcpSendPacket b ⟨false, false, true, true⟩ (data.take tcpMss) (alloc 0) s
      sendLoop b n (data.drop tcpMss) (fun i => alloc (i + 1)) s

def sysSend (fd : ℕ) (data : List UInt8) (alloc : ℕ → Bool) (s : State) : Option ℕ × State :=
  if fd ≥ maxSockets then (none, s)
  else
    match (s.sockets fd).block with
    | none => (none, s)
    | some b =>
      if s.get b .state ≠ tcpEstablished then (none, s)
      else (some data.length, sendLoop b data.length data alloc s)

/-- The bytes that are copied to the caller's buffer of `len` bytes; for a socket with a TCP block. -/
def sysRecv (fd len : ℕ) (s : State) : Option (List UInt8) × State :=
  if fd ≥ maxSockets then (none, s)
  else
    match (s.sockets fd).block with
    | some (.tcp k) =>
      let x := s.tcp k
      let avail := min x.used len
      (some (RingBuf.cells tcpRxBufSize x.rxBuf x.rxHead avail),
        s.setTcp k { x with rxHead := (x.rxHead + avail) % 2 ^ 32 })
    | _ => (none, s)

def sysShutdown (fd : ℕ) (alloc : Bool) (s : State) : Bool × State :=
  if fd ≥ maxSockets then (false, s)
  else
    match (s.sockets fd).block with
    | none => (false, s)
    | some b =>
      if s.get b .state = tcpEstablished then
        (true, tcpSendPacket b ⟨true, false, false, true⟩ [] alloc (s.set b .state tcpFinWait1))
      else (true, s)

def sysCloseSocket (fd : ℕ) (alloc : Bool) (s : State) : Bool × State :=
  if fd ≥ maxSockets then (false, s)
  else
    match (s.sockets fd).block with
    | none => (true, s.setSocket fd .zero)
    | some b =>
      let s := if s.get b .state = tcpEstablished ∨ s.get b .state = tcpCloseWait then (sysShutdown fd alloc s).2 else s
      let s := s.set b .state tcpClosed
      -- `sock->tcp = NULL` clears `sock->udp` as well, so `bound` stays as it is
      (true, s.setSocket fd .zero)

/-! ## Runs -/

inductive Call where
  | socket (domain : ℕ) (type : SockType)
  | bind (fd ip port : ℕ)
  | listen (fd : ℕ)
  | connect (fd ip port : ℕ) (alloc : Bool)
  | accept (fd : ℕ)
  | shutdown (fd : ℕ) (alloc : Bool)
  | close (fd : ℕ) (alloc : Bool)
  | segment (p : Segment) (alloc : Bool)

def step (s : State) : Call → Option State
  | .socket domain type => some (sysSocket domain type s).2
  | .bind fd ip port => some (sysBind fd ip port s).2
  | .listen fd => some (sysListen fd s).2
  | .connect fd ip port alloc => some (sysConnect fd ip port alloc s).2
  | .accept fd => some (sysAccept fd s).2
  | .shutdown fd alloc => some (sysShutdown fd alloc s).2
  | .close fd alloc => some (sysCloseSocket fd alloc s).2
  | .segment p alloc => some (tcpHandlePacket p alloc s)

/-- The tables before the first call. -/
def start (localIp : ℕ) : State := ⟨fun _ => .zero, fun _ => .zero, fun _ _ => 0, localIp, 0, []⟩

end Net
