import Kenux.Net.Model

/-!
# Frames that arrive (`net_rx_frame` of `arch/x86_64/net.c`)

The handlers read the frame through one pointer; offsets count from the first byte of the frame. The frames that the
handlers send and the counters are left out: they are made from bytes that were read.
-/

namespace Net

open Memory Reads

/-- `sizeof(eth_header_t)`. -/
def ethHeaderSize : ℕ := 14

def ethTypeIp : ℕ := 0x0800

def ethTypeArp : ℕ := 0x0806

def arpCacheSize : ℕ := 32

def udpRxBufSize : ℕ := 8192

structure ArpEntry where
  ip : ℕ := 0
  mac : List UInt8 := []

/-- The socket tables, the ARP cache and what is known of the network. -/
structure RxState where
  net : State
  arpCache : ℕ → ArpEntry
  arpCount : ℕ
  configured : Bool
  dhcpServerIp : ℕ

variable (data : Mem)

/-- What `arp_handle_packet` does with a reply: the sender's entry is renewed, or a new one is added. -/
def arpLearn (arp senderIp : ℕ) (s : RxState) : Reading RxState :=
  match firstBelow s.arpCount fun i => (s.arpCache i).ip = senderIp with
  | some i => do
    let mac ← bytes data (arp + 8) 6
    pure { s with arpCache := Function.update s.arpCache i ⟨senderIp, mac⟩ }
  | none =>
    if s.arpCount < arpCacheSize then do
      let mac ← bytes data (arp + 8) 6
      let arpCache := Function.update s.arpCache s.arpCount ⟨senderIp, mac⟩
      pure { s with arpCache := arpCache, arpCount := s.arpCount + 1 }
    else pure s

/-- `arp_handle_packet`; the length is not used. -/
def arpHandlePacket (arp : ℕ) (s : RxState) : Reading RxState := do
  let op ← number data (arp + 6) 2
  let senderIp ← number data (arp + 14) 4
  if op = 1 then do
    let targetIp ← number data (arp + 24) 4
    if targetIp = s.net.localIp then do
      -- the reply has the sender's addresses
      let _ ← bytes data (arp + 8) 6
      let _ ← bytes data (arp + 8) 6
      let _ ← number data (arp + 14) 4
      pure s
    else pure s
  else if op = 2 then arpLearn data arp senderIp s
  else pure s

/-- `icmp_handle_packet`; `alloc` says whether the reply is allocated. -/
def icmpHandlePacket (ip icmp len : ℕ) (alloc : Bool) (s : RxState) : Reading RxState :=
  if len < 8 then pure s
  else do
    let type ← number data icmp 1
    if type = 8 then
      let _ ← number data (icmp + 4) 2
      let _ ← number data (icmp + 6) 2
      let _ ← number data (ip + 12) 4
      if alloc then
        let _ ← bytes data (icmp + 8) ((len - 8) % 2 ^ 16)
        pure s
      else pure s
    else pure s

/-! ## DHCP -/

/-- `sizeof(dhcp_packet_t)`; the last 312 bytes are the options. -/
def dhcpPacketSize : ℕ := 552

def dhcpMagicCookie : ℕ := 0x63825363

def dhcpOptMessageType : ℕ := 53

def dhcpOptServerId : ℕ := 54

def dhcpOptEnd : ℕ := 255

/-- The loop over the options from the `i`th byte of them on. -/
def dhcpOptions (opts optLen i : ℕ) (msgType : Option ℕ) (serverId : ℕ) : Reading (Option ℕ × ℕ) :=
  if i < optLen then do
    let opt ← number data (opts + i) 1
    if opt = dhcpOptEnd then pure (msgType, serverId)
    else if opt = 0 then dhcpOptions opts optLen (i + 1) msgType serverId
    else if i + 1 ≥ optLen then pure (msgType, serverId)
    else do
      let olen ← number data (opts + (i + 1)) 1
      if i + 2 + olen > optLen then pure (msgType, serverId)
      else if opt = dhcpOptMessageType ∧ olen = 1 then do
        let t ← number data (opts + (i + 2)) 1
        dhcpOptions opts optLen (i + 2 + olen) (some t) serverId
      else if opt = dhcpOptServerId ∧ olen = 4 then do
        let id ← number data (opts + (i + 2)) 4
        dhcpOptions opts optLen (i + 2 + olen) msgType id
      else dhcpOptions opts optLen (i + 2 + olen) msgType serverId
  else pure (msgType, serverId)
termination_by optLen - i

/-- `dhcp_parse_response`: the type of the message, the offered address and the server's; `none` stands for -1. -/
def dhcpParseResponse (dhcp len : ℕ) : Reading (Option (ℕ × ℕ × ℕ)) :=
  if len < dhcpPacketSize then pure none
  else do
    let op ← number data dhcp 1
    if op ≠ 2 then pure none
    else do
      let cookie ← number data (dhcp + 236) 4
      if cookie ≠ dhcpMagicCookie then pure none
      else do
        let offeredIp ← number data (dhcp + 16) 4
        if offeredIp = 0 then pure none
        else do
          let (msgType, serverId) ← dhcpOptions data (dhcp + 240) (len - (dhcpPacketSize - 312)) 0 none 0
          pure (msgType.map fun t => (t, offeredIp, serverId))

/-! ## UDP -/

/-- The places of the fields of `udp_socket_t` behind the ones that the calls use. -/
def udpRxBuf : ℕ := 24

def udpRxHead : ℕ := 8216

def udpRxTail : ℕ := 8220

def udpPeerIp : ℕ := 8224

def udpPeerPort : ℕ := 8228

def udpHasData : ℕ := 8232

def udpWaiterPid : ℕ := 8240

/-- The room in a UDP block's buffer, in 32 bits. -/
def udpRoom (b : Mem) : ℕ :=
  (udpRxBufSize + 2 ^ 32 - (load b udpRxTail 4 + 2 ^ 32 - load b udpRxHead 4) % 2 ^ 32) % 2 ^ 32

/-- The loop that copies the bytes of a datagram to the buffer. -/
def udpFill (b : Mem) (tail : ℕ) : List UInt8 → Mem
  | [] => b
  | x :: xs => udpFill (Function.update b (udpRxBuf + tail % udpRxBufSize) x) ((tail + 1) % 2 ^ 32) xs

/-- A datagram in the block of its socket; a process that waits is woken up. -/
def udpDeliver (b : Mem) (xs : List UInt8) (srcIp srcPort : ℕ) : Mem :=
  let tail := load b udpRxTail 4
  let b := udpFill b tail xs
  let b := store b udpRxTail (tail + xs.length) 4
  let b := store b udpPeerIp srcIp 4
  let b := store b udpPeerPort srcPort 2
  let b := store b udpHasData 1 4
  store b udpWaiterPid 0 8

/-- The first bound UDP block with the port. -/
def udpFind (s : State) (port : ℕ) : Option ℕ :=
  firstBelow udpMaxSockets fun i => s.udpGet i .bound ≠ 0 && s.udpGet i .localPort = port

/-- What becomes of an answer of the DHCP server. -/
def dhcpTake (s : RxState) : Option (ℕ × ℕ × ℕ) → RxState
  | none => s
  | some (msgType, offeredIp, serverIp) =>
    if msgType = 2 then { s with dhcpServerIp := serverIp }
    else if msgType = 5 then { s with net := { s.net with localIp := offeredIp }, configured := true }
    else s

/-- The loop of `udp_handle_packet` over the sockets: the first that is bound to the port takes what it has room
for. -/
def udpToSocket (udp dataLen dstPort srcIp srcPort : ℕ) (s : RxState) : Reading RxState :=
  match udpFind s.net dstPort with
  | none => pure s
  | some k => do
    let xs ← bytes data (udp + 8) (min (udpRoom (s.net.udp k)) dataLen)
    let blocks := Function.update s.net.udp k (udpDeliver (s.net.udp k) xs srcIp srcPort)
    pure { s with net := { s.net with udp := blocks } }

/-- `udp_handle_packet`. -/
def udpHandlePacket (ip udp len : ℕ) (s : RxState) : Reading RxState :=
  if len < 8 then pure s
  else do
    let dstPort ← number data (udp + 2) 2
    let srcPort ← number data udp 2
    let srcIp ← number data (ip + 12) 4
    let udpLen ← number data (udp + 4) 2
    let dataLen := (udpLen + 2 ^ 16 - 8) % 2 ^ 16
    if srcPort = 67 ∧ dstPort = 68 ∧ ¬s.configured then do
      let answer ← dhcpParseResponse data (udp + 8) dataLen
      pure (dhcpTake s answer)
    else udpToSocket data udp dataLen dstPort srcIp srcPort s

/-! ## TCP -/

/-- How many bytes of a segment's payload the block that it is for takes. -/
def tcpTaken (s : State) (p : Segment) : ℕ :=
  match tcpFindSocket p.dstPort p.srcIp p.srcPort s with
  | none => 0
  | some k =>
    if s.get (.tcp k) .state = tcpEstablished ∧ ¬p.flags.fin then
      min ((tcpRxBufSize + 2 ^ 32 - (s.tcp k).used) % 2 ^ 32) p.payloadLen
    else 0

/-- Whether the segment puts up a new block, which needs its window. -/
def tcpOpens (s : State) (p : Segment) : Bool :=
  match tcpFindSocket p.dstPort p.srcIp p.srcPort s with
  | none => false
  | some k => s.get (.tcp k) .state = tcpListen && p.flags.syn && (firstClosed s).isSome

def flagsOf (flags : ℕ) : Flags := ⟨flags.testBit 0, flags.testBit 1, flags.testBit 3, flags.testBit 4⟩

/-- `tcp_handle_packet`: the header is read first, then what the block that the segment is for needs. -/
def tcpReadPacket (ip tcp len : ℕ) (alloc : Bool) (s : RxState) : Reading RxState :=
  if len < 20 then pure s
  else do
    let dstPort ← number data (tcp + 2) 2
    let srcPort ← number data tcp 2
    let srcIp ← number data (ip + 12) 4
    let seq ← number data (tcp + 4) 4
    let ack ← number data (tcp + 8) 4
    let flags ← number data (tcp + 13) 1
    let offset ← number data (tcp + 12) 1
    let p : Segment := ⟨srcIp, srcPort, dstPort, seq, ack, flagsOf flags, 0, offset / 16, len, fun _ => 0⟩
    if tcpOpens s.net p then do
      let window ← number data (tcp + 14) 2
      let p := { p with window := window }
      pure { s with net := tcpHandlePacket p alloc s.net }
    else do
      let payload ← bytes data (tcp + p.dataOffset * 4) (tcpTaken s.net p)
      let p := { p with bytes := fun i => payload.getD (i - p.dataOffset * 4) 0 }
      pure { s with net := tcpHandlePacket p alloc s.net }

/-! ## IP and Ethernet -/

/-- `ip_handle_packet`. -/
def ipHandlePacket (ip len : ℕ) (alloc : Bool) (s : RxState) : Reading RxState :=
  if len < 20 then pure s
  else do
    let versionIhl ← number data ip 1
    if versionIhl / 16 ≠ 4 then pure s
    else do
      let totalLen ← number data (ip + 2) 2
      if totalLen > len then pure s
      else do
        let dst ← number data (ip + 16) 4
        if dst ≠ s.net.localIp ∧ dst ≠ 0xFFFFFFFF then pure s
        else do
          let proto ← number data (ip + 9) 1
          let _ ← number data ip 1
          let headerLen := versionIhl % 16 * 4
          -- 16 bits: a total length below the header length wraps around
          let payloadLen := (totalLen + 2 ^ 16 - headerLen) % 2 ^ 16
          if proto = 1 then icmpHandlePacket data ip (ip + headerLen) payloadLen alloc s
          else if proto = 17 then udpHandlePacket data ip (ip + headerLen) payloadLen s
          else if proto = 6 then tcpReadPacket data ip (ip + headerLen) payloadLen alloc s
          else pure s

/-- `net_rx_frame`. -/
def netRxFrame (len : ℕ) (alloc : Bool) (s : RxState) : Reading RxState :=
  if len < ethHeaderSize then pure s
  else do
    let type ← number data 12 2
    if type = ethTypeArp then arpHandlePacket data ethHeaderSize s
    else if type = ethTypeIp then ipHandlePacket data ethHeaderSize (len - ethHeaderSize) alloc s
    else pure s

/-! ## Frames whose lengths fit

The frame has `n` bytes; an address in it is the offset of a header. -/

/-- The fields that are used of an ARP packet lie in the frame; the target's address is used of requests only. -/
def ArpFits (arp n : ℕ) : Prop := arp + 18 ≤ n ∧ (networkNumber data (arp + 6) 2 = 1 → arp + 28 ≤ n)

/-- The total length covers the IP header; or it does not, but no echo request is answered and the type is there; or
the frame goes on for the 2^16 bytes by which the length is too large. -/
def IcmpFits (ip headerLen totalLen n : ℕ) (alloc : Bool) : Prop :=
  headerLen ≤ totalLen ∨ ip + headerLen < n ∧ (networkNumber data (ip + headerLen) 1 = 8 →
    ip + headerLen + 8 ≤ n ∧ (alloc → ip + totalLen + 2 ^ 16 ≤ n))

/-- The options up to the end mark lie in the frame: of each its code and its length, and the values that are used. -/
def OptionsFit (opts optLen n i : ℕ) : Prop :=
  if i < optLen then
    let opt := networkNumber data (opts + i) 1
    let olen := networkNumber data (opts + (i + 1)) 1
    opts + i < n ∧ (opt ≠ dhcpOptEnd →
      if opt = 0 then OptionsFit opts optLen n (i + 1)
      else i + 1 < optLen → opts + (i + 1) < n ∧ (i + 2 + olen ≤ optLen →
        (opt = dhcpOptMessageType ∧ olen = 1 ∨ opt = dhcpOptServerId ∧ olen = 4 → opts + (i + 2) + olen ≤ n) ∧
          OptionsFit opts optLen n (i + 2 + olen)))
  else True
termination_by optLen - i

/-- A DHCP answer lies in the frame as far as it is looked at. -/
def DhcpFits (dhcp len n : ℕ) : Prop :=
  dhcpPacketSize ≤ len → dhcp < n ∧ (networkNumber data dhcp 1 = 2 →
    dhcp + 240 ≤ n ∧ (networkNumber data (dhcp + 236) 4 = dhcpMagicCookie →
      networkNumber data (dhcp + 16) 4 ≠ 0 → OptionsFit data (dhcp + 240) (len - 240) n 0))

/-- The length in a UDP header, less the header. -/
def udpDataLen (udp : ℕ) : ℕ := (networkNumber data (udp + 4) 2 + 2 ^ 16 - 8) % 2 ^ 16

/-- The UDP header lies in the frame, and what is taken of the data by its own length: a DHCP answer, or what the
socket has room for. -/
def UdpFits (udp len n : ℕ) (s : RxState) : Prop :=
  8 ≤ len → udp + 6 ≤ n ∧
    if networkNumber data udp 2 = 67 ∧ networkNumber data (udp + 2) 2 = 68 ∧ ¬s.configured then
      DhcpFits data (udp + 8) (udpDataLen data udp) n
    else ∀ k, udpFind s.net (networkNumber data (udp + 2) 2) = some k →
      min (udpRoom (s.net.udp k)) (udpDataLen data udp) = 0 ∨
        udp + 8 + min (udpRoom (s.net.udp k)) (udpDataLen data udp) ≤ n

/-- What the header of a segment says. -/
def segmentAt (ip tcp len : ℕ) : Segment :=
  ⟨networkNumber data (ip + 12) 4, networkNumber data tcp 2, networkNumber data (tcp + 2) 2,
    networkNumber data (tcp + 4) 4, networkNumber data (tcp + 8) 4, flagsOf (networkNumber data (tcp + 13) 1), 0,
    networkNumber data (tcp + 12) 1 / 16, len, fun _ => 0⟩

/-- The TCP header lies in the frame up to its flags, up to its window if a listener takes it, and so do the bytes
from the data offset on that a connected socket takes. -/
def TcpFits (ip tcp len n : ℕ) (s : RxState) : Prop :=
  let p := segmentAt data ip tcp len
  20 ≤ len → tcp + 14 ≤ n ∧
    if tcpOpens s.net p then tcp + 16 ≤ n
    else tcpTaken s.net p = 0 ∨ tcp + p.dataOffset * 4 + tcpTaken s.net p ≤ n

/-- An IP packet for this host lies in the frame as far as its handler looks at it. -/
def IpFits (ip n : ℕ) (alloc : Bool) (s : RxState) : Prop :=
  let headerLen := networkNumber data ip 1 % 16 * 4
  let totalLen := networkNumber data (ip + 2) 2
  let payloadLen := (totalLen + 2 ^ 16 - headerLen) % 2 ^ 16
  let dst := networkNumber data (ip + 16) 4
  ip + 20 ≤ n → networkNumber data ip 1 / 16 = 4 → ip + totalLen ≤ n → dst = s.net.localIp ∨ dst = 0xFFFFFFFF →
    (networkNumber data (ip + 9) 1 = 1 → IcmpFits data ip headerLen totalLen n alloc) ∧
    (networkNumber data (ip + 9) 1 = 17 → UdpFits data (ip + headerLen) payloadLen n s) ∧
    (networkNumber data (ip + 9) 1 = 6 → TcpFits data ip (ip + headerLen) payloadLen n s)

def FrameFits (n : ℕ) (alloc : Bool) (s : RxState) : Prop :=
  ethHeaderSize ≤ n →
    (networkNumber data 12 2 = ethTypeArp → ArpFits data ethHeaderSize n) ∧
    (networkNumber data 12 2 = ethTypeIp → IpFits data ethHeaderSize n alloc s)

end Net
