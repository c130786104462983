import Kenux.Lib.Memory
import Kenux.Lib.OnesComplement

/-!
# Packets that are sent (`arch/x86_64/net.c`)

A packet is built in a buffer of `memory_alloc`, whose first content is a parameter, as is whether there is one.
-/

namespace Net

open Memory

/-! ## The checksum -/

/-- A word of two bytes in memory. -/
def hostWord (lo hi : UInt8) : UInt32 := lo.toUInt32 ||| hi.toUInt32 <<< 8

/-- The loop of `ip_checksum` over words, and what is left behind them. -/
def ipSum : List UInt8 → UInt32 → UInt32
  | lo :: hi :: data, sum => ipSum data (sum + hostWord lo hi)
  | [last], sum => sum + last.toUInt32
  | [], sum => sum

/-- The loop that adds the upper half to the lower one. -/
def foldCarry (sum : UInt32) : UInt32 :=
  if h : sum >>> 16 ≠ 0 then foldCarry ((sum &&& (0xFFFF : UInt32)) + sum >>> 16) else sum
termination_by sum.toNat
decreasing_by
  have hlow : (sum &&& (0xFFFF : UInt32)).toNat = sum.toNat % 65536 := by
    rw [UInt32.toNat_and]
    exact Nat.and_two_pow_sub_one_eq_mod _ 16
  have hhigh : (sum >>> 16).toNat = sum.toNat / 65536 := by
    rw [UInt32.toNat_shiftRight]
    exact Nat.shiftRight_eq_div_pow _ 16
  have hpos : (sum >>> 16).toNat ≠ 0 := fun hzero => h (UInt32.toNat_inj.mp hzero)
  have hlt := sum.toNat_lt
  rw [UInt32.toNat_add, hlow, hhigh, Nat.mod_eq_of_lt (by omega)]
  omega

def ipChecksum (data : List UInt8) : UInt16 := (~~~foldCarry (ipSum data 0)).toUInt16

def htons (v : UInt16) : UInt16 := v >>> 8 ||| v <<< 8

/-- The two bytes of a number in memory. -/
def hostBytes (v : UInt16) : List UInt8 := [v.toUInt8, (v >>> 8).toUInt8]

/-- The words of a packet in network order, the last one filled up with a zero byte. -/
def networkWords : List UInt8 → List ℕ
  | hi :: lo :: data => (256 * hi.toNat + lo.toNat) :: networkWords data
  | [last] => [256 * last.toNat]
  | [] => []

/-- The words of a packet as they are in memory. -/
def hostWords : List UInt8 → List ℕ
  | lo :: hi :: data => (lo.toNat + 256 * hi.toNat) :: hostWords data
  | [last] => [last.toNat]
  | [] => []

/-- No addition of the loop over words wraps around. -/
def AddsUp : List UInt8 → UInt32 → Prop
  | lo :: hi :: data, sum => sum.toNat + (hostWord lo hi).toNat < 2 ^ 32 ∧ AddsUp data (sum + hostWord lo hi)
  | [last], sum => sum.toNat + last.toNat < 2 ^ 32
  | [], _ => True

/-- The packet with its field of two bytes at word `k` set. -/
def setField (data : List UInt8) (k : ℕ) (v : UInt16) : List UInt8 :=
  data.take (2 * k) ++ hostBytes v ++ data.drop (2 * k + 2)

/-! ## Building a packet -/

/-- A buffer of `memory_alloc`: its size, what it holds, and the place and length of every write to it. -/
structure Packet where
  size : ℕ
  bytes : Mem
  writes : List (ℕ × ℕ)

def Packet.put (p : Packet) (o : ℕ) (xs : List UInt8) : Packet :=
  ⟨p.size, write p.bytes o xs, (o, xs.length) :: p.writes⟩

/-- `memory_alloc` -/
def newPacket (size : ℕ) (dirt : Mem) : Packet := ⟨size, dirt, []⟩

/-- The first `n` bytes from a pointer on. -/
def bytesFrom (m : Mem) (o n : ℕ) : List UInt8 := (List.range n).map fun i => m (o + i)

/-- A number of four bytes in network order. -/
def networkBytes (v : UInt32) : List UInt8 :=
  [(v >>> 24).toUInt8, (v >>> 16).toUInt8, (v >>> 8).toUInt8, v.toUInt8]

abbrev Mac := ℕ → UInt8

/-- An entry of `arp_cache`; its time is never read. -/
structure ArpCacheEntry where
  ip : UInt32
  mac : Mac

/-- The addresses of this host, and the ARP cache. -/
structure Host where
  localMac : Mac
  localIp : UInt32
  gatewayIp : UInt32
  netmask : UInt32
  arpCache : List ArpCacheEntry

/-- `eth_set_mac` -/
def ethSetMac (p : Packet) (o : ℕ) (mac : Mac) : Packet := p.put o (bytesFrom mac 0 6)

/-- The packet of `arp_send_request`, on the stack. -/
def arpRequest (h : Host) (targetIp : UInt32) (dirt : Mem) : Packet :=
  let p := newPacket 42 dirt
  let p := p.put 0 (List.replicate 6 0xFF)
  let p := ethSetMac p 6 h.localMac
  let p := p.put 12 (hostBytes (htons 0x0806))
  let p := p.put 14 (hostBytes (htons 1))
  let p := p.put 16 (hostBytes (htons 0x0800))
  let p := p.put 18 [6, 4]
  let p := p.put 20 (hostBytes (htons 1))
  let p := ethSetMac p 22 h.localMac
  let p := p.put 28 (networkBytes h.localIp)
  let p := p.put 32 (List.replicate 6 0)
  p.put 38 (networkBytes targetIp)

/-- `arp_lookup`: the address that is known, or the one that is asked for. -/
def arpLookup (h : Host) (ip : UInt32) : Mac ⊕ UInt32 :=
  let ip := if ip &&& h.netmask ≠ h.localIp &&& h.netmask then h.gatewayIp else ip
  match h.arpCache.find? fun e => e.ip = ip with
  | some e => .inl e.mac
  | none => .inr ip

/-- The buffers of a call, and the frames that it hands to `net_tx_frame`. -/
structure Sending where
  packets : List Packet
  frames : List (Mem × ℕ)

/-- What a call finds: its own buffer and the one of `ip_send_packet`, unless there is none, and the stack. -/
structure Env where
  upper : Option Mem
  lower : Option Mem
  stack : Mem

def ipSendPacket (h : Host) (env : Env) (dstIp : UInt32) (proto : UInt8) (data : Mem) (len : UInt16) : Sending :=
  let total := 20 + len
  match env.lower with
  | none => ⟨[], []⟩
  | some dirt =>
    let p := newPacket (14 + total.toNat) dirt
    match arpLookup h dstIp with
    | .inr ip => ⟨[p], [((arpRequest h ip env.stack).bytes, 42)]⟩
    | .inl dstMac =>
      let p := ethSetMac p 0 dstMac
      let p := ethSetMac p 6 h.localMac
      let p := p.put 12 (hostBytes (htons 0x0800))
      let p := p.put 14 [0x45, 0]
      let p := p.put 16 (hostBytes (htons total))
      let p := p.put 18 (hostBytes 0)
      let p := p.put 20 (hostBytes 0)
      let p := p.put 22 [64, proto]
      let p := p.put 24 (hostBytes 0)
      let p := p.put 26 (networkBytes h.localIp)
      let p := p.put 30 (networkBytes dstIp)
      let p := p.put 24 (hostBytes (ipChecksum (bytesFrom p.bytes 14 20)))
      let p := p.put 34 (bytesFrom data 0 len.toNat)
      ⟨[p], [(p.bytes, 14 + total.toNat)]⟩

/-- A packet that was built in `p` and is sent by `ip_send_packet`. -/
def sendUpper (h : Host) (env : Env) (dstIp : UInt32) (proto : UInt8) (p : Packet) (total : UInt16) : Sending :=
  let s := ipSendPacket h env dstIp proto p.bytes total
  ⟨p :: s.packets, s.frames⟩

def icmpSendEchoReply (h : Host) (env : Env) (dstIp : UInt32) (id seq : UInt16) (data : Mem) (len : UInt16) :
    Sending :=
  let total := 8 + len
  match env.upper with
  | none => ⟨[], []⟩
  | some dirt =>
    let p := newPacket total.toNat dirt
    let p := p.put 0 [0, 0]
    let p := p.put 2 (hostBytes 0)
    let p := p.put 4 (hostBytes (htons id))
    let p := p.put 6 (hostBytes (htons seq))
    let p := p.put 8 (bytesFrom data 0 len.toNat)
    let p := p.put 2 (hostBytes (ipChecksum (bytesFrom p.bytes 0 total.toNat)))
    sendUpper h env dstIp 1 p total

def udpSendPacket (h : Host) (env : Env) (dstIp : UInt32) (srcPort dstPort : UInt16) (data : Mem) (len : UInt16) :
    Sending :=
  let total := 8 + len
  match env.upper with
  | none => ⟨[], []⟩
  | some dirt =>
    let p := newPacket total.toNat dirt
    let p := p.put 0 (hostBytes (htons srcPort))
    let p := p.put 2 (hostBytes (htons dstPort))
    let p := p.put 4 (hostBytes (htons total))
    let p := p.put 6 (hostBytes 0)
    let p := p.put 8 (bytesFrom data 0 len.toNat)
    sendUpper h env dstIp 17 p total

/-- `sys_sendto`; `localPort` is the port of the socket, unless there is no such socket. -/
def sysSendto (h : Host) (env : Env) (localPort : Option UInt16) (dstIp : UInt32) (dstPort : UInt16) (buf : Mem)
    (len : UInt64) : Sending × Int32 :=
  match localPort with
  | none => (⟨[], []⟩, -1)
  | some srcPort => (udpSendPacket h env dstIp srcPort dstPort buf len.toUInt16, len.toUInt32.toInt32)

/-! ## What sending promises -/

/-- Every byte that is written lies in its buffer. -/
def InBuffers (s : Sending) : Prop := ∀ p ∈ s.packets, ∀ w ∈ p.writes, w.1 + w.2 ≤ p.size

/-- The number in network order at a place of a frame. -/
def field16 (m : Mem) (o : ℕ) : ℕ := 256 * (m o).toNat + (m (o + 1)).toNat

/-- A frame with an IP packet has the payload whole, behind the headers of 34 bytes and more of the upper protocol, and
its length fields say so. -/
def Carries (data : Mem) (upper len : ℕ) (lengthField : Option ℕ) (f : Mem × ℕ) : Prop :=
  field16 f.1 12 = 0x0800 → f.2 = 34 + upper + len ∧ field16 f.1 16 = 20 + upper + len ∧
    (∀ o ∈ lengthField, field16 f.1 (34 + o) = upper + len) ∧ ∀ i < len, f.1 (34 + upper + i) = data i

/-- The buffers hold what is written, and frames carry the payload; one that cannot fit a datagram is not sent. -/
def SendOk (data : Mem) (upper len : ℕ) (lengthField : Option ℕ) (s : Sending) : Prop :=
  InBuffers s ∧ (∀ f ∈ s.frames, Carries data upper len lengthField f) ∧
    (20 + upper + len ≥ 2 ^ 16 → ∀ f ∈ s.frames, field16 f.1 12 ≠ 0x0800)

end Net
