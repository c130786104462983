import Kenux.Net.Proofs.Checksum

/-!
# Sizes of packets that are sent

A length that fits with all headers in front of it is never cut; one that does not makes the size of some buffer wrap
around, or is cut before it gets there.
-/

namespace Net

open Memory

variable {p : Packet} {o k n : ℕ} {xs : List UInt8} {h : Host} {env : Env} {data : Mem} {len : UInt16}

@[simp] theorem length_hostBytes (v : UInt16) : (hostBytes v).length = 2 := rfl

@[simp] theorem length_networkBytes (v : UInt32) : (networkBytes v).length = 4 := rfl

@[simp] theorem length_bytesFrom (m : Mem) (o n : ℕ) : (bytesFrom m o n).length = n := by
  simp [bytesFrom]

@[simp] theorem put_size (p : Packet) (o : ℕ) (xs : List UInt8) : (p.put o xs).size = p.size := rfl

@[simp] theorem put_writes (p : Packet) (o : ℕ) (xs : List UInt8) :
    (p.put o xs).writes = (o, xs.length) :: p.writes := rfl

theorem put_other (hk : k < o ∨ o + xs.length ≤ k) : (p.put o xs).bytes k = p.bytes k := write_other hk

theorem put_bytesFrom (m : Mem) {i : ℕ} (hi : i < n) : (p.put o (bytesFrom m 0 n)).bytes (o + i) = m i := by
  have hlen : i < (bytesFrom m 0 n).length := by simpa using hi
  have hget := write_get (m := p.bytes) (a := o) hlen
  simpa [bytesFrom, Packet.put] using hget

theorem field16_put_other (hk : k + 2 ≤ o ∨ o + xs.length ≤ k) : field16 (p.put o xs).bytes k = field16 p.bytes k := by
  unfold field16
  rw [put_other (by omega), put_other (by omega)]

/-- A number that is put down in network order. -/
theorem field16_put_self (p : Packet) (o : ℕ) (v : UInt16) :
    field16 (p.put o (hostBytes (htons v))).bytes o = v.toNat := by
  have hlt := v.toNat_lt
  have hlow : (p.put o (hostBytes (htons v))).bytes o = (htons v).toUInt8 := by
    simp [Packet.put, hostBytes, write]
  have hhigh : (p.put o (hostBytes (htons v))).bytes (o + 1) = (htons v >>> 8).toUInt8 := by
    simp [Packet.put, hostBytes, write]
  have hshift : (htons v >>> 8).toNat = (htons v).toNat / 256 := by
    rw [UInt16.toNat_shiftRight]
    exact Nat.shiftRight_eq_div_pow _ 8
  have hhigh' : (256 * (v.toNat % 256) + v.toNat / 256) / 256 = v.toNat % 256 := by omega
  unfold field16
  rw [hlow, hhigh, UInt16.toNat_toUInt8, UInt16.toNat_toUInt8, hshift, htons_toNat, hhigh']
  omega

/-! ## The layers -/

theorem arpRequest_type (h : Host) (ip : UInt32) (dirt : Mem) : field16 (arpRequest h ip dirt).bytes 12 = 0x0806 := by
  simp [arpRequest, ethSetMac, field16_put_other, field16_put_self]

/-- With its header a packet fits into its buffer. -/
theorem ipSendPacket_fits (h : Host) (env : Env) (data : Mem) (hlen : 20 + len.toNat < 2 ^ 16) (dstIp : UInt32)
    (proto : UInt8) :
    InBuffers (ipSendPacket h env dstIp proto data len) ∧
      ∀ f ∈ (ipSendPacket h env dstIp proto data len).frames, field16 f.1 12 = 0x0800 →
        f.2 = 34 + len.toNat ∧ field16 f.1 16 = 20 + len.toNat ∧ ∀ i < len.toNat, f.1 (34 + i) = data i := by
  have htotal : (20 + len).toNat = 20 + len.toNat := by
    rw [UInt16.toNat_add]
    exact Nat.mod_eq_of_lt hlen
  unfold ipSendPacket
  cases env.lower with
  | none => simp [InBuffers]
  | some dirt =>
    cases arpLookup h dstIp with
    | inr ip =>
      simp only [InBuffers, List.mem_singleton, forall_eq]
      refine ⟨by simp [newPacket], ?_⟩
      intro htype
      rw [arpRequest_type] at htype
      simp at htype
    | inl mac =>
      simp only [InBuffers, List.mem_singleton, forall_eq]
      refine ⟨?_, ?_⟩
      · simp only [put_writes, put_size, ethSetMac, newPacket, htotal, length_hostBytes, length_networkBytes,
          length_bytesFrom, List.forall_mem_cons, List.length_cons, List.length_nil]
        simp only [List.not_mem_nil, false_implies, implies_true, and_true]
        omega
      · intro htype
        refine ⟨by omega, ?_, fun i hi => put_bytesFrom data hi⟩
        simp [ethSetMac, field16_put_other, field16_put_self, htotal]

/-- The host that knows the address of every packet it sends. -/
def neighbour (dstIp : UInt32) : Host := ⟨fun _ => 0, 0, 0, 0, [⟨dstIp, fun _ => 0⟩]⟩

/-- Every buffer is there. -/
def plenty : Env := ⟨some fun _ => 0, some fun _ => 0, fun _ => 0⟩

theorem arpLookup_neighbour (dstIp : UInt32) : arpLookup (neighbour dstIp) dstIp = .inl fun _ => 0 := by
  simp [arpLookup, neighbour]

/-- The header makes the length wrap around, and the payload goes beyond the buffer. -/
theorem ipSendPacket_overflows (hlen : 2 ^ 16 ≤ 20 + len.toNat) (dstIp : UInt32) (proto : UInt8) :
    ¬InBuffers (ipSendPacket (neighbour dstIp) plenty dstIp proto data len) := by
  have hlt := len.toNat_lt
  have htotal : (20 + len).toNat = 20 + len.toNat - 2 ^ 16 := by
    rw [UInt16.toNat_add]
    show (20 + len.toNat) % 2 ^ 16 = _
    omega
  intro hin
  simp only [ipSendPacket, plenty, arpLookup_neighbour] at hin
  have hlast := hin _ (List.mem_singleton.mpr rfl) (34, len.toNat) (by simp)
  simp only [put_size, ethSetMac, newPacket, htotal] at hlast
  omega

theorem ipSendPacket_sends (dstIp : UInt32) (proto : UInt8) (data : Mem) (len : UInt16) :
    ∃ f ∈ (ipSendPacket (neighbour dstIp) plenty dstIp proto data len).frames, field16 f.1 12 = 0x0800 := by
  simp only [ipSendPacket, plenty, arpLookup_neighbour]
  refine ⟨_, List.mem_singleton.mpr rfl, ?_⟩
  simp [ethSetMac, field16_put_other, field16_put_self]

/-- The upper protocols have headers of eight bytes. -/
theorem sendUpper_ok {total : UInt16} {lengthField : Option ℕ} (htotal : total.toNat = 8 + n) (hn : 28 + n < 2 ^ 16)
    (hp : ∀ w ∈ p.writes, w.1 + w.2 ≤ p.size) (hdata : ∀ i < n, p.bytes (8 + i) = data i)
    (hfield : ∀ o ∈ lengthField, o + 2 ≤ 8 ∧ field16 p.bytes o = 8 + n) (dstIp : UInt32) (proto : UInt8) :
    SendOk data 8 n lengthField (sendUpper h env dstIp proto p total) := by
  have hsmall : 20 + total.toNat < 2 ^ 16 := by omega
  obtain ⟨hin, hframes⟩ := ipSendPacket_fits h env p.bytes hsmall dstIp proto
  refine ⟨?_, ?_, fun hlarge => by omega⟩
  · simp only [InBuffers, sendUpper, List.forall_mem_cons]
    exact ⟨hp, hin⟩
  · intro f hf htype
    obtain ⟨hsize, hlen, hbytes⟩ := hframes f hf htype
    refine ⟨by omega, by omega, ?_, ?_⟩
    · intro o ho
      obtain ⟨hlt, hvalue⟩ := hfield o ho
      have hfirst := hbytes o (by omega)
      have hsecond := hbytes (o + 1) (by omega)
      rw [← Nat.add_assoc] at hsecond
      unfold field16 at hvalue ⊢
      rw [hfirst, hsecond, hvalue]
    · intro i hi
      rw [Nat.add_assoc, hbytes (8 + i) (by omega), hdata i hi]

theorem sendUpper_overflows {total : UInt16} (htotal : total.toNat = 8 + n) (hn : 2 ^ 16 ≤ 28 + n) (p : Packet)
    (dstIp : UInt32) (proto : UInt8) : ¬InBuffers (sendUpper (neighbour dstIp) plenty dstIp proto p total) := by
  intro hin
  simp only [InBuffers, sendUpper, List.forall_mem_cons] at hin
  exact ipSendPacket_overflows (by omega) dstIp proto hin.2

/-- A packet whose payload goes beyond its buffer. -/
theorem sendUpper_cut {total : UInt16} (hwrite : (8, n) ∈ p.writes) (hsize : p.size < 8 + n) (dstIp : UInt32)
    (proto : UInt8) : ¬InBuffers (sendUpper h env dstIp proto p total) := by
  intro hin
  simp only [InBuffers, sendUpper, List.forall_mem_cons] at hin
  have := hin.1 _ hwrite
  omega

theorem header_add (len : UInt16) : (8 + len).toNat = (8 + len.toNat) % 2 ^ 16 := UInt16.toNat_add _ _

theorem icmp_ok (hlen : 28 + len.toNat < 2 ^ 16) (dstIp : UInt32) (id seq : UInt16) :
    SendOk data 8 len.toNat none (icmpSendEchoReply h env dstIp id seq data len) := by
  have htotal : (8 + len).toNat = 8 + len.toNat := by rw [header_add, Nat.mod_eq_of_lt (by omega)]
  unfold icmpSendEchoReply
  cases env.upper with
  | none => simp [SendOk, InBuffers]
  | some dirt =>
    refine sendUpper_ok htotal hlen ?_ ?_ (by simp) dstIp 1
    · simp [newPacket, htotal]
      omega
    · intro i hi
      rw [put_other (.inr (by simp; omega)), put_bytesFrom data hi]

theorem icmp_overflows (hlen : 2 ^ 16 ≤ 28 + len.toNat) (dstIp : UInt32) (id seq : UInt16) :
    ¬InBuffers (icmpSendEchoReply (neighbour dstIp) plenty dstIp id seq data len) := by
  have hlt := len.toNat_lt
  have htotal := header_add len
  by_cases hcut : 8 + len.toNat < 2 ^ 16
  · exact sendUpper_overflows (by rw [htotal, Nat.mod_eq_of_lt hcut]) hlen _ dstIp 1
  · exact sendUpper_cut (n := len.toNat) (by simp) (by simp only [put_size, newPacket]; omega) dstIp 1

theorem udp_ok (h : Host) (env : Env) (data : Mem) (hlen : 28 + len.toNat < 2 ^ 16) (dstIp : UInt32) (srcPort dstPort : UInt16) :
    SendOk data 8 len.toNat (some 4) (udpSendPacket h env dstIp srcPort dstPort data len) := by
  have htotal : (8 + len).toNat = 8 + len.toNat := by rw [header_add, Nat.mod_eq_of_lt (by omega)]
  unfold udpSendPacket
  cases env.upper with
  | none => simp [SendOk, InBuffers]
  | some dirt =>
    refine sendUpper_ok htotal hlen ?_ (fun i hi => put_bytesFrom data hi) ?_ dstIp 17
    · simp [newPacket, htotal]
      omega
    · simp [field16_put_other, field16_put_self, htotal]

theorem udp_overflows (hlen : 2 ^ 16 ≤ 28 + len.toNat) (dstIp : UInt32) (srcPort dstPort : UInt16) :
    ¬InBuffers (udpSendPacket (neighbour dstIp) plenty dstIp srcPort dstPort data len) := by
  have hlt := len.toNat_lt
  have htotal := header_add len
  by_cases hcut : 8 + len.toNat < 2 ^ 16
  · exact sendUpper_overflows (by rw [htotal, Nat.mod_eq_of_lt hcut]) hlen _ dstIp 17
  · exact sendUpper_cut (n := len.toNat) (by simp) (by simp only [put_size, newPacket]; omega) dstIp 17

/-! ## The calls -/

/-- What `sys_sendto` promises: the same, and an error for what does not fit. -/
def SendtoOk (buf : Mem) (len : ℕ) (r : Sending × Int32) : Prop :=
  SendOk buf 8 len (some 4) r.1 ∧ (28 + len ≥ 2 ^ 16 → r.2.toInt < 0)

theorem sendto_ok {len : UInt64} (hlen : 28 + len.toNat < 2 ^ 16) (localPort : Option UInt16) (dstIp : UInt32)
    (dstPort : UInt16) (buf : Mem) :
    SendtoOk buf len.toNat (sysSendto h env localPort dstIp dstPort buf len) := by
  have hcut : len.toUInt16.toNat = len.toNat := by
    rw [UInt64.toNat_toUInt16]
    exact Nat.mod_eq_of_lt (by omega)
  cases localPort with
  | none => exact ⟨by simp [sysSendto, SendOk, InBuffers], fun hlarge => by omega⟩
  | some srcPort =>
    refine ⟨?_, fun hlarge => by omega⟩
    have hudp := udp_ok h env buf (by rwa [hcut]) dstIp srcPort dstPort
    rwa [hcut] at hudp

/-- What is too long is cut to 16 bits: it may still be too long, or it is sent. -/
theorem sendto_not_ok {len : UInt64} (hlen : 2 ^ 16 ≤ 28 + len.toNat) (srcPort : UInt16) (dstIp : UInt32)
    (dstPort : UInt16) (buf : Mem) :
    ¬SendOk buf 8 len.toNat (some 4) (sysSendto (neighbour dstIp) plenty (some srcPort) dstIp dstPort buf len).1 := by
  intro hok
  by_cases hcut : 2 ^ 16 ≤ 28 + len.toUInt16.toNat
  · exact udp_overflows hcut dstIp srcPort dstPort hok.1
  · obtain ⟨f, hf, htype⟩ := ipSendPacket_sends dstIp 17 _ (8 + len.toUInt16)
    exact hok.2.2 (by omega) f hf htype

end Net
