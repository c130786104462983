import Kenux.Net.Receive

/-!
# Which frames are read beyond their end

One lemma for each handler says which bounds its reads come down to. The total length of a packet for IP is within the
frame, so the bounds of the inner headers follow unless the header length exceeds the total length.
-/

namespace Net

open Memory Reads

variable {data : Mem} {n ip len : ℕ} {alloc : Bool} {s : RxState}

theorem arpLearn_within {arp : ℕ} (h : arp + 18 ≤ n) (senderIp : ℕ) : Within n (arpLearn data arp senderIp s) := by
  unfold arpLearn
  cases firstBelow s.arpCount fun i => decide ((s.arpCache i).ip = senderIp) with
  | none =>
    simp
    omega
  | some i =>
    simp
    omega

theorem arpHandlePacket_within {arp : ℕ} : Within n (arpHandlePacket data arp s) ↔ ArpFits data arp n := by
  unfold arpHandlePacket ArpFits
  have hlearn : arp + 18 ≤ n → Within n (arpLearn data arp (networkNumber data (arp + 14) 4) s) :=
    fun h => arpLearn_within h _
  simp
  simp only [value_number]
  constructor
  · rintro ⟨-, hsender, hrequest, -⟩
    exact ⟨by omega, fun hop => (hrequest hop).1⟩
  · rintro ⟨hsender, hrequest⟩
    refine ⟨by omega, by omega, fun hop => ⟨hrequest hop, fun _ => by omega⟩, fun _ _ => hlearn hsender⟩

theorem icmpHandlePacket_within {icmp : ℕ} (hip : ip + 20 ≤ n) :
    Within n (icmpHandlePacket data ip icmp len alloc s) ↔ (8 ≤ len → icmp < n ∧ (networkNumber data icmp 1 = 8 →
      icmp + 8 ≤ n ∧ (alloc → (len - 8) % 2 ^ 16 = 0 ∨ icmp + 8 + (len - 8) % 2 ^ 16 ≤ n))) := by
  unfold icmpHandlePacket
  simp
  simp only [value_number]
  refine imp_congr_right fun _ => and_congr Iff.rfl (imp_congr_right fun _ => ?_)
  constructor
  · rintro ⟨-, hseq, -, hdata⟩
    exact ⟨by omega, hdata⟩
  · rintro ⟨hheader, hdata⟩
    exact ⟨by omega, by omega, by omega, hdata⟩

theorem dhcpOptions_within {opts optLen i : ℕ} {msgType : Option ℕ} {serverId : ℕ} :
    Within n (dhcpOptions data opts optLen i msgType serverId) ↔ OptionsFit data opts optLen n i := by
  fun_induction OptionsFit data opts optLen n i generalizing msgType serverId with
  | case1 i hlt ih₁ ih₂ =>
    unfold dhcpOptions
    simp [hlt, ih₁]
    simp only [value_number]
    grind
  | case2 i hge =>
    unfold dhcpOptions
    simp [hge]

theorem dhcpParseResponse_within {dhcp : ℕ} :
    Within n (dhcpParseResponse data dhcp len) ↔ DhcpFits data dhcp len n := by
  unfold dhcpParseResponse DhcpFits
  simp
  simp only [value_number, dhcpOptions_within]
  refine imp_congr_right fun _ => and_congr Iff.rfl (imp_congr_right fun _ => ?_)
  constructor
  · rintro ⟨hcookie, hrest⟩
    exact ⟨by omega, fun hmagic hip => (hrest hmagic).2 hip⟩
  · rintro ⟨hcookie, hoptions⟩
    exact ⟨by omega, fun hmagic => ⟨by omega, hoptions hmagic⟩⟩

theorem udpToSocket_within {udp dataLen dstPort srcIp srcPort : ℕ} :
    Within n (udpToSocket data udp dataLen dstPort srcIp srcPort s) ↔ ∀ k, udpFind s.net dstPort = some k →
      min (udpRoom (s.net.udp k)) dataLen = 0 ∨ udp + 8 + min (udpRoom (s.net.udp k)) dataLen ≤ n := by
  unfold udpToSocket
  cases udpFind s.net dstPort with
  | none => simp
  | some k => simp

theorem udpHandlePacket_within {udp : ℕ} (hip : ip + 20 ≤ n) :
    Within n (udpHandlePacket data ip udp len s) ↔ UdpFits data udp len n s := by
  unfold udpHandlePacket UdpFits
  simp only [within_bind, within_number, within_ite, within_pure, implies_true, true_and, and_true, Nat.not_lt]
  simp only [value_number, dhcpParseResponse_within, udpToSocket_within]
  refine imp_congr_right fun _ => ?_
  split_ifs with hdhcp
  · constructor
    · rintro ⟨-, -, -, hlen, hfits, -⟩
      exact ⟨by omega, hfits hdhcp⟩
    · rintro ⟨hheader, hfits⟩
      exact ⟨by omega, by omega, by omega, by omega, fun _ => hfits, fun hno => absurd hdhcp hno⟩
  · constructor
    · rintro ⟨-, -, -, hlen, -, hfits⟩
      exact ⟨by omega, hfits hdhcp⟩
    · rintro ⟨hheader, hfits⟩
      exact ⟨by omega, by omega, by omega, by omega, fun hyes => absurd hyes hdhcp, fun _ => hfits⟩

theorem tcpReadPacket_within {tcp : ℕ} (hip : ip + 20 ≤ n) :
    Within n (tcpReadPacket data ip tcp len alloc s) ↔ TcpFits data ip tcp len n s := by
  unfold tcpReadPacket TcpFits
  simp only [within_bind, within_number, within_bytes, within_ite, within_pure, implies_true, true_and, and_true,
    Nat.not_lt]
  simp only [value_number]
  refine imp_congr_right fun _ => ?_
  change _ ∧ _ ∧ _ ∧ _ ∧ _ ∧ _ ∧ _ ∧ (tcpOpens s.net (segmentAt data ip tcp len) = true → _) ∧
    (¬tcpOpens s.net (segmentAt data ip tcp len) = true → tcpTaken s.net (segmentAt data ip tcp len) = 0 ∨
      tcp + (segmentAt data ip tcp len).dataOffset * 4 + tcpTaken s.net (segmentAt data ip tcp len) ≤ n) ↔ _
  split_ifs with hopens
  · constructor
    · rintro ⟨-, -, -, -, -, hflags, -, hwindow, -⟩
      have hwindow := hwindow hopens
      omega
    · rintro ⟨hheader, hwindow⟩
      exact ⟨by omega, by omega, by omega, by omega, by omega, by omega, by omega, fun _ => by omega,
        fun hno => absurd hopens hno⟩
  · constructor
    · rintro ⟨-, -, -, -, -, hflags, -, -, htaken⟩
      exact ⟨by omega, htaken hopens⟩
    · rintro ⟨hheader, htaken⟩
      exact ⟨by omega, by omega, by omega, by omega, by omega, by omega, by omega, fun hyes => absurd hyes hopens,
        fun _ => htaken⟩

theorem icmp_bounds {headerLen totalLen : ℕ} (hheader : headerLen ≤ 60) (htotal : totalLen < 2 ^ 16)
    (hip : ip + 20 ≤ n) (hin : ip + totalLen ≤ n) :
    Within n (icmpHandlePacket data ip (ip + headerLen) ((totalLen + 2 ^ 16 - headerLen) % 2 ^ 16) alloc s) ↔
      IcmpFits data ip headerLen totalLen n alloc := by
  rw [icmpHandlePacket_within hip]
  unfold IcmpFits
  by_cases hle : headerLen ≤ totalLen
  · refine iff_of_true (fun hlen => ⟨by omega, fun _ => ⟨by omega, fun _ => ?_⟩⟩) (.inl hle)
    omega
  · have hlen : (totalLen + 2 ^ 16 - headerLen) % 2 ^ 16 = totalLen + 2 ^ 16 - headerLen := by omega
    rw [hlen]
    constructor
    · intro h
      obtain ⟨htype, hecho⟩ := h (by omega)
      refine .inr ⟨htype, fun h8 => ⟨(hecho h8).1, fun halloc => ?_⟩⟩
      have hdata := (hecho h8).2 halloc
      omega
    · rintro (hcover | ⟨htype, hecho⟩)
      · exact absurd hcover hle
      · refine fun _ => ⟨htype, fun h8 => ⟨(hecho h8).1, fun halloc => ?_⟩⟩
        have hdata := (hecho h8).2 halloc
        omega

theorem ipHandlePacket_within : Within n (ipHandlePacket data ip (n - ip) alloc s) ↔ IpFits data ip n alloc s := by
  have htotal : networkNumber data (ip + 2) 2 < 2 ^ 16 := networkNumber_lt data (ip + 2) 2
  unfold ipHandlePacket IpFits
  simp only [within_bind, within_number, within_ite, within_pure, implies_true, true_and, and_true]
  simp only [value_number]
  by_cases hip : ip + 20 ≤ n
  swap
  · exact iff_of_true (fun hlen => absurd hlen (by omega)) fun hin => absurd hin hip
  rw [udpHandlePacket_within hip, tcpReadPacket_within hip]
  constructor
  · rintro h - hversion hin hdst
    obtain ⟨-, h⟩ := h (by omega)
    obtain ⟨-, h⟩ := h (not_not.mpr hversion)
    obtain ⟨-, h⟩ := h (by omega)
    obtain ⟨-, -, hicmp, hrest⟩ := h (fun hno => hdst.elim hno.1 hno.2)
    refine ⟨fun hproto => ?_, fun hproto => ?_, fun hproto => ?_⟩
    · exact (icmp_bounds (by omega) htotal hip hin).mp (hicmp hproto)
    · exact (hrest (by omega)).1 hproto
    · exact (hrest (by omega)).2 (by omega) hproto
  · intro h hlen
    refine ⟨by omega, fun hversion => ⟨by omega, fun htotalIn => ⟨by omega, fun hdst => ⟨by omega, by omega, ?_⟩⟩⟩⟩
    have hin : ip + networkNumber data (ip + 2) 2 ≤ n := by omega
    obtain ⟨hicmp, hudp, htcp⟩ := h hip (not_not.mp hversion) hin (by omega)
    refine ⟨fun hproto => ?_, fun _ => ⟨hudp, fun _ => htcp⟩⟩
    exact (icmp_bounds (by omega) htotal hip hin).mpr (hicmp hproto)

/-- A frame is read within its bytes exactly when the packet in it lies in the frame as far as its handler looks. -/
theorem frame_reads_inside_iff (data : Mem) (n : ℕ) (alloc : Bool) (s : RxState) :
    Within n (netRxFrame data n alloc s) ↔ FrameFits data n alloc s := by
  unfold netRxFrame FrameFits
  simp only [within_bind, within_number, within_ite, within_pure, implies_true, true_and, and_true, Nat.not_lt]
  simp only [value_number, arpHandlePacket_within, ipHandlePacket_within]
  refine imp_congr_right fun hlen => ?_
  have htypes : ethTypeArp ≠ ethTypeIp := by decide
  unfold ethHeaderSize at hlen
  constructor
  · rintro ⟨-, harp, hip⟩
    exact ⟨harp, fun hproto => hip (fun hno => htypes (hno.symm.trans hproto)) hproto⟩
  · rintro ⟨harp, hip⟩
    exact ⟨by omega, harp, fun _ => hip⟩

/-- Nothing is known of the network, and no socket is open. -/
def emptyRx : RxState := ⟨start 0, fun _ => {}, 0, false, 0⟩

/-- A frame that ends with its Ethernet header and says that it carries ARP. -/
def shortArp : Mem := fun o => if o = 12 then 8 else if o = 13 then 6 else 0

theorem arp_read_beyond : ¬∀ (data : Mem) (n : ℕ) (alloc : Bool) (s : RxState),
    Within n (netRxFrame data n alloc s) := by
  intro hall
  have hin := hall shortArp 14 true emptyRx 20 (by decide)
  omega

end Net
