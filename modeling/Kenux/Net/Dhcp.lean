import Kenux.Net.Proofs.Frames
import Kenux.Net.Proofs.Receive

/-!
# Answers of a DHCP server (`dhcp_send_discover` and `dhcp_parse_response` of `arch/x86_64/net.c`)

The number of the transaction is sent with the discover. The handler of an answer goes by the ports, by the flag that
the host is configured, and by the options; which transaction the answer belongs to it does not look at.
-/

namespace Net

open Memory Reads Run

/-- The host, and the number of the last transaction (`dhcp_xid`). -/
structure DhcpHost where
  rx : RxState
  xid : ℕ

/-- `dhcp_send_discover`, at a value of the time stamp counter. -/
def dhcpSendDiscover (tsc : ℕ) (h : DhcpHost) : DhcpHost := { h with xid := tsc % 2 ^ 32 }

/-- A frame, and whether a reply to it could be allocated. -/
structure RxFrame where
  data : Mem
  len : ℕ
  alloc : Bool

def rxStep (h : DhcpHost) (f : RxFrame) : Option DhcpHost :=
  some { h with rx := (netRxFrame f.data f.len f.alloc h.rx).value }

/-! ## What a frame carries -/

/-- Where the data of a UDP packet is. -/
def udpPayload (data : Mem) : ℕ := 14 + networkNumber data 14 1 % 16 * 4 + 8

/-- A BOOTP reply of a transaction. -/
def BootpReply (data : Mem) (xid : ℕ) : Prop :=
  networkNumber data 12 2 = ethTypeIp ∧ networkNumber data 23 1 = 17 ∧
    networkNumber data (udpPayload data) 1 = 2 ∧ networkNumber data (udpPayload data + 4) 4 = xid

/-- A UDP packet from port 67 to port 68 of this host. -/
def ToClient (data : Mem) (len localIp : ℕ) : Prop :=
  let totalLen := networkNumber data 16 2
  let headerLen := networkNumber data 14 1 % 16 * 4
  34 ≤ len ∧ networkNumber data 12 2 = ethTypeIp ∧ networkNumber data 14 1 / 16 = 4 ∧ totalLen ≤ len - 14 ∧
    (networkNumber data 30 4 = localIp ∨ networkNumber data 30 4 = 0xFFFFFFFF) ∧ networkNumber data 23 1 = 17 ∧
    8 ≤ (totalLen + 2 ^ 16 - headerLen) % 2 ^ 16 ∧ networkNumber data (14 + headerLen) 2 = 67 ∧
    networkNumber data (14 + headerLen + 2) 2 = 68

/-- The options in a field: each has a code, a length and a value, but for the padding; 255 ends them. -/
def optionsOf : List UInt8 → List (UInt8 × List UInt8)
  | [] => []
  | [_] => []
  | code :: n :: rest =>
    if code = 255 then []
    else if code = 0 then optionsOf (n :: rest)
    else if n.toNat ≤ rest.length then (code, rest.take n.toNat) :: optionsOf (rest.drop n.toNat)
    else []
termination_by bytes => bytes.length
decreasing_by
  · exact Nat.lt_succ_self _
  · rw [List.length_drop]
    exact Nat.lt_succ_of_le ((Nat.sub_le _ _).trans (Nat.le_succ _))

/-- The type of a message, if an option says it. -/
def typeOption : UInt8 × List UInt8 → Option ℕ
  | (53, [t]) => some t.toNat
  | _ => none

/-- The type that the last option of this kind says. -/
def messageType (options : List UInt8) : Option ℕ := ((optionsOf options).filterMap typeOption).getLast?

/-- `n` bytes of a frame. -/
def slice (data : Mem) (o n : ℕ) : List UInt8 := (List.range' o n).map data

/-- An acknowledgement of an address, in `n` bytes. -/
def Acknowledges (data : Mem) (dhcp n : ℕ) : Prop :=
  dhcpPacketSize ≤ n ∧ networkNumber data dhcp 1 = 2 ∧ networkNumber data (dhcp + 236) 4 = dhcpMagicCookie ∧
    networkNumber data (dhcp + 16) 4 ≠ 0 ∧ messageType (slice data (dhcp + 240) (n - 240)) = some 5

/-- The address changes, and the host gets configured, by a reply of the transaction only; and an answer is read
within its length. -/
def TransactionOk (h : DhcpHost) (f : RxFrame) : Prop :=
  let rx := (netRxFrame f.data f.len f.alloc h.rx).value
  (rx.net.localIp ≠ h.rx.net.localIp ∨ rx.configured ≠ h.rx.configured → BootpReply f.data h.xid) ∧
    ∀ data len, Within len (dhcpParseResponse data 0 len)

/-- An acknowledgement to a host that is not configured is one of its transaction. -/
def OfTransaction (h : DhcpHost) (f : RxFrame) : Prop :=
  h.rx.configured = false → ToClient f.data f.len h.rx.net.localIp →
    Acknowledges f.data (udpPayload f.data) (udpDataLen f.data (udpPayload f.data - 8)) →
    networkNumber f.data (udpPayload f.data + 4) 4 = h.xid

variable {data : Mem} {n ip len : ℕ} {alloc : Bool} {s : RxState}

/-! ## Options -/

theorem slice_succ (data : Mem) (o n : ℕ) : slice data o (n + 1) = data o :: slice data (o + 1) n := by
  simp [slice, List.range'_succ]

theorem length_slice (data : Mem) (o n : ℕ) : (slice data o n).length = n := by simp [slice]

theorem slice_drop (data : Mem) (o n k : ℕ) : (slice data o n).drop k = slice data (o + k) (n - k) := by
  simp [slice, ← List.map_drop, List.drop_range']

theorem networkNumber_byte (data : Mem) (o : ℕ) : networkNumber data o 1 = (data o).toNat := by
  simp [networkNumber]

theorem typeOption_slice (data : Mem) (code : UInt8) (o : ℕ) {n k : ℕ} (hk : k ≤ n) :
    typeOption (code, (slice data o n).take k) = if code = 53 ∧ k = 1 then some (data o).toNat else none := by
  obtain ⟨n, rfl⟩ | rfl : (∃ m, n = m + 1) ∨ n = 0 := by
    cases n with
    | zero => exact .inr rfl
    | succ n => exact .inl ⟨n, rfl⟩
  · rw [slice_succ]
    match k with
    | 0 => simp [typeOption]
    | 1 =>
      by_cases hcode : code = 53
      · simp [typeOption, hcode]
      · simp [typeOption, hcode]
    | k + 2 =>
      obtain ⟨n, rfl⟩ := Nat.exists_eq_succ_of_ne_zero (show n ≠ 0 by omega)
      rw [slice_succ]
      simp [typeOption]
  · obtain rfl : k = 0 := by omega
    simp [slice, typeOption]

/-- The loop finds the type that the options say. -/
theorem dhcpOptions_type (data : Mem) (opts optLen i : ℕ) (msgType : Option ℕ) (serverId : ℕ) :
    (dhcpOptions data opts optLen i msgType serverId).value.1 =
      ((optionsOf (slice data (opts + i) (optLen - i))).filterMap typeOption).getLast?.or msgType := by
  induction hn : optLen - i using Nat.strong_induction_on generalizing i msgType serverId with
  | _ n ih =>
    unfold dhcpOptions
    by_cases hlt : i < optLen
    · obtain ⟨n, rfl⟩ := Nat.exists_eq_succ_of_ne_zero (show n ≠ 0 by omega)
      have hcode : networkNumber data (opts + i) 1 = (data (opts + i)).toNat := networkNumber_byte ..
      have hlen : networkNumber data (opts + (i + 1)) 1 = (data (opts + i + 1)).toNat := by
        rw [networkNumber_byte, Nat.add_assoc]
      rw [if_pos hlt, slice_succ, value_bind, value_number, hcode]
      have h255 : (data (opts + i)).toNat = dhcpOptEnd ↔ data (opts + i) = 255 := by rw [← UInt8.toNat_inj]; rfl
      have hzero : (data (opts + i)).toNat = 0 ↔ data (opts + i) = 0 := by rw [← UInt8.toNat_inj]; rfl
      have h53 : (data (opts + i)).toNat = dhcpOptMessageType ↔ data (opts + i) = 53 := by rw [← UInt8.toNat_inj]; rfl
      simp only [h255, hzero, h53]
      cases n with
      | zero =>
        have hlast : i + 1 ≥ optLen := by omega
        have hrest := ih 0 (by omega) (i + 1) msgType serverId (by omega)
        by_cases h₁ : data (opts + i) = 255
        · simp [h₁, slice, optionsOf]
          rfl
        by_cases h₂ : data (opts + i) = 0
        · simp [h₂, hrest, slice, optionsOf]
        · simp [h₁, h₂, hlast, slice, optionsOf]
          rfl
      | succ n =>
        have hnotlast : ¬i + 1 ≥ optLen := by omega
        rw [slice_succ, optionsOf]
        by_cases h₁ : data (opts + i) = 255
        · simp [h₁]
          rfl
        by_cases h₂ : data (opts + i) = 0
        · have hrest := ih (n + 1) (by omega) (i + 1) msgType serverId (by omega)
          rw [← Nat.add_assoc, slice_succ] at hrest
          simp [h₂, hrest]
        by_cases h₃ : i + 2 + (data (opts + i + 1)).toNat > optLen
        · have hshort : ¬(data (opts + i + 1)).toNat ≤ n := by omega
          simp [h₁, h₂, hnotlast, h₃, value_bind, value_number, hlen, length_slice, hshort]
          rfl
        · have hfits : (data (opts + i + 1)).toNat ≤ n := by omega
          have hplace : opts + i + 1 + 1 + (data (opts + i + 1)).toNat =
              opts + (i + 2 + (data (opts + i + 1)).toNat) := by omega
          have hrest := fun msgType serverId => ih (n - (data (opts + i + 1)).toNat) (by omega)
            (i + 2 + (data (opts + i + 1)).toNat) msgType serverId (by omega)
          have hoption := typeOption_slice data (data (opts + i)) (opts + i + 1 + 1) hfits
          rw [if_neg h₁, if_neg h₂, if_neg hnotlast, value_bind, value_number, hlen, if_neg h₃, if_neg h₁, if_neg h₂,
            length_slice, if_pos hfits, slice_drop, hplace, List.filterMap_cons, hoption]
          by_cases htype : data (opts + i) = 53 ∧ (data (opts + i + 1)).toNat = 1
          · have hvalue : networkNumber data (opts + (i + 2)) 1 = (data (opts + i + 1 + 1)).toNat :=
              networkNumber_byte ..
            rw [if_pos htype, if_pos htype, value_bind, value_number, hvalue, hrest, List.getLast?_cons]
            simp [Option.or_some]
          · rw [if_neg htype, if_neg htype]
            by_cases hserver : (data (opts + i)).toNat = dhcpOptServerId ∧ (data (opts + i + 1)).toNat = 4
            · rw [if_pos hserver, value_bind, hrest]
            · rw [if_neg hserver, hrest]
    · obtain rfl : n = 0 := by omega
      rw [if_neg hlt]
      simp [slice, optionsOf]
      rfl

/-- The options in the packet are read within its length. -/
theorem optionsFit (data : Mem) (opts optLen i : ℕ) (hn : opts + optLen ≤ n) : OptionsFit data opts optLen n i := by
  induction hk : optLen - i using Nat.strong_induction_on generalizing i with
  | _ k ih =>
    unfold OptionsFit
    by_cases hlt : i < optLen
    · rw [if_pos hlt]
      refine ⟨by omega, fun _ => ?_⟩
      split_ifs
      · exact ih _ (by omega) (i + 1) rfl
      · intro hnext
        refine ⟨by omega, fun hfits => ⟨fun _ => by omega, ?_⟩⟩
        exact ih _ (by omega) _ rfl
    · rw [if_neg hlt]
      trivial

theorem dhcpParseResponse_inside (data : Mem) (len : ℕ) : Within len (dhcpParseResponse data 0 len) := by
  rw [dhcpParseResponse_within]
  intro hlen
  unfold dhcpPacketSize at hlen
  exact ⟨by omega, fun _ => ⟨by omega, fun _ _ => optionsFit data _ _ 0 (by omega)⟩⟩

/-! ## Frames -/

/-- The address and the flag are as they were. -/
def Kept (s s' : RxState) : Prop := s'.net.localIp = s.net.localIp ∧ s'.configured = s.configured

theorem Kept.refl (s : RxState) : Kept s s := ⟨rfl, rfl⟩

theorem dhcpTake_other {r : Option (ℕ × ℕ × ℕ)} (h : r.map Prod.fst ≠ some 5) (s : RxState) : Kept s (dhcpTake s r) := by
  match r with
  | none => exact Kept.refl s
  | some (t, offeredIp, serverIp) =>
    have hack : t ≠ 5 := fun ht => h (by simp [ht])
    by_cases hoffer : t = 2
    · simp [dhcpTake, hoffer, Kept]
    · simp [dhcpTake, hoffer, hack, Kept]

theorem dhcpTake_ack {r : Option (ℕ × ℕ × ℕ)} (h : r.map Prod.fst = some 5) (s : RxState) :
    (dhcpTake s r).configured = true := by
  match r with
  | some (t, offeredIp, serverIp) =>
    obtain rfl : t = 5 := by simpa using h
    simp [dhcpTake]

/-- An answer is taken for an acknowledgement if and only if it is one. -/
theorem dhcpParseResponse_ack (data : Mem) (dhcp n : ℕ) :
    Gives (fun r => r.map Prod.fst = some 5 ↔ Acknowledges data dhcp n) (dhcpParseResponse data dhcp n) := by
  unfold Acknowledges dhcpParseResponse
  -- the number itself is of no concern, and too large to compute with
  generalize dhcpMagicCookie = cookie
  simp only [gives_ite, gives_bind, gives_pure]
  simp only [value_number]
  refine ⟨fun hlen => ?_, fun hlen => ⟨fun hop => ?_, fun hop => ⟨fun hcookie => ?_, fun hcookie =>
    ⟨fun hip => ?_, fun hip => ?_⟩⟩⟩⟩
  · simp
    omega
  · simp [hop]
  · simp [hcookie]
  · simp [hip]
  · have htype := dhcpOptions_type data (dhcp + 240) (n - (dhcpPacketSize - 312)) 0 none 0
    rw [Option.or_none, Nat.add_zero, Nat.sub_zero] at htype
    have hfound : messageType (slice data (dhcp + 240) (n - 240)) =
      (dhcpOptions data (dhcp + 240) (n - (dhcpPacketSize - 312)) 0 none 0).value.1 := htype.symm
    rw [hfound]
    generalize (dhcpOptions data (dhcp + 240) (n - (dhcpPacketSize - 312)) 0 none 0).value.1 = msgType
    have hlen' : dhcpPacketSize ≤ n := by omega
    cases msgType with
    | none => simp
    | some t => simp [hlen', not_not.mp hop, not_not.mp hcookie, hip]

theorem arpHandlePacket_keeps (data : Mem) (arp : ℕ) (s : RxState) : Gives (Kept s) (arpHandlePacket data arp s) := by
  have hlearn : ∀ senderIp, Gives (Kept s) (arpLearn data arp senderIp s) := by
    intro senderIp
    unfold arpLearn
    cases firstBelow s.arpCount fun i => decide ((s.arpCache i).ip = senderIp) with
    | some i => simp [Kept]
    | none => simp [Kept]
  unfold arpHandlePacket
  simp [hlearn, Kept.refl]

theorem icmpHandlePacket_keeps (data : Mem) (ip icmp len : ℕ) (alloc : Bool) (s : RxState) :
    Gives (Kept s) (icmpHandlePacket data ip icmp len alloc s) := by
  unfold icmpHandlePacket
  simp [Kept.refl]

theorem udpToSocket_keeps (data : Mem) (udp dataLen dstPort srcIp srcPort : ℕ) (s : RxState) :
    Gives (Kept s) (udpToSocket data udp dataLen dstPort srcIp srcPort s) := by
  unfold udpToSocket
  cases udpFind s.net dstPort with
  | none => simp [Kept]
  | some k => simp [Kept]

theorem tcpHandlePacket_localIp (p : Segment) (alloc : Bool) (s : State) :
    (tcpHandlePacket p alloc s).localIp = s.localIp := by
  rcases packet_cases p alloc s with h | ⟨-, k, -, -, ⟨-, hsyn, ⟨i, hi⟩, h⟩ | ⟨-, -, h⟩ | ⟨-, h⟩⟩
  · rw [h]
  · rw [h]
    exact (handleListen_spec p alloc hsyn hi).2.1
  · rw [h, set_localIp]
  · rw [h]
    exact (handleEstablished_spec k p alloc s).2.1

theorem tcpReadPacket_keeps (data : Mem) (ip tcp len : ℕ) (alloc : Bool) (s : RxState) :
    Gives (Kept s) (tcpReadPacket data ip tcp len alloc s) := by
  unfold tcpReadPacket
  simp [Kept, tcpHandlePacket_localIp]

/-- The frame has an acknowledgement, and the host waits for one. -/
def Configures (data : Mem) (len : ℕ) (s : RxState) : Prop :=
  s.configured = false ∧ ToClient data len s.net.localIp ∧
    Acknowledges data (udpPayload data) (udpDataLen data (udpPayload data - 8))

/-- What a frame does to the address and the flag. -/
def Effect (data : Mem) (len : ℕ) (s s' : RxState) : Prop :=
  (Configures data len s → s'.configured = true) ∧ (¬Configures data len s → Kept s s')

theorem Effect.other {s' : RxState} (h : ¬Configures data len s) (hkept : Kept s s') : Effect data len s s' :=
  ⟨fun hc => absurd hc h, fun _ => hkept⟩

theorem udpHandlePacket_effect (hclient : ToClient data len s.net.localIp ↔
      8 ≤ n ∧ networkNumber data (udpPayload data - 8) 2 = 67 ∧ networkNumber data (udpPayload data - 8 + 2) 2 = 68) :
    Gives (Effect data len s) (udpHandlePacket data ip (udpPayload data - 8) n s) := by
  have hplace : udpPayload data - 8 + 8 = udpPayload data := by
    unfold udpPayload
    omega
  have hother : ∀ {x : Reading RxState}, ¬Configures data len s → Gives (Kept s) x → Gives (Effect data len s) x :=
    fun hnot hx => Effect.other hnot hx
  unfold udpHandlePacket
  simp only [gives_ite, gives_bind, gives_pure]
  simp only [value_number]
  refine ⟨fun hshort => ?_, fun hlong => ⟨fun hports => ?_, fun hports => ?_⟩⟩
  · refine Effect.other (fun hc => ?_) (Kept.refl s)
    have := (hclient.mp hc.2.1).1
    omega
  · obtain ⟨hsrc, hdst, hflag⟩ := hports
    have hto : ToClient data len s.net.localIp := hclient.mpr ⟨by omega, hsrc, hdst⟩
    have hack := dhcpParseResponse_ack data (udpPayload data) (udpDataLen data (udpPayload data - 8))
    rw [hplace]
    constructor
    · intro hc
      exact dhcpTake_ack (hack.mpr hc.2.2) s
    · intro hc
      exact dhcpTake_other (fun h => hc ⟨by simpa using hflag, hto, hack.mp h⟩) s
  · refine hother (fun hc => ?_) (udpToSocket_keeps ..)
    obtain ⟨-, hsrc, hdst⟩ := hclient.mp hc.2.1
    exact hports ⟨hsrc, hdst, by simp [hc.1]⟩

/-- The IP header is where the Ethernet header ends. -/
theorem ipHandlePacket_effect (hlen : 14 ≤ len) (htype : networkNumber data 12 2 = ethTypeIp) :
    Gives (Effect data len s) (ipHandlePacket data 14 (len - 14) alloc s) := by
  have hudp : 14 + networkNumber data 14 1 % 16 * 4 = udpPayload data - 8 := by
    unfold udpPayload
    omega
  have hother : ∀ {x : Reading RxState}, ¬ToClient data len s.net.localIp → Gives (Kept s) x →
      Gives (Effect data len s) x := fun hnot hx => Effect.other (fun hc => hnot hc.2.1) hx
  have hclient : ∀ h : 34 ≤ len ∧ networkNumber data 14 1 / 16 = 4 ∧ networkNumber data 16 2 ≤ len - 14 ∧
      (networkNumber data 30 4 = s.net.localIp ∨ networkNumber data 30 4 = 0xFFFFFFFF) ∧ networkNumber data 23 1 = 17,
      ToClient data len s.net.localIp ↔
        8 ≤ (networkNumber data 16 2 + 2 ^ 16 - networkNumber data 14 1 % 16 * 4) % 2 ^ 16 ∧
        networkNumber data (udpPayload data - 8) 2 = 67 ∧ networkNumber data (udpPayload data - 8 + 2) 2 = 68 := by
    rintro ⟨h₁, h₂, h₃, h₄, h₅⟩
    unfold ToClient
    dsimp only
    rw [hudp]
    constructor
    · rintro ⟨-, -, -, -, -, -, h⟩
      exact h
    · intro h
      exact ⟨h₁, htype, h₂, h₃, h₄, h₅, h⟩
  unfold ToClient at hother
  unfold ipHandlePacket
  generalize 0xFFFFFFFF = broadcast at hother hclient ⊢
  simp only [gives_ite, gives_bind, gives_pure]
  simp only [value_number, Nat.reduceAdd]
  refine ⟨fun hshort => ?_, fun hshort => ⟨fun hversion => ?_, fun hversion => ⟨fun htotal => ?_, fun htotal =>
    ⟨fun hdst => ?_, fun hdst => ⟨fun hicmp => ?_, fun hicmp => ⟨fun hproto => ?_, fun hproto => ?_⟩⟩⟩⟩⟩⟩
  · exact hother (x := pure s) (fun h => by have := h.1; omega) (Kept.refl s)
  · exact hother (x := pure s) (fun h => hversion h.2.2.1) (Kept.refl s)
  · exact hother (x := pure s) (fun h => by have := h.2.2.2.1; omega) (Kept.refl s)
  · exact hother (x := pure s) (fun h => h.2.2.2.2.1.elim hdst.1 hdst.2) (Kept.refl s)
  · exact hother (fun h => by have := h.2.2.2.2.2.1; omega) (icmpHandlePacket_keeps ..)
  · have hdst' : networkNumber data 30 4 = s.net.localIp ∨ networkNumber data 30 4 = broadcast := by
      by_contra hnot
      exact hdst (not_or.mp hnot)
    rw [hudp]
    exact udpHandlePacket_effect (hclient ⟨by omega, not_not.mp hversion, by omega, hdst', hproto⟩)
  · refine ⟨fun _ => ?_, fun _ => ?_⟩
    · exact hother (fun h => hproto h.2.2.2.2.2.1) (tcpReadPacket_keeps ..)
    · exact hother (x := pure s) (fun h => hproto h.2.2.2.2.2.1) (Kept.refl s)

theorem netRxFrame_effect (data : Mem) (len : ℕ) (alloc : Bool) (s : RxState) :
    Gives (Effect data len s) (netRxFrame data len alloc s) := by
  have hother : ∀ {x : Reading RxState}, ¬ToClient data len s.net.localIp → Gives (Kept s) x →
      Gives (Effect data len s) x := fun hnot hx => Effect.other (fun hc => hnot hc.2.1) hx
  unfold netRxFrame ethHeaderSize
  simp only [gives_ite, gives_bind, gives_pure]
  simp only [value_number]
  refine ⟨fun hlen => ?_, fun hlen => ⟨fun harp => ?_, fun harp => ⟨fun htype => ?_, fun htype => ?_⟩⟩⟩
  · exact hother (x := pure s) (fun h => by have := h.1; omega) (Kept.refl s)
  · refine hother (fun h => ?_) (arpHandlePacket_keeps data 14 s)
    have htype := h.2.1
    rw [harp] at htype
    exact absurd htype (by decide)
  · exact ipHandlePacket_effect (by omega) htype
  · exact hother (x := pure s) (fun h => htype h.2.1) (Kept.refl s)

theorem transactionOk_iff (h : DhcpHost) (f : RxFrame) : TransactionOk h f ↔ OfTransaction h f := by
  obtain ⟨hsets, hkeeps⟩ := netRxFrame_effect f.data f.len f.alloc h.rx
  unfold TransactionOk OfTransaction
  constructor
  · rintro ⟨hreply, -⟩ hflag hto hack
    have hset := hsets ⟨hflag, hto, hack⟩
    exact (hreply (.inr (by rw [hset, hflag]; decide))).2.2.2
  · intro hxid
    refine ⟨fun hchanged => ?_, dhcpParseResponse_inside⟩
    by_cases hc : Configures f.data f.len h.rx
    · obtain ⟨hflag, hto, hack⟩ := hc
      exact ⟨hto.2.1, hto.2.2.2.2.2.1, hack.2.1, hxid hflag hto hack⟩
    · obtain ⟨hip, hflag⟩ := hkeeps hc
      exact absurd hchanged (not_or.mpr ⟨not_not.mpr hip, not_not.mpr hflag⟩)

theorem meets_congr {σ ι : Type} {step : σ → ι → Option σ} {ok ok' : σ → ι → Prop} (h : ∀ s i, ok s i ↔ ok' s i)
    (s : σ) (is : List ι) : Meets step ok s is ↔ Meets step ok' s is := by
  induction is generalizing s with
  | nil => exact Iff.rfl
  | cons i is ih =>
    simp only [Meets, h s i, ih]

/-- A host at first. -/
def unconfiguredHost : DhcpHost := ⟨⟨start 0, fun _ => {}, 0, false, 0⟩, 0⟩

/-- A frame with an acknowledgement of 10.0.0.66 in transaction 0. -/
def forged : Mem
  | 12 => 8
  | 14 => 0x45
  | 16 => 2
  | 17 => 0x44
  | 23 => 17
  | 30 | 31 | 32 | 33 => 255
  | 35 => 67
  | 37 => 68
  | 38 => 2
  | 39 => 0x30
  | 42 => 2
  | 58 => 10
  | 61 => 66
  | 278 => 99
  | 279 => 130
  | 280 => 83
  | 281 => 99
  | 282 => 53
  | 283 => 1
  | 284 => 5
  | 285 => 255
  | _ => 0

theorem forged_type : messageType (slice forged 282 312) = some 5 := by
  have hslice : slice forged 282 312 = 53 :: 1 :: 5 :: 255 :: 0 :: slice forged 287 307 := by
    rw [slice_succ forged 282 311, slice_succ forged 283 310, slice_succ forged 284 309, slice_succ forged 285 308,
      slice_succ forged 286 307]
    rfl
  rw [hslice]
  simp [messageType, optionsOf, typeOption]

end Net
