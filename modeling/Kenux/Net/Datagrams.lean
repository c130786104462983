import Kenux.Net.Receive

/-!
# Datagrams for a bound socket (`udp_handle_packet` and `sys_recvfrom` of `arch/x86_64/net.c`)

The buffer of a socket keeps the bytes of all datagrams one after the other, and the address of the last sender. So a
datagram is returned as it came if nothing was in the buffer when it arrived and all of it is taken at once.
-/

namespace Net

open Memory RingBuf Run

/-- A datagram, and the address and port of its sender. -/
structure Datagram where
  srcIp : UInt32
  srcPort : UInt16
  payload : List UInt8

/-- What `sys_recvfrom` returns: how many bytes were asked for, the bytes, and the sender's address and port. -/
structure Received where
  len : ℕ
  bytes : List UInt8
  srcIp : ℕ
  srcPort : ℕ

/-- How many bytes are in the buffer, in 32 bits. -/
def udpAvail (b : Mem) : ℕ := (load b udpRxTail 4 + 2 ^ 32 - load b udpRxHead 4) % 2 ^ 32

/-- `udp_handle_packet`, as far as the socket of the datagram goes. -/
def udpArrive (b : Mem) (d : Datagram) : Mem :=
  udpDeliver b (d.payload.take (udpRoom b)) d.srcIp.toNat d.srcPort.toNat

def sysRecvfrom (b : Mem) (len : UInt64) : Received × Mem :=
  let avail := min (udpAvail b) len.toNat
  let head := load b udpRxHead 4
  let bytes := (List.range avail).map fun i => b (udpRxBuf + (head + i) % 2 ^ 32 % udpRxBufSize)
  let b' := store b udpRxHead (head + avail) 4
  let b' := if load b' udpRxHead 4 = load b' udpRxTail 4 then store b' udpHasData 0 4 else b'
  (⟨len.toNat, bytes, load b udpPeerIp 4, load b udpPeerPort 2⟩, b')

/-- The block of the socket, the datagrams that arrived, and what the calls that gave data returned. -/
structure Inbox where
  block : Mem
  arrived : List Datagram
  returned : List Received

inductive InboxStep where
  | arrive (d : Datagram)
  | recvfrom (len : UInt64)

def inboxStep (s : Inbox) : InboxStep → Option Inbox
  | .arrive d => some { s with block := udpArrive s.block d, arrived := s.arrived ++ [d] }
  | .recvfrom len =>
    let (r, b) := sysRecvfrom s.block len
    some { s with block := b, returned := if r.bytes = [] then s.returned else s.returned ++ [r] }

/-- What is returned is a datagram up to the length asked for, with its sender. -/
def Matches (d : Datagram) (r : Received) : Prop :=
  r.bytes = d.payload.take r.len ∧ r.srcIp = d.srcIp.toNat ∧ r.srcPort = d.srcPort.toNat

/-- The calls return datagrams in the order of their arrival, each at most once. -/
def InboxOk (s : Inbox) : Prop := ∃ ds, ds.Sublist s.arrived ∧ List.Forall₂ Matches ds s.returned

/-- A datagram arrives at an empty buffer that it fits; a call takes all that is there, or nothing. -/
def OneAtATime (s : Inbox) : InboxStep → Prop
  | .arrive d => udpAvail s.block = 0 ∧ d.payload.length ≤ udpRxBufSize
  | .recvfrom len => udpAvail s.block ≤ len.toNat ∨ len = 0

/-- Nothing is in the buffer; its counters stand anywhere. -/
def emptyInbox (b : Mem) : Inbox := ⟨b, [], []⟩

variable {b : Mem} {s s' : Inbox} {d : Datagram} {xs : List UInt8} {len : UInt64} {tail i : ℕ}

/-! ## The buffer in the block -/

/-- The cells of the buffer. -/
def udpCells (b : Mem) : ℕ → UInt8 := fun i => b (udpRxBuf + i)

/-- The bytes that are in the buffer. -/
def udpQueued (b : Mem) : List UInt8 := cells udpRxBufSize (udpCells b) (load b udpRxHead 4) (udpAvail b)

theorem udpFill_other (h : i < udpRxBuf ∨ udpRxBuf + udpRxBufSize ≤ i) : udpFill b tail xs i = b i := by
  induction xs generalizing b tail with
  | nil => rfl
  | cons x xs ih =>
    have hlt : tail % udpRxBufSize < udpRxBufSize := Nat.mod_lt _ (by decide)
    unfold udpFill
    rw [ih, Function.update_of_ne (by omega)]

theorem udpFill_cells (b : Mem) (tail : ℕ) (xs : List UInt8) :
    udpCells (udpFill b tail xs) = fill udpRxBufSize (udpCells b) tail xs := by
  induction xs generalizing b tail with
  | nil => rfl
  | cons x xs ih =>
    have hcells : udpCells (Function.update b (udpRxBuf + tail % udpRxBufSize) x) =
        Function.update (udpCells b) (tail % udpRxBufSize) x := by
      funext j
      unfold udpCells
      by_cases hj : j = tail % udpRxBufSize
      · rw [hj, Function.update_self, Function.update_self]
      · rw [Function.update_of_ne hj, Function.update_of_ne (by omega)]
    have hmod : (tail + 1) % 2 ^ 32 % udpRxBufSize = (tail + 1) % udpRxBufSize :=
      Nat.mod_mod_of_dvd _ ⟨524288, by decide⟩
    unfold udpFill fill
    rw [ih, hcells, fill_congr hmod]

theorem load_fill_other {o k : ℕ} (h : udpRxBuf + udpRxBufSize ≤ o) : load (udpFill b tail xs) o k = load b o k :=
  load_congr fun i _ => udpFill_other (.inr (by omega))

/-- The fields behind the buffer after a datagram. -/
theorem udpDeliver_fields (b : Mem) (xs : List UInt8) (d : Datagram) :
    load (udpDeliver b xs d.srcIp.toNat d.srcPort.toNat) udpRxHead 4 = load b udpRxHead 4 ∧
    load (udpDeliver b xs d.srcIp.toNat d.srcPort.toNat) udpRxTail 4 = (load b udpRxTail 4 + xs.length) % 2 ^ 32 ∧
    load (udpDeliver b xs d.srcIp.toNat d.srcPort.toNat) udpPeerIp 4 = d.srcIp.toNat ∧
    load (udpDeliver b xs d.srcIp.toNat d.srcPort.toNat) udpPeerPort 2 = d.srcPort.toNat := by
  have hip := d.srcIp.toNat_lt
  have hport := d.srcPort.toNat_lt
  unfold udpDeliver
  refine ⟨?_, ?_, ?_, ?_⟩
  · rw [load_store_apart (by decide), load_store_apart (by decide), load_store_apart (by decide),
      load_store_apart (by decide), load_store_apart (by decide), load_fill_other (by decide)]
  · rw [load_store_apart (by decide), load_store_apart (by decide), load_store_apart (by decide),
      load_store_apart (by decide), load_store_same]
    rfl
  · rw [load_store_apart (by decide), load_store_apart (by decide), load_store_apart (by decide),
      load_store_of_lt (by omega)]
  · rw [load_store_apart (by decide), load_store_apart (by decide), load_store_of_lt (by omega)]

theorem udpDeliver_cells (b : Mem) (xs : List UInt8) (srcIp srcPort : ℕ) (hi : i < udpRxBufSize) :
    udpCells (udpDeliver b xs srcIp srcPort) i = fill udpRxBufSize (udpCells b) (load b udpRxTail 4) xs i := by
  have hfields : udpRxBuf + i < udpRxTail := by
    unfold udpRxBufSize at hi
    unfold udpRxBuf udpRxTail
    omega
  have hother : ∀ {m : Mem} {o v n : ℕ}, udpRxTail ≤ o → store m o v n (udpRxBuf + i) = m (udpRxBuf + i) :=
    fun ho => store_other (.inl (by omega))
  rw [← udpFill_cells b _ xs]
  unfold udpDeliver udpCells
  dsimp only
  rw [hother (by decide), hother (by decide), hother (by decide), hother (by decide), hother (by decide)]

theorem load_lt_32 (b : Mem) (o : ℕ) : load b o 4 < 2 ^ 32 := load_lt b o 4

/-- A datagram that fits an empty buffer is all that is in it. -/
theorem udpArrive_empty (hempty : udpAvail b = 0) (hfits : d.payload.length ≤ udpRxBufSize) :
    udpQueued (udpArrive b d) = d.payload ∧ load (udpArrive b d) udpPeerIp 4 = d.srcIp.toNat ∧
      load (udpArrive b d) udpPeerPort 2 = d.srcPort.toNat := by
  have hhead := load_lt_32 b udpRxHead
  have htail := load_lt_32 b udpRxTail
  have heq : load b udpRxHead 4 = load b udpRxTail 4 := by
    unfold udpAvail at hempty
    omega
  have hroom : udpRoom b = udpRxBufSize := by
    unfold udpRoom udpRxBufSize
    rw [heq]
    omega
  have htake : d.payload.take (udpRoom b) = d.payload := List.take_of_length_le (by rw [hroom]; exact hfits)
  obtain ⟨hhead', htail', hip, hport⟩ := udpDeliver_fields b d.payload d
  refine ⟨?_, by unfold udpArrive; rw [htake, hip], by unfold udpArrive; rw [htake, hport]⟩
  have havail : udpAvail (udpDeliver b d.payload d.srcIp.toNat d.srcPort.toNat) = d.payload.length := by
    unfold udpRxBufSize at hfits
    unfold udpAvail
    rw [hhead', htail', heq]
    omega
  unfold udpArrive udpQueued
  rw [htake, havail, hhead']
  have hcells : cells udpRxBufSize (udpCells (udpDeliver b d.payload d.srcIp.toNat d.srcPort.toNat))
      (load b udpRxHead 4) d.payload.length = cells udpRxBufSize
        (fill udpRxBufSize (udpCells b) (load b udpRxHead 4 + 0) d.payload) (load b udpRxHead 4 + 0)
        d.payload.length := by
    unfold cells
    apply List.map_congr_left
    intro i hi
    rw [udpDeliver_cells b d.payload _ _ (Nat.mod_lt _ (by decide)), heq, Nat.add_zero]
  rw [hcells, cells_fill_new (by rwa [Nat.zero_add])]

/-! ## The calls -/

theorem recvfrom_bytes (b : Mem) (len : UInt64) :
    (sysRecvfrom b len).1.bytes = (udpQueued b).take len.toNat := by
  have hmod : ∀ i, (load b udpRxHead 4 + i) % 2 ^ 32 % udpRxBufSize = (load b udpRxHead 4 + i) % udpRxBufSize :=
    fun i => Nat.mod_mod_of_dvd _ ⟨524288, by decide⟩
  unfold sysRecvfrom udpQueued
  simp only [hmod]
  rcases Nat.le_total len.toNat (udpAvail b) with hle | hle
  · rw [take_cells hle, Nat.min_eq_right hle]
    rfl
  · rw [List.take_of_length_le (by rwa [length_cells]), Nat.min_eq_left hle]
    rfl

/-- Taking all leaves an empty buffer. -/
theorem recvfrom_all (h : udpAvail b ≤ len.toNat) : udpAvail (sysRecvfrom b len).2 = 0 := by
  have hhead := load_lt_32 b udpRxHead
  have htail := load_lt_32 b udpRxTail
  have hnew : (load b udpRxHead 4 + udpAvail b) % 2 ^ 32 = load b udpRxTail 4 := by
    unfold udpAvail
    omega
  have hstored : load (store b udpRxHead (load b udpRxHead 4 + udpAvail b) 4) udpRxHead 4 = load b udpRxTail 4 := by
    rw [load_store_same]
    exact hnew
  have hkept : load (store b udpRxHead (load b udpRxHead 4 + udpAvail b) 4) udpRxTail 4 = load b udpRxTail 4 :=
    load_store_apart (by decide)
  have hresult : (sysRecvfrom b len).2 =
      store (store b udpRxHead (load b udpRxHead 4 + udpAvail b) 4) udpHasData 0 4 := by
    unfold sysRecvfrom
    rw [Nat.min_eq_left h]
    simp only [hstored, hkept, if_true]
  have hhead' : load (sysRecvfrom b len).2 udpRxHead 4 = load b udpRxTail 4 := by
    rw [hresult, load_store_apart (by decide), hstored]
  have htail' : load (sysRecvfrom b len).2 udpRxTail 4 = load b udpRxTail 4 := by
    rw [hresult, load_store_apart (by decide), hkept]
  unfold udpAvail
  rw [hhead', htail']
  omega

/-- Taking nothing of what is there leaves it. -/
theorem recvfrom_zero (h : udpAvail b ≠ 0) : udpQueued (sysRecvfrom b 0).2 = udpQueued b ∧
    load (sysRecvfrom b 0).2 udpPeerIp 4 = load b udpPeerIp 4 ∧
    load (sysRecvfrom b 0).2 udpPeerPort 2 = load b udpPeerPort 2 := by
  have hhead := load_lt_32 b udpRxHead
  have hstored : load (store b udpRxHead (load b udpRxHead 4) 4) udpRxHead 4 = load b udpRxHead 4 :=
    load_store_of_lt (by omega)
  have hkept : load (store b udpRxHead (load b udpRxHead 4) 4) udpRxTail 4 = load b udpRxTail 4 :=
    load_store_apart (by decide)
  have hne : load b udpRxHead 4 ≠ load b udpRxTail 4 := by
    intro heq
    apply h
    unfold udpAvail
    omega
  have hresult : (sysRecvfrom b 0).2 = store b udpRxHead (load b udpRxHead 4) 4 := by
    unfold sysRecvfrom
    rw [UInt64.toNat_zero, Nat.min_zero]
    simp only [Nat.add_zero, hstored, hkept, if_neg hne]
  rw [hresult]
  refine ⟨?_, load_store_apart (by decide), load_store_apart (by decide)⟩
  have havail : udpAvail (store b udpRxHead (load b udpRxHead 4) 4) = udpAvail b := by
    unfold udpAvail
    rw [hstored, hkept]
  unfold udpQueued
  rw [havail, hstored]
  unfold cells
  apply List.map_congr_left
  intro i hi
  have hlt : (load b udpRxHead 4 + i) % udpRxBufSize < udpRxBufSize := Nat.mod_lt _ (by decide)
  have hends : udpRxBuf + udpRxBufSize ≤ udpRxHead := by decide
  unfold udpCells
  exact store_other (.inl (by omega))

/-! ## Runs -/

/-- What was returned are datagrams before the one that is in the buffer, if one is. -/
def InboxInv (s : Inbox) : Prop :=
  udpAvail s.block = 0 ∧ InboxOk s ∨ ∃ d before ds, s.arrived = before ++ [d] ∧ ds.Sublist before ∧
    List.Forall₂ Matches ds s.returned ∧ udpQueued s.block = d.payload ∧
    load s.block udpPeerIp 4 = d.srcIp.toNat ∧ load s.block udpPeerPort 2 = d.srcPort.toNat

theorem InboxInv.ok (h : InboxInv s) : InboxOk s := by
  rcases h with ⟨-, hok⟩ | ⟨d, before, ds, harrived, hsub, hmatch, -⟩
  · exact hok
  · refine ⟨ds, ?_, hmatch⟩
    rw [harrived]
    exact hsub.trans (List.sublist_append_left before [d])

theorem length_udpQueued (b : Mem) : (udpQueued b).length = udpAvail b := length_cells

theorem InboxInv.arrive (h : InboxInv s) (hempty : udpAvail s.block = 0) (hfits : d.payload.length ≤ udpRxBufSize)
    (hs : inboxStep s (.arrive d) = some s') : InboxInv s' := by
  obtain rfl := Option.some.inj hs
  obtain ⟨ds, hsub, hmatch⟩ := h.ok
  exact .inr ⟨d, s.arrived, ds, rfl, hsub, hmatch, udpArrive_empty hempty hfits⟩

/-- An empty buffer gives no data. -/
theorem recvfrom_none (h : udpAvail b = 0) (len : UInt64) : (sysRecvfrom b len).1.bytes = [] := by
  have hlength := length_udpQueued b
  rw [h, List.length_eq_zero_iff] at hlength
  rw [recvfrom_bytes, hlength, List.take_nil]

theorem InboxInv.recvfrom (h : InboxInv s) (hall : udpAvail s.block ≤ len.toNat ∨ len = 0)
    (hs : inboxStep s (.recvfrom len) = some s') : InboxInv s' := by
  have hs' : s' = { s with block := (sysRecvfrom s.block len).2, returned := if (sysRecvfrom s.block len).1.bytes = []
      then s.returned else s.returned ++ [(sysRecvfrom s.block len).1] } := (Option.some.inj hs).symm
  by_cases hempty : udpAvail s.block = 0
  · rw [if_pos (recvfrom_none hempty len)] at hs'
    obtain ⟨ds, hsub, hmatch⟩ := h.ok
    subst hs'
    exact .inl ⟨recvfrom_all (by omega), ds, hsub, hmatch⟩
  rcases h with ⟨hzero, -⟩ | ⟨d, before, ds, harrived, hsub, hmatch, hqueued, hip, hport⟩
  · exact absurd hzero hempty
  have hlength := length_udpQueued s.block
  rw [hqueued] at hlength
  rcases hall with hall | rfl
  · -- all of the datagram is taken
    have hbytes : (sysRecvfrom s.block len).1.bytes = d.payload.take len.toNat := by
      rw [recvfrom_bytes, hqueued]
    have hne : (sysRecvfrom s.block len).1.bytes ≠ [] := by
      intro hnil
      rw [hbytes, List.take_of_length_le (by omega)] at hnil
      rw [hnil, List.length_nil] at hlength
      exact hempty hlength.symm
    rw [if_neg hne] at hs'
    subst hs'
    refine .inl ⟨recvfrom_all hall, ds ++ [d], ?_, ?_⟩
    · show List.Sublist (ds ++ [d]) s.arrived
      rw [harrived]
      exact hsub.append (List.Sublist.refl [d])
    · exact List.rel_append hmatch (.cons ⟨hbytes, hip, hport⟩ .nil)
  · -- nothing is taken
    have hnone : (sysRecvfrom s.block 0).1.bytes = [] := by
      rw [recvfrom_bytes]
      rfl
    rw [if_pos hnone] at hs'
    subst hs'
    obtain ⟨hqueued', hip', hport'⟩ := recvfrom_zero hempty
    exact .inr ⟨d, before, ds, harrived, hsub, hmatch, hqueued'.trans hqueued, hip'.trans hip, hport'.trans hport⟩

/-- As long as datagrams are taken one at a time, each is returned as it came, wherever the counters stand. -/
theorem datagrams_ok (b : Mem) (hempty : udpAvail b = 0) (s : Inbox)
    (hrun : Reach inboxStep OneAtATime (emptyInbox b) s) : InboxOk s := by
  have hinv : InboxInv s := by
    refine hrun.invariant (.inl ⟨hempty, [], List.Sublist.refl [], .nil⟩) fun s c s' hs hc hstep => ?_
    cases c with
    | arrive d => exact hs.arrive hc.1 hc.2 hstep
    | recvfrom len => exact hs.recvfrom hc hstep
  exact hinv.ok

/-- A datagram from a host, whose last number is `n`. -/
def datagramFrom (n : UInt32) (payload : List UInt8) : Datagram := ⟨0x0A000000 + n, 53, payload⟩

theorem datagrams_ok_one : InboxOk ⟨udpArrive (fun _ => 0) (datagramFrom 1 [7, 8]), [datagramFrom 1 [7, 8]], []⟩ :=
  datagrams_ok (fun _ => 0) rfl _ (.step (.arrive (datagramFrom 1 [7, 8])) .start ⟨rfl, by decide⟩ rfl)

/-- The block when two datagrams wait. -/
def twoWait : Mem := udpArrive (udpArrive (fun _ => 0) (datagramFrom 1 [7])) (datagramFrom 2 [8])

/-- Two datagrams that wait are returned as one, from the second sender. -/
theorem datagrams_merged : ∃ s, run inboxStep (emptyInbox fun _ => 0)
    [.arrive (datagramFrom 1 [7]), .arrive (datagramFrom 2 [8]), .recvfrom 100] = some s ∧ ¬InboxOk s := by
  have hbytes : (sysRecvfrom twoWait 100).1.bytes = [7, 8] := by decide +kernel
  have hlen : (sysRecvfrom twoWait 100).1.len = 100 := rfl
  have hne : (sysRecvfrom twoWait 100).1.bytes ≠ [] := by
    rw [hbytes]
    exact List.cons_ne_nil 7 [8]
  refine ⟨⟨(sysRecvfrom twoWait 100).2, [datagramFrom 1 [7], datagramFrom 2 [8]],
    [(sysRecvfrom twoWait 100).1]⟩, ?_, ?_⟩
  · simp only [run, inboxStep, emptyInbox, Option.bind_some, List.nil_append, List.singleton_append]
    rw [← twoWait, if_neg hne]
  generalize (sysRecvfrom twoWait 100) = r at hbytes hlen ⊢
  rintro ⟨ds, hsub, hmatch⟩
  cases hmatch with
  | cons h₁ hrest =>
    rename_i d ds
    cases hrest
    have htake : [7, 8] = d.payload.take 100 := by
      rw [← hbytes, h₁.1, hlen]
    rcases List.mem_pair.mp (hsub.subset (List.mem_singleton_self d)) with rfl | rfl
    · exact absurd htake (by decide)
    · exact absurd htake (by decide)

end Net
