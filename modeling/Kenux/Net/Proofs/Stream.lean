import Kenux.Net.Proofs.Handshakes
import Mathlib.Data.List.GetD

/-!
# The byte stream of a connection

A peer sends one stream of bytes over an established connection. The network may deliver any part of the stream at
any time, and as often as it likes.
-/

namespace Net

open Run RingBuf

/-- The peer: its address, its initial sequence number and the bytes it sends. -/
structure Peer where
  ip : ℕ
  port : ℕ
  isn : ℕ
  stream : List UInt8

/-- What a segment of the stream says besides its data. -/
structure Header where
  dataOffset : ℕ
  ack : ℕ
  window : ℕ
  psh : Bool

/-- The segment with the `n` bytes of the stream from `off` on. -/
def Peer.segment (q : Peer) (port off n : ℕ) (fin : Bool) (h : Header) : Segment :=
  ⟨q.ip, q.port, port, (q.isn + 1 + off) % 2 ^ 32, h.ack, ⟨fin, false, h.psh, true⟩, h.window, h.dataOffset,
    h.dataOffset * 4 + n, fun o => ((q.stream.drop off).take n).getD (o - h.dataOffset * 4) 0⟩

/-- The peer may send the segment: it fits into an IP packet, and its FIN comes with the end of the stream. -/
def Peer.Sends (q : Peer) (off n : ℕ) (fin : Bool) (h : Header) : Prop :=
  off + n ≤ q.stream.length ∧ 5 ≤ h.dataOffset ∧ h.dataOffset ≤ 15 ∧ h.dataOffset * 4 + n < 2 ^ 16 ∧
  (fin = true → off + n = q.stream.length)

instance (q : Peer) (off n : ℕ) (fin : Bool) (h : Header) : Decidable (q.Sends off n fin h) :=
  inferInstanceAs (Decidable (_ ∧ _ ∧ _ ∧ _ ∧ (_ → _)))

inductive StreamCall where
  | deliver (off n : ℕ) (fin : Bool) (h : Header) (alloc : Bool)
  | recv (len : ℕ)
  | send (data : List UInt8) (alloc : ℕ → Bool)
  | shutdown (alloc : Bool)

/-- The tables, the bytes that `sys_recv` returned so far, and the numbers that were acknowledged, each with the count
of bytes stored for the application by then. -/
structure Stream where
  net : State
  received : List UInt8
  acked : List (ℕ × ℕ)

/-- The bytes stored for the application: those it has got and those in the receive buffer. -/
def stored (x : TcpSocket) (received : List UInt8) : List UInt8 :=
  received ++ cells tcpRxBufSize x.rxBuf x.rxHead x.used

/-- After a call; the packets that it sent for block `k` acknowledge something. -/
def Stream.after (s : Stream) (k : ℕ) (net : State) (received : List UInt8) : Stream :=
  ⟨net, received, s.acked ++ ((net.sent.drop s.net.sent.length).filter fun p => p.block = .tcp k).map fun p =>
    (p.ack, (stored (net.tcp k) received).length)⟩

/-- The connection of descriptor `fd` in block `k`, on a local port. -/
def streamStep (q : Peer) (fd k port : ℕ) (s : Stream) : StreamCall → Option Stream
  | .deliver off n fin h alloc =>
    if q.Sends off n fin h then some (s.after k (tcpHandlePacket (q.segment port off n fin h) alloc s.net) s.received)
    else none
  | .recv len =>
    let r := sysRecv fd len s.net
    some (s.after k r.2 (s.received ++ r.1.getD []))
  | .send data alloc => some (s.after k (sysSend fd data alloc s.net).2 s.received)
  | .shutdown alloc => some (s.after k (sysShutdown fd alloc s.net).2 s.received)

/-- The condition on a segment that reaches the connection: the bytes for which there is room are the next ones of the
stream, and no byte behind them is in the segment, unless it is stored already; a FIN comes with bytes that are stored
already. -/
def InOrder (q : Peer) (k port : ℕ) (s : Stream) : StreamCall → Prop
  | .deliver off n fin _ _ =>
    tcpFindSocket port q.ip q.port s.net = some k → (s.net.tcp k).field .state = tcpEstablished →
    if fin then off < (stored (s.net.tcp k) s.received).length
    else 0 < n →
      let count := (stored (s.net.tcp k) s.received).length
      let room := tcpRxBufSize - (s.net.tcp k).used
      ((q.stream.drop off).take n).take room <+: q.stream.drop count ∧ off + n ≤ count + min n room
  | _ => True

/-- Block `k` of descriptor `fd` is a connection with the peer that has got nothing yet. -/
structure Connected (q : Peer) (fd k : ℕ) (s : State) : Prop where
  fd_lt : fd < maxSockets
  block : (s.sockets fd).block = some (.tcp k)
  state : (s.tcp k).field .state = tcpEstablished
  remoteIp : (s.tcp k).field .remoteIp = q.ip
  remotePort : (s.tcp k).field .remotePort = q.port
  rcvNxt : (s.tcp k).field .rcvNxt = (q.isn + 1) % 2 ^ 32
  empty : (s.tcp k).rxHead = (s.tcp k).rxTail
  bounded : (s.tcp k).rxTail < 2 ^ 32

/-- What every run keeps. -/
structure StreamInv (q : Peer) (fd k : ℕ) (s : Stream) : Prop where
  block : (s.net.sockets fd).block = some (.tcp k)
  head_lt : (s.net.tcp k).rxHead < 2 ^ 32
  tail_lt : (s.net.tcp k).rxTail < 2 ^ 32
  used_le : (s.net.tcp k).used ≤ tcpRxBufSize
  stream : stored (s.net.tcp k) s.received <+: q.stream
  rcvNxt : ∃ m ≤ (stored (s.net.tcp k) s.received).length, (s.net.tcp k).field .rcvNxt = (q.isn + 1 + m) % 2 ^ 32
  acked : ∀ a ∈ s.acked, ∃ m ≤ a.2, a.1 = (q.isn + 1 + m) % 2 ^ 32

variable {q : Peer} {fd k port : ℕ} {s s' : State} {b : Block}

/-! ## The packets that are sent -/

theorem send_sent (b : Block) (flags : Flags) (data : List UInt8) (alloc : Bool) (s : State) :
    ∃ l, (tcpSendPacket b flags data alloc s).sent = s.sent ++ l ∧
      ∀ p ∈ l, p.block = b ∧ p.ack = s.get b .rcvNxt := by
  unfold tcpSendPacket
  by_cases halloc : alloc = true
  · rw [if_neg (not_not.mpr halloc)]
    have hkeep (u : State) (c : Bool) (n : ℕ) : (if c then u.set b .sndNxt n else u).sent = u.sent := by
      split_ifs
      · exact set_sent u b .sndNxt n
      · rfl
    dsimp only
    rw [set_sent, hkeep, hkeep]
    exact ⟨_, rfl, by simp⟩
  · rw [if_pos halloc]
    exact ⟨[], (List.append_nil _).symm, by simp⟩

/-- The packets that a call sends for block `k` acknowledge what the block expects next. -/
def Sends (k : ℕ) (s s' : State) : Prop :=
  ∃ l, s'.sent = s.sent ++ l ∧ ∀ p ∈ l, p.block = .tcp k → p.ack = (s'.tcp k).field .rcvNxt

theorem sends_none (hsent : s'.sent = s.sent) : Sends k s s' := ⟨[], by rw [hsent, List.append_nil], by simp⟩

theorem sends_send {u : State} (hsent : u.sent = s.sent) (b : Block) (flags : Flags) (data : List UInt8) (alloc : Bool) :
    Sends k s (tcpSendPacket b flags data alloc u) := by
  obtain ⟨l, hl, hall⟩ := send_sent b flags data alloc u
  refine ⟨l, by rw [hl, hsent], fun p hp hblock => ?_⟩
  obtain ⟨hb, hack⟩ := hall p hp
  obtain rfl := hb.symm.trans hblock
  rw [hack, (changes_send (.tcp k) flags data alloc u).field k .rcvNxt (by decide)]
  rfl

theorem Sends.trans {u : State} (h : Sends k s s') (h' : Sends k s' u)
    (hsame : (u.tcp k).field .rcvNxt = (s'.tcp k).field .rcvNxt) : Sends k s u := by
  obtain ⟨l, hl, hall⟩ := h
  obtain ⟨l', hl', hall'⟩ := h'
  refine ⟨l ++ l', by rw [hl', hl, List.append_assoc], fun p hp hblock => ?_⟩
  rcases List.mem_append.mp hp with hp | hp
  · rw [hsame]
    exact hall p hp hblock
  · exact hall' p hp hblock

/-- A packet for an established connection is answered for its own block only. -/
theorem handleEstablished_sent (k : ℕ) (p : Segment) (alloc : Bool) (s : State) :
    ∃ l, (handleEstablished k p alloc s).sent = s.sent ++ l ∧ ∀ x ∈ l, x.block = .tcp k := by
  unfold handleEstablished
  dsimp only
  by_cases hfin : p.flags.fin = true
  · rw [if_pos hfin, set_sent]
    obtain ⟨l, hl, hall⟩ := send_sent (.tcp k) ackFlag [] alloc (s.set (.tcp k) .rcvNxt (p.seq + 1))
    exact ⟨l, by rw [hl, set_sent], fun x hx => (hall x hx).1⟩
  · rw [if_neg hfin]
    split_ifs
    · obtain ⟨l, hl, hall⟩ := send_sent (.tcp k) ackFlag [] alloc ((s.setTcp k { s.tcp k with
        rxBuf := fill tcpRxBufSize (s.tcp k).rxBuf (s.tcp k).rxTail
          (p.payload.take (min ((tcpRxBufSize + 2 ^ 32 - (s.tcp k).used) % 2 ^ 32) p.payloadLen))
        rxTail := ((s.tcp k).rxTail + min ((tcpRxBufSize + 2 ^ 32 - (s.tcp k).used) % 2 ^ 32) p.payloadLen) % 2 ^ 32
        }).set (.tcp k) .rcvNxt (p.seq + p.payloadLen))
      exact ⟨l, by rw [hl, set_sent]; rfl, fun x hx => (hall x hx).1⟩
    · exact ⟨[], (List.append_nil _).symm, by simp⟩

/-- Sending data changes nothing but where the next packet starts. -/
theorem sendLoop_spec (b : Block) (n : ℕ) (data : List UInt8) (alloc : ℕ → Bool) (s : State) :
    Changes b [.sndNxt] s (sendLoop b n data alloc s) ∧ Sends k s (sendLoop b n data alloc s) := by
  induction n generalizing data alloc s with
  | zero => exact ⟨(Changes.refl b s).mono (List.nil_subset _), sends_none rfl⟩
  | succ n ih =>
    unfold sendLoop
    split_ifs
    · exact ⟨(Changes.refl b s).mono (List.nil_subset _), sends_none rfl⟩
    · dsimp only
      have hsend := changes_send b ⟨false, false, true, true⟩ (data.take tcpMss) (alloc 0) s
      have hfirst : Sends k s (tcpSendPacket b ⟨false, false, true, true⟩ (data.take tcpMss) (alloc 0) s) :=
        sends_send rfl b _ _ _
      obtain ⟨hrest, hsends⟩ := ih (data.drop tcpMss) (fun i => alloc (i + 1))
        (tcpSendPacket b ⟨false, false, true, true⟩ (data.take tcpMss) (alloc 0) s)
      exact ⟨(hsend.trans hrest).mono (by simp), hfirst.trans hsends (hrest.field k .rcvNxt (by decide))⟩

/-! ## The receive buffer -/

/-- Data for which there is room are stored behind those in the buffer. -/
theorem stored_fill {x : TcpSocket} {data received : List UInt8} (hhead : x.rxHead < 2 ^ 32) (htail : x.rxTail < 2 ^ 32)
    (hroom : x.used + data.length ≤ tcpRxBufSize) {x' : TcpSocket}
    (hbuf : x'.rxBuf = fill tcpRxBufSize x.rxBuf x.rxTail data) (hhead' : x'.rxHead = x.rxHead)
    (htail' : x'.rxTail = (x.rxTail + data.length) % 2 ^ 32) :
    x'.used = x.used + data.length ∧ stored x' received = stored x received ++ data := by
  have hused : x'.used = x.used + data.length := by
    unfold TcpSocket.used tcpRxBufSize at *
    rw [hhead', htail']
    omega
  refine ⟨hused, ?_⟩
  unfold stored
  rw [hused, hbuf, hhead', List.append_assoc]
  congr 1
  have hmod : x.rxTail % tcpRxBufSize = (x.rxHead + x.used) % tcpRxBufSize := by
    unfold TcpSocket.used tcpRxBufSize
    omega
  rw [fill_congr hmod]
  exact cells_fill hroom

/-- What is taken from the front of the buffer has been stored before. -/
theorem stored_take {x : TcpSocket} {received : List UInt8} {n : ℕ} (hhead : x.rxHead < 2 ^ 32)
    (hn : n ≤ x.used) (hused : x.used ≤ tcpRxBufSize) {x' : TcpSocket} (hbuf : x'.rxBuf = x.rxBuf)
    (hhead' : x'.rxHead = (x.rxHead + n) % 2 ^ 32) (htail' : x'.rxTail = x.rxTail) :
    x'.used = x.used - n ∧
      stored x' (received ++ cells tcpRxBufSize x.rxBuf x.rxHead n) = stored x received := by
  have hused' : x'.used = x.used - n := by
    unfold TcpSocket.used tcpRxBufSize at *
    rw [hhead', htail']
    omega
  refine ⟨hused', ?_⟩
  unfold stored
  rw [hused', hbuf, hhead', List.append_assoc]
  congr 1
  have hmod : (x.rxHead + n) % 2 ^ 32 % tcpRxBufSize = (x.rxHead + n) % tcpRxBufSize :=
    Nat.mod_mod_of_dvd _ ⟨131072, by decide⟩
  rw [cells_congr hmod]
  have hsplit : x.used = n + (x.used - n) := by omega
  conv_rhs => rw [hsplit, cells_add]

/-! ## The calls -/

/-- The invariant after a call, from what the call did to the block. -/
theorem StreamInv.after {st : Stream} {net : State} {received : List UInt8} (h : StreamInv q fd k st)
    (hsockets : net.sockets = st.net.sockets) (hhead : (net.tcp k).rxHead < 2 ^ 32) (htail : (net.tcp k).rxTail < 2 ^ 32)
    (hused : (net.tcp k).used ≤ tcpRxBufSize) (hstored : stored (net.tcp k) received <+: q.stream)
    (hrcv : ∃ m ≤ (stored (net.tcp k) received).length, (net.tcp k).field .rcvNxt = (q.isn + 1 + m) % 2 ^ 32)
    (hsends : Sends k st.net net) : StreamInv q fd k (st.after k net received) := by
  refine ⟨?_, hhead, htail, hused, hstored, hrcv, fun a ha => ?_⟩
  · change (net.sockets fd).block = _
    rw [hsockets]
    exact h.block
  · obtain ⟨l, hl, hall⟩ := hsends
    unfold Stream.after at ha
    rw [hl, List.drop_left] at ha
    rcases List.mem_append.mp ha with ha | ha
    · exact h.acked a ha
    · obtain ⟨p, hp, rfl⟩ := List.mem_map.mp ha
      obtain ⟨hp, hblock⟩ := List.mem_filter.mp hp
      rw [hall p hp (of_decide_eq_true hblock)]
      exact hrcv

/-- A call that leaves the buffer and the expected number of the block as they are. -/
theorem StreamInv.idle {st : Stream} {net : State} (h : StreamInv q fd k st) (hsockets : net.sockets = st.net.sockets)
    (hring : (net.tcp k).rxBuf = (st.net.tcp k).rxBuf ∧ (net.tcp k).rxHead = (st.net.tcp k).rxHead ∧
      (net.tcp k).rxTail = (st.net.tcp k).rxTail)
    (hrcv : (net.tcp k).field .rcvNxt = (st.net.tcp k).field .rcvNxt) (hsends : Sends k st.net net) :
    StreamInv q fd k (st.after k net st.received) := by
  obtain ⟨hbuf, hhead, htail⟩ := hring
  have hused : (net.tcp k).used = (st.net.tcp k).used := by
    unfold TcpSocket.used
    rw [hhead, htail]
  have hstored : stored (net.tcp k) st.received = stored (st.net.tcp k) st.received := by
    unfold stored
    rw [hused, hbuf, hhead]
  refine h.after hsockets ?_ ?_ ?_ ?_ ?_ hsends
  · rw [hhead]
    exact h.head_lt
  · rw [htail]
    exact h.tail_lt
  · rw [hused]
    exact h.used_le
  · rw [hstored]
    exact h.stream
  · rw [hstored, hrcv]
    exact h.rcvNxt

theorem payload_segment {off n : ℕ} {fin : Bool} {h : Header} (hs : q.Sends off n fin h) :
    (q.segment port off n fin h).payloadLen = n ∧
    (q.segment port off n fin h).payload = (q.stream.drop off).take n := by
  obtain ⟨hlen, hlo, hhi, hfit, -⟩ := hs
  have hn : (q.segment port off n fin h).payloadLen = n := by
    unfold Segment.payloadLen Peer.segment
    dsimp only
    omega
  refine ⟨hn, ?_⟩
  unfold Segment.payload
  rw [hn]
  apply List.ext_getElem
  · simp only [List.length_map, List.length_range, List.length_take, List.length_drop]
    omega
  · intro i hi hi'
    rw [List.getElem_map, List.getElem_range]
    change ((q.stream.drop off).take n).getD (h.dataOffset * 4 + i - h.dataOffset * 4) 0 = _
    rw [Nat.add_sub_cancel_left, List.getD_eq_getElem _ _ hi']

/-- A segment that reaches the connection. -/
theorem inv_established {st : Stream} (h : StreamInv q fd k st) {off n : ℕ} {fin : Bool} {hd : Header} (alloc : Bool)
    (hs : q.Sends off n fin hd)
    (hc : if fin then off < (stored (st.net.tcp k) st.received).length
      else 0 < n →
        ((q.stream.drop off).take n).take (tcpRxBufSize - (st.net.tcp k).used) <+:
          q.stream.drop (stored (st.net.tcp k) st.received).length ∧
        off + n ≤ (stored (st.net.tcp k) st.received).length + min n (tcpRxBufSize - (st.net.tcp k).used)) :
    StreamInv q fd k (st.after k (handleEstablished k (q.segment port off n fin hd) alloc st.net) st.received) := by
  obtain ⟨hlen, hpayload⟩ := @payload_segment _ port _ _ _ _ hs
  have hnumber (m : ℕ) : ((q.isn + 1 + off) % 2 ^ 32 + m) % 256 ^ TcpField.rcvNxt.width =
      (q.isn + 1 + (off + m)) % 2 ^ 32 := by
    have hwidth : 256 ^ TcpField.rcvNxt.width = 2 ^ 32 := rfl
    rw [hwidth]
    omega
  unfold handleEstablished
  dsimp only
  cases fin with
  | true =>
    rw [if_pos (show (q.segment port off n true hd).flags.fin = true from rfl)]
    rw [if_pos rfl] at hc
    generalize hu : st.net.set (.tcp k) .rcvNxt ((q.segment port off n true hd).seq + 1) = u
    have hcu : Changes (.tcp k) [.rcvNxt] st.net u := hu ▸ changes_set st.net (.tcp k) .rcvNxt _
    have hrcv : (u.tcp k).field .rcvNxt = (q.isn + 1 + (off + 1)) % 2 ^ 32 := by
      rw [← hu, set_field_self]
      exact hnumber 1
    have hsend := changes_send (.tcp k) ackFlag [] alloc u
    have hstate := changes_set (tcpSendPacket (.tcp k) ackFlag [] alloc u) (.tcp k) .state tcpCloseWait
    have hsends : Sends k st.net (tcpSendPacket (.tcp k) ackFlag [] alloc u) :=
      sends_send (by rw [← hu, set_sent]) (.tcp k) ackFlag [] alloc
    have hall := (hcu.trans hsend).trans hstate
    obtain ⟨hbuf, hhead, htail⟩ := hall.ring k
    have hused : (((tcpSendPacket (.tcp k) ackFlag [] alloc u).set (.tcp k) .state tcpCloseWait).tcp k).used =
        (st.net.tcp k).used := by
      unfold TcpSocket.used
      rw [hhead, htail]
    have hstored : stored (((tcpSendPacket (.tcp k) ackFlag [] alloc u).set (.tcp k) .state tcpCloseWait).tcp k)
        st.received = stored (st.net.tcp k) st.received := by
      unfold stored
      rw [hused, hbuf, hhead]
    refine h.after hall.sockets (hhead ▸ h.head_lt) (htail ▸ h.tail_lt) (hused ▸ h.used_le) (hstored ▸ h.stream) ?_
      (hsends.trans (sends_none (set_sent ..)) (hstate.field k .rcvNxt (by decide)))
    rw [hstored]
    refine ⟨off + 1, hc, ?_⟩
    rw [hstate.field k .rcvNxt (by decide), hsend.field k .rcvNxt (by decide), hrcv]
  | false =>
    rw [if_neg (show ¬ (q.segment port off n false hd).flags.fin = true from nofun), hlen, hpayload]
    rw [if_neg (by decide)] at hc
    by_cases hpos : n > 0
    · obtain ⟨hpre, hend⟩ := hc hpos
      rw [if_pos hpos]
      have hroom : (tcpRxBufSize + 2 ^ 32 - (st.net.tcp k).used) % 2 ^ 32 = tcpRxBufSize - (st.net.tcp k).used := by
        have := h.used_le
        unfold tcpRxBufSize at *
        omega
      rw [hroom]
      obtain ⟨room, hroom'⟩ : ∃ room, room = tcpRxBufSize - (st.net.tcp k).used := ⟨_, rfl⟩
      rw [← hroom'] at hpre hend ⊢
      have hdata : ((q.stream.drop off).take n).take (min room n) = ((q.stream.drop off).take n).take room := by
        rw [List.take_take, List.take_take]
        congr 1
        omega
      rw [hdata]
      obtain ⟨data, hbytes⟩ : ∃ data, data = ((q.stream.drop off).take n).take room := ⟨_, rfl⟩
      rw [← hbytes] at hpre ⊢
      have hcount : data.length = min room n := by
        rw [hbytes]
        simp only [List.length_take, List.length_drop]
        have := hs.1
        omega
      rw [← hcount]
      generalize hx : ({ st.net.tcp k with
        rxBuf := fill tcpRxBufSize (st.net.tcp k).rxBuf (st.net.tcp k).rxTail data
        rxTail := ((st.net.tcp k).rxTail + data.length) % 2 ^ 32 } : TcpSocket) = x
      have hfits : (st.net.tcp k).used + data.length ≤ tcpRxBufSize := by
        have := h.used_le
        omega
      have hbuf : x.rxBuf = fill tcpRxBufSize (st.net.tcp k).rxBuf (st.net.tcp k).rxTail data := by rw [← hx]
      have hhead : x.rxHead = (st.net.tcp k).rxHead := by rw [← hx]
      have htail : x.rxTail = ((st.net.tcp k).rxTail + data.length) % 2 ^ 32 := by rw [← hx]
      obtain ⟨hused, hstored⟩ := @stored_fill _ data st.received h.head_lt h.tail_lt hfits x hbuf hhead htail
      generalize hu : (st.net.setTcp k x).set (.tcp k) .rcvNxt ((q.segment port off n false hd).seq + n) = u
      have hcu : Changes (.tcp k) [.rcvNxt] (st.net.setTcp k x) u := hu ▸ changes_set _ (.tcp k) .rcvNxt _
      have hsend := changes_send (.tcp k) ackFlag [] alloc u
      have hall := hcu.trans hsend
      have hself : (st.net.setTcp k x).tcp k = x := Function.update_self ..
      obtain ⟨hbuf', hhead', htail'⟩ := hall.ring k
      rw [hself] at hbuf' hhead' htail'
      have hused' : ((tcpSendPacket (.tcp k) ackFlag [] alloc u).tcp k).used = x.used := by
        unfold TcpSocket.used
        rw [hhead', htail']
      have hstored' : stored ((tcpSendPacket (.tcp k) ackFlag [] alloc u).tcp k) st.received =
          stored (st.net.tcp k) st.received ++ data := by
        rw [← hstored]
        unfold stored
        rw [hused', hbuf', hhead']
      refine h.after hall.sockets ?_ ?_ ?_ ?_ ?_ (sends_send (by rw [← hu, set_sent]; rfl) (.tcp k) ackFlag [] alloc)
      · rw [hhead', hhead]
        exact h.head_lt
      · rw [htail', htail]
        exact Nat.mod_lt _ (by decide)
      · rw [hused', hused]
        omega
      · rw [hstored']
        obtain ⟨rest, hrest⟩ := h.stream
        rw [← hrest, List.drop_left] at hpre
        rw [← hrest]
        exact (List.prefix_append_right_inj _).mpr hpre
      · rw [hstored', List.length_append]
        refine ⟨off + n, by omega, ?_⟩
        rw [hsend.field k .rcvNxt (by decide), ← hu, set_field_self]
        exact hnumber n
    · rw [if_neg hpos]
      exact h.idle rfl ⟨rfl, rfl, rfl⟩ rfl (sends_none rfl)

theorem inv_deliver {st : Stream} (h : StreamInv q fd k st) {off n : ℕ} {fin : Bool} {hd : Header} {alloc : Bool}
    (hs : q.Sends off n fin hd) (hc : InOrder q k port st (.deliver off n fin hd alloc)) :
    StreamInv q fd k (st.after k (tcpHandlePacket (q.segment port off n fin hd) alloc st.net) st.received) := by
  rcases packet_cases (q.segment port off n fin hd) alloc st.net with hsame | ⟨-, j, -, hfind,
    ⟨-, hsyn, -⟩ | ⟨hstate, -, hresult⟩ | ⟨hstate, hresult⟩⟩
  · rw [hsame]
    exact h.idle rfl ⟨rfl, rfl, rfl⟩ rfl (sends_none rfl)
  · exact nomatch hsyn
  · rw [hresult]
    have hchanges := changes_set st.net (.tcp j) .state tcpEstablished
    exact h.idle hchanges.sockets (hchanges.ring k) (hchanges.field k .rcvNxt (by decide)) (sends_none (set_sent ..))
  · rw [hresult]
    by_cases hjk : j = k
    · subst hjk
      exact inv_established h alloc hs (hc hfind hstate)
    · -- another block with the same addresses
      obtain ⟨hsockets, -, hother, -⟩ := handleEstablished_spec j (q.segment port off n fin hd) alloc st.net
      have hk := hother k (Ne.symm hjk)
      refine h.idle hsockets (by rw [hk]; exact ⟨rfl, rfl, rfl⟩) (by rw [hk]) ?_
      obtain ⟨l, hl, hall⟩ := handleEstablished_sent j (q.segment port off n fin hd) alloc st.net
      exact ⟨l, hl, fun p hp hblock => absurd (Block.tcp.inj ((hall p hp).symm.trans hblock)) hjk⟩

theorem inv_recv {st : Stream} (h : StreamInv q fd k st) (hfd : fd < maxSockets) (len : ℕ) :
    StreamInv q fd k (st.after k (sysRecv fd len st.net).2 (st.received ++ (sysRecv fd len st.net).1.getD [])) := by
  unfold sysRecv
  rw [if_neg (Nat.not_le.mpr hfd), h.block]
  dsimp only
  obtain ⟨n, hn⟩ : ∃ n, n = min (st.net.tcp k).used len := ⟨_, rfl⟩
  rw [← hn, Option.getD_some]
  generalize hx : ({ st.net.tcp k with rxHead := ((st.net.tcp k).rxHead + n) % 2 ^ 32 } : TcpSocket) = x
  have hle : n ≤ (st.net.tcp k).used := by omega
  have hbuf : x.rxBuf = (st.net.tcp k).rxBuf := by rw [← hx]
  have hhead : x.rxHead = ((st.net.tcp k).rxHead + n) % 2 ^ 32 := by rw [← hx]
  have htail : x.rxTail = (st.net.tcp k).rxTail := by rw [← hx]
  obtain ⟨hused, hstored⟩ := @stored_take _ st.received n h.head_lt hle h.used_le x hbuf hhead htail
  have hself : (st.net.setTcp k x).tcp k = x := Function.update_self ..
  refine h.after rfl ?_ ?_ ?_ ?_ ?_ (sends_none rfl)
  · rw [hself, hhead]
    exact Nat.mod_lt _ (by decide)
  · rw [hself, htail]
    exact h.tail_lt
  · rw [hself, hused]
    have := h.used_le
    omega
  · rw [hself, hstored]
    exact h.stream
  · rw [hself, hstored, ← hx]
    exact h.rcvNxt

theorem inv_send {st : Stream} (h : StreamInv q fd k st) (data : List UInt8) (alloc : ℕ → Bool) :
    StreamInv q fd k (st.after k (sysSend fd data alloc st.net).2 st.received) := by
  have hsame : StreamInv q fd k (st.after k st.net st.received) := h.idle rfl ⟨rfl, rfl, rfl⟩ rfl (sends_none rfl)
  unfold sysSend
  rw [h.block]
  dsimp only
  split_ifs
  · exact hsame
  · exact hsame
  · obtain ⟨hchanges, hsends⟩ := sendLoop_spec (k := k) (.tcp k) data.length data alloc st.net
    exact h.idle hchanges.sockets (hchanges.ring k) (hchanges.field k .rcvNxt (by decide)) hsends

theorem inv_shutdown_stream {st : Stream} (h : StreamInv q fd k st) (alloc : Bool) :
    StreamInv q fd k (st.after k (sysShutdown fd alloc st.net).2 st.received) := by
  have hchanges := (changes_shutdown alloc h.block).1
  refine h.idle hchanges.sockets (hchanges.ring k) (hchanges.field k .rcvNxt (by decide)) ?_
  unfold sysShutdown
  rw [h.block]
  dsimp only
  split_ifs
  · exact sends_none rfl
  · exact sends_send (set_sent ..) (.tcp k) _ [] alloc
  · exact sends_none rfl

/-- In every run of a connection whose segments meet the condition, what `sys_recv` returned is a prefix of the peer's
stream, and each number acknowledged is at most the initial one plus one plus the count of bytes stored by then. -/
theorem stream_prefix (q : Peer) (fd k port : ℕ) (s₀ : State) (h₀ : Connected q fd k s₀) (st : Stream)
    (hrun : Reach (streamStep q fd k port) (InOrder q k port) ⟨s₀, [], []⟩ st) :
    st.received <+: q.stream ∧ ∀ a ∈ st.acked, ∃ m ≤ a.2, a.1 = (q.isn + 1 + m) % 2 ^ 32 := by
  have hused : (s₀.tcp k).used = 0 := by
    unfold TcpSocket.used
    rw [h₀.empty]
    omega
  have hstart : StreamInv q fd k ⟨s₀, [], []⟩ := by
    refine ⟨h₀.block, h₀.empty ▸ h₀.bounded, h₀.bounded, ?_, ?_, ⟨0, Nat.zero_le _, h₀.rcvNxt⟩, by simp⟩
    · change (s₀.tcp k).used ≤ _
      rw [hused]
      exact Nat.zero_le _
    · change stored (s₀.tcp k) [] <+: _
      unfold stored
      rw [hused]
      exact List.nil_prefix
  have hinv : StreamInv q fd k st := by
    refine hrun.invariant hstart fun st c st' h hc hstep => ?_
    cases c with
    | deliver off n fin hd alloc =>
      simp only [streamStep] at hstep
      split_ifs at hstep with hs
      exact Option.some.inj hstep ▸ inv_deliver h hs hc
    | recv len => exact Option.some.inj hstep ▸ inv_recv h h₀.fd_lt len
    | send data alloc => exact Option.some.inj hstep ▸ inv_send h data alloc
    | shutdown alloc => exact Option.some.inj hstep ▸ inv_shutdown_stream h alloc
  refine ⟨?_, hinv.acked⟩
  have hfirst : st.received <+: stored (st.net.tcp k) st.received := List.prefix_append ..
  exact hfirst.trans hinv.stream

/-- A connection on port 80 was accepted, and the listener was closed. -/
def connected : State :=
  let s := (sysListen 0 (sysBind 0 1 80 (sysSocket 2 .stream (start 1)).2).2).2
  (sysCloseSocket 0 true (sysAccept 0 (tcpHandlePacket synSegment true s)).2).2

/-- The peer that sent the SYN, with two bytes to send. -/
def peer : Peer := ⟨9, 1000, 0, [1, 2]⟩

def plainHeader : Header := ⟨5, 0, 0, false⟩

theorem connected_peer : Connected peer 1 1 connected :=
  ⟨by decide, rfl, rfl, rfl, rfl, rfl, rfl, by decide⟩

theorem stream_prefix_two : ∃ st, run (streamStep peer 1 1 80) ⟨connected, [], []⟩
    [.deliver 0 2 false plainHeader true] = some st ∧
    st.received <+: peer.stream ∧ ∀ a ∈ st.acked, ∃ m ≤ a.2, a.1 = (peer.isn + 1 + m) % 2 ^ 32 := by
  obtain ⟨st, hst⟩ : ∃ st, streamStep peer 1 1 80 ⟨connected, [], []⟩ (.deliver 0 2 false plainHeader true) = some st :=
    ⟨_, rfl⟩
  refine ⟨st, ?_, stream_prefix peer 1 1 80 connected connected_peer st (.step _ .start ?_ hst)⟩
  · rw [run_cons hst, run_nil]
  · intro _ _
    rw [if_neg (by decide)]
    intro _
    have hused : (connected.tcp 1).used = 0 := rfl
    change ((peer.stream.drop 0).take 2).take (tcpRxBufSize - (connected.tcp 1).used) <+:
      peer.stream.drop (stored (connected.tcp 1) []).length ∧
      0 + 2 ≤ (stored (connected.tcp 1) []).length + min 2 (tcpRxBufSize - (connected.tcp 1).used)
    unfold stored
    rw [hused]
    decide

/-- A segment that comes twice is stored twice. -/
theorem stream_not_prefix : ∃ st, run (streamStep peer 1 1 80) ⟨connected, [], []⟩
    [.deliver 0 1 false plainHeader true, .deliver 0 1 false plainHeader true, .recv 2] = some st ∧
    st.received = [1, 1] ∧ ¬ st.received <+: peer.stream := by
  refine ⟨_, rfl, rfl, ?_⟩
  decide

end Net
