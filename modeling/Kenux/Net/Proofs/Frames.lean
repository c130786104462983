import Kenux.Net.Model

/-!
# What the calls and the packets change
-/

namespace Net

open Memory
open Function (update_self update_of_ne)

variable {s s' s'' : State} {b : Block} {f g : TcpField} {fs fs' : List TcpField} {k i fd v : ℕ}

/-- Nothing changes but the fields `fs` of block `b`, where a UDP block has other fields at their place. -/
structure Changes (b : Block) (fs : List TcpField) (s s' : State) : Prop where
  sockets : s'.sockets = s.sockets
  localIp : s'.localIp = s.localIp
  tcp : ∀ k, .tcp k ≠ b → s'.tcp k = s.tcp k
  udp : ∀ k, .udp k ≠ b → s'.udp k = s.udp k
  field : ∀ k f, f ∉ fs → (s'.tcp k).field f = (s.tcp k).field f
  ring : ∀ k, (s'.tcp k).rxBuf = (s.tcp k).rxBuf ∧ (s'.tcp k).rxHead = (s.tcp k).rxHead ∧
    (s'.tcp k).rxTail = (s.tcp k).rxTail
  bound : .remotePort ∉ fs → ∀ k, s'.udpGet k .bound = s.udpGet k .bound

theorem Changes.refl (b : Block) (s : State) : Changes b [] s s :=
  ⟨rfl, rfl, fun _ _ => rfl, fun _ _ => rfl, fun _ _ _ => rfl, fun _ => ⟨rfl, rfl, rfl⟩, fun _ _ => rfl⟩

theorem Changes.trans (h : Changes b fs s s') (h' : Changes b fs' s' s'') : Changes b (fs ++ fs') s s'' := by
  refine ⟨h'.sockets.trans h.sockets, h'.localIp.trans h.localIp, fun k hk => (h'.tcp k hk).trans (h.tcp k hk),
    fun k hk => (h'.udp k hk).trans (h.udp k hk), fun k f hf => ?_, fun k => ?_, fun hport k => ?_⟩
  · rw [List.mem_append, not_or] at hf
    exact (h'.field k f hf.2).trans (h.field k f hf.1)
  · obtain ⟨h₁, h₂, h₃⟩ := h.ring k
    obtain ⟨h₁', h₂', h₃'⟩ := h'.ring k
    exact ⟨h₁'.trans h₁, h₂'.trans h₂, h₃'.trans h₃⟩
  · rw [List.mem_append, not_or] at hport
    exact (h'.bound hport.2 k).trans (h.bound hport.1 k)

theorem Changes.mono (h : Changes b fs s s') (hsub : fs ⊆ fs') : Changes b fs' s s' :=
  ⟨h.sockets, h.localIp, h.tcp, h.udp, fun k f hf => h.field k f fun hmem => hf (hsub hmem), h.ring,
    fun hport => h.bound fun hmem => hport (hsub hmem)⟩

@[simp] theorem set_sockets (s : State) (b : Block) (f : TcpField) (v : ℕ) : (s.set b f v).sockets = s.sockets := by
  cases b <;> rfl

@[simp] theorem set_localIp (s : State) (b : Block) (f : TcpField) (v : ℕ) : (s.set b f v).localIp = s.localIp := by
  cases b <;> rfl

@[simp] theorem set_sent (s : State) (b : Block) (f : TcpField) (v : ℕ) : (s.set b f v).sent = s.sent := by
  cases b <;> rfl

theorem set_field (s : State) (k j : ℕ) (f g : TcpField) (v : ℕ) :
    ((s.set (.tcp k) f v).tcp j).field g = if j = k ∧ g = f then v % 256 ^ f.width else (s.tcp j).field g := by
  change (Function.update s.tcp k { s.tcp k with field := Function.update (s.tcp k).field f (v % 256 ^ f.width) }
    j).field g = _
  by_cases hj : j = k
  · subst hj
    rw [update_self]
    by_cases hg : g = f
    · subst hg
      simp
    · simp [hg]
  · rw [update_of_ne hj, if_neg fun h => hj h.1]

theorem set_field_self (s : State) (k : ℕ) (f : TcpField) (v : ℕ) :
    ((s.set (.tcp k) f v).tcp k).field f = v % 256 ^ f.width := by
  rw [set_field, if_pos ⟨rfl, rfl⟩]

theorem changes_set (s : State) (b : Block) (f : TcpField) (v : ℕ) : Changes b [f] s (s.set b f v) := by
  cases b with
  | tcp k =>
    refine ⟨rfl, rfl, fun j hj => update_of_ne (fun heq => hj (congrArg _ heq)) .., fun _ _ => rfl,
      fun j g hg => ?_, fun j => ?_, fun _ _ => rfl⟩
    · rw [set_field, if_neg fun h => hg (List.mem_singleton.mpr h.2)]
    · change (Function.update s.tcp k _ j).rxBuf = _ ∧ (Function.update s.tcp k _ j).rxHead = _ ∧
        (Function.update s.tcp k _ j).rxTail = _
      by_cases hj : j = k
      · subst hj
        rw [update_self]
        exact ⟨rfl, rfl, rfl⟩
      · rw [update_of_ne hj]
        exact ⟨rfl, rfl, rfl⟩
  | udp k =>
    refine ⟨rfl, rfl, fun _ _ => rfl, fun j hj => update_of_ne (fun heq => hj (congrArg _ heq)) .., fun _ _ _ => rfl,
      fun _ => ⟨rfl, rfl, rfl⟩, fun hport j => ?_⟩
    change load (Function.update s.udp k _ j) _ _ = load (s.udp j) _ _
    by_cases hj : j = k
    · subst hj
      rw [update_self]
      apply load_store_apart
      cases f with
      | remotePort => exact absurd List.mem_cons_self hport
      | _ => simp [TcpField.offset, TcpField.width, UdpField.offset, UdpField.width]
    · rw [update_of_ne hj]

theorem changes_nextSeq (b : Block) (s : State) (n : ℕ) : Changes b [] s { s with nextSeq := n } :=
  ⟨rfl, rfl, fun _ _ => rfl, fun _ _ => rfl, fun _ _ _ => rfl, fun _ => ⟨rfl, rfl, rfl⟩, fun _ _ => rfl⟩

/-- Sending a packet changes nothing but where the next one starts. -/
theorem changes_send (b : Block) (flags : Flags) (data : List UInt8) (alloc : Bool) (s : State) :
    Changes b [.sndNxt] s (tcpSendPacket b flags data alloc s) := by
  unfold tcpSendPacket
  by_cases halloc : alloc = true
  · rw [if_neg (not_not.mpr halloc)]
    obtain ⟨s₁, hs₁⟩ : ∃ s₁ : State, s₁ = { s with sent := s.sent ++ [⟨b, s.get b .remoteIp, s.get b .localPort,
        s.get b .remotePort, s.get b .sndNxt, s.get b .rcvNxt, flags, s.get b .rcvWnd, data⟩] } := ⟨_, rfl⟩
    have h₁ : Changes b [] s s₁ := by
      rw [hs₁]
      exact ⟨rfl, rfl, fun _ _ => rfl, fun _ _ => rfl, fun _ _ _ => rfl, fun _ => ⟨rfl, rfl, rfl⟩, fun _ _ => rfl⟩
    have hstep (u : State) (c : Bool) (n : ℕ) : Changes b [.sndNxt] u (if c then u.set b .sndNxt n else u) := by
      split_ifs
      · exact changes_set u b .sndNxt n
      · exact (Changes.refl b u).mono (List.nil_subset _)
    dsimp only
    rw [← hs₁]
    refine (((h₁.trans (hstep s₁ flags.syn _)).trans (hstep _ flags.fin _)).trans (changes_set _ b .sndNxt _)).mono ?_
    simp
  · rw [if_pos halloc]
    exact (Changes.refl b s).mono (List.nil_subset _)

theorem changes_connect (b : Block) (ip port : ℕ) (alloc : Bool) (hfd : fd < maxSockets)
    (hb : (s.sockets fd).block = some b) :
    Changes b [.remoteIp, .remotePort, .localIp, .localPort, .sndNxt, .sndUna, .rcvWnd, .state] s
      (sysConnect fd ip port alloc s).2 ∧
    ∀ k, b = .tcp k → ((sysConnect fd ip port alloc s).2.tcp k).field .state = tcpSynSent := by
  unfold sysConnect
  rw [if_neg (Nat.not_le.mpr hfd), hb]
  dsimp only
  generalize h₁ : ((s.set b .remoteIp ip).set b .remotePort port).set b .localIp _ = s₁
  have hc₁ : Changes b [.remoteIp, .remotePort, .localIp] s s₁ := by
    rw [← h₁]
    exact ((changes_set s b .remoteIp ip).trans (changes_set _ b .remotePort port)).trans (changes_set _ b .localIp _)
  generalize h₂ : (if s₁.get b .localPort = 0 then s₁.set b .localPort (0xC000 + s₁.nextSeq % 0x4000) else s₁) = s₂
  have hc₂ : Changes b [.localPort] s₁ s₂ := by
    rw [← h₂]
    split_ifs
    · exact changes_set s₁ b .localPort _
    · exact (Changes.refl b s₁).mono (List.nil_subset _)
  generalize h₃ : s₂.set b .sndNxt s₂.nextSeq = s₃
  have hc₃ : Changes b [.sndNxt] s₂ s₃ := h₃ ▸ changes_set s₂ b .sndNxt _
  generalize h₄ : ({ s₃ with nextSeq := (s₃.nextSeq + 1) % 2 ^ 32 } : State) = s₄
  have hc₄ : Changes b [] s₃ s₄ := h₄ ▸ changes_nextSeq b s₃ _
  generalize h₅ : ((s₄.set b .sndUna (s₄.get b .sndNxt)).set b .rcvWnd tcpRxBufSize) = s₅
  have hc₅ : Changes b [.sndUna, .rcvWnd] s₄ s₅ := by
    rw [← h₅]
    exact (changes_set s₄ b .sndUna _).trans (changes_set _ b .rcvWnd _)
  have hc₆ := changes_set s₅ b .state tcpSynSent
  have hsend := changes_send b ⟨false, true, false, false⟩ [] alloc (s₅.set b .state tcpSynSent)
  refine ⟨((((((hc₁.trans hc₂).trans hc₃).trans hc₄).trans hc₅).trans hc₆).trans hsend).mono ?_, ?_⟩
  · simp
  · rintro k rfl
    rw [hsend.field k .state (by decide), set_field_self]
    rfl

theorem changes_shutdown (alloc : Bool) (hb : (s.sockets fd).block = some b) :
    Changes b [.state, .sndNxt] s (sysShutdown fd alloc s).2 ∧
    ∀ k, ((sysShutdown fd alloc s).2.tcp k).field .state = tcpFinWait1 ∨
      ((sysShutdown fd alloc s).2.tcp k).field .state = (s.tcp k).field .state := by
  have hsame : Changes b [.state, .sndNxt] s s := (Changes.refl b s).mono (List.nil_subset _)
  unfold sysShutdown
  by_cases hfd : fd ≥ maxSockets
  · rw [if_pos hfd]
    exact ⟨hsame, fun _ => .inr rfl⟩
  · rw [if_neg hfd, hb]
    dsimp only
    split_ifs
    · have hsend := changes_send b ⟨true, false, false, true⟩ [] alloc (s.set b .state tcpFinWait1)
      refine ⟨((changes_set s b .state tcpFinWait1).trans hsend).mono (by simp), fun k => ?_⟩
      rw [hsend.field k .state (by decide)]
      by_cases hk : b = .tcp k
      · subst hk
        rw [set_field_self]
        exact .inl rfl
      · exact .inr (by rw [(changes_set s b .state tcpFinWait1).tcp k fun heq => hk heq.symm])
    · exact ⟨hsame, fun _ => .inr rfl⟩

/-! ## Looking for an entry -/

theorem firstBelow_some {n k : ℕ} {p : ℕ → Bool} (h : firstBelow n p = some k) :
    k < n ∧ p k = true ∧ ∀ j < k, p j = false := by
  obtain ⟨hp, hk, hfirst⟩ := List.find?_range_eq_some.mp h
  exact ⟨List.mem_range.mp hk, hp, fun j hj => by simpa using hfirst j hj⟩

theorem firstBelow_none {n : ℕ} {p : ℕ → Bool} (h : firstBelow n p = none) : ∀ k < n, p k = false := by
  intro k hk
  simpa using List.find?_range_eq_none.mp h k hk

theorem firstBelow_eq {n k : ℕ} {p : ℕ → Bool} (hk : k < n) (hp : p k = true) (hfirst : ∀ j < k, p j = false) :
    firstBelow n p = some k :=
  List.find?_range_eq_some.mpr ⟨hp, List.mem_range.mpr hk, fun j hj => by simp [hfirst j hj]⟩

/-- Only blocks in three states are found. -/
theorem finds_state {x : TcpSocket} {localPort remoteIp remotePort : ℕ} (h : finds x localPort remoteIp remotePort = true) :
    x.field .state = tcpListen ∨
      (x.field .state = tcpSynRecv ∨ x.field .state = tcpEstablished) ∧ x.field .remoteIp = remoteIp ∧
        x.field .remotePort = remotePort := by
  unfold finds at h
  split_ifs at h with hstate
  · simp only [Bool.and_eq_true, decide_eq_true_eq] at h
    exact .inr ⟨hstate, h.2⟩
  · simp only [Bool.and_eq_true, decide_eq_true_eq] at h
    exact .inl h.2

theorem finds_port {x : TcpSocket} {localPort remoteIp remotePort : ℕ} (h : finds x localPort remoteIp remotePort = true) :
    x.field .localPort = localPort := by
  unfold finds at h
  simp only [Bool.and_eq_true, decide_eq_true_eq] at h
  exact h.1.2

/-! ## Packets -/

section Found

variable {p : Segment} {alloc : Bool} (hlen : ¬ p.len < 20) (hfind : tcpFindSocket p.dstPort p.srcIp p.srcPort s = some k)

include hlen hfind

theorem packet_listen (hstate : (s.tcp k).field .state = tcpListen) :
    tcpHandlePacket p alloc s = handleListen p alloc s := by
  unfold tcpHandlePacket
  rw [if_neg hlen, hfind]
  exact if_pos hstate

theorem packet_synRecv (hstate : (s.tcp k).field .state = tcpSynRecv) :
    tcpHandlePacket p alloc s = if p.flags.ack then s.set (.tcp k) .state tcpEstablished else s := by
  have hget : s.get (.tcp k) .state = tcpSynRecv := hstate
  unfold tcpHandlePacket
  rw [if_neg hlen, hfind]
  dsimp only
  rw [hget, if_neg (by decide), if_neg (by decide), if_pos rfl]

theorem packet_established (hstate : (s.tcp k).field .state = tcpEstablished) :
    tcpHandlePacket p alloc s = handleEstablished k p alloc s := by
  have hget : s.get (.tcp k) .state = tcpEstablished := hstate
  unfold tcpHandlePacket
  rw [if_neg hlen, hfind]
  dsimp only
  rw [hget, if_neg (by decide), if_neg (by decide), if_neg (by decide), if_pos rfl]

end Found

/-- What a packet comes to. -/
theorem packet_cases (p : Segment) (alloc : Bool) (s : State) :
    tcpHandlePacket p alloc s = s ∨
    20 ≤ p.len ∧ ∃ k < tcpMaxSockets, tcpFindSocket p.dstPort p.srcIp p.srcPort s = some k ∧
      ((s.tcp k).field .state = tcpListen ∧ p.flags.syn = true ∧ (∃ i, firstClosed s = some i) ∧
        tcpHandlePacket p alloc s = handleListen p alloc s ∨
      (s.tcp k).field .state = tcpSynRecv ∧ p.flags.ack = true ∧
        tcpHandlePacket p alloc s = s.set (.tcp k) .state tcpEstablished ∨
      (s.tcp k).field .state = tcpEstablished ∧ tcpHandlePacket p alloc s = handleEstablished k p alloc s) := by
  by_cases hlen : p.len < 20
  · exact .inl (if_pos hlen)
  · have hheader : 20 ≤ p.len := by omega
    cases hfind : tcpFindSocket p.dstPort p.srcIp p.srcPort s with
    | none =>
      refine .inl ?_
      unfold tcpHandlePacket
      rw [if_neg hlen, hfind]
    | some k =>
      obtain ⟨hk, hfinds, -⟩ := firstBelow_some hfind
      rcases finds_state hfinds with hstate | ⟨hstate | hstate, -⟩
      · have hlisten := @packet_listen s k p alloc hlen hfind hstate
        by_cases hsyn : p.flags.syn = true
        · cases hfirst : firstClosed s with
          | none =>
            refine .inl (hlisten.trans ?_)
            unfold handleListen
            rw [if_pos hsyn, hfirst]
          | some i => exact .inr ⟨hheader, k, hk, rfl, .inl ⟨hstate, hsyn, ⟨i, rfl⟩, hlisten⟩⟩
        · exact .inl (hlisten.trans (if_neg hsyn))
      · have hrecv := @packet_synRecv s k p alloc hlen hfind hstate
        by_cases hack : p.flags.ack = true
        · exact .inr ⟨hheader, k, hk, rfl, .inr (.inl ⟨hstate, hack, hrecv.trans (if_pos hack)⟩)⟩
        · exact .inl (hrecv.trans (if_neg hack))
      · exact .inr ⟨hheader, k, hk, rfl, .inr (.inr ⟨hstate, packet_established hlen hfind hstate⟩)⟩

/-- A listener puts up a new block in the first free one, and touches no other. -/
theorem handleListen_spec (p : Segment) (alloc : Bool) (hsyn : p.flags.syn = true) (hi : firstClosed s = some i) :
    (handleListen p alloc s).sockets = s.sockets ∧ (handleListen p alloc s).localIp = s.localIp ∧
    (∀ k, k ≠ i → (handleListen p alloc s).tcp k = s.tcp k) ∧
    (∀ k, (handleListen p alloc s).udpGet k .bound = s.udpGet k .bound) ∧
    ((handleListen p alloc s).tcp i).field .state = tcpSynRecv := by
  unfold handleListen
  rw [if_pos hsyn, hi]
  dsimp only
  generalize h₁ : (s.setTcp i .zero).set (.tcp i) .state tcpSynRecv = s₁
  have hsockets : s₁.sockets = s.sockets := by rw [← h₁]; rfl
  have hlocal : s₁.localIp = s.localIp := by rw [← h₁]; rfl
  have hudp : s₁.udp = s.udp := by rw [← h₁]; rfl
  have htcp (k : ℕ) (hk : k ≠ i) : s₁.tcp k = s.tcp k := by
    rw [← h₁]
    exact (update_of_ne hk ..).trans (update_of_ne hk ..)
  have hstate : (s₁.tcp i).field .state = tcpSynRecv := by
    rw [← h₁, set_field_self]
    rfl
  generalize h₂ : (((((s₁.set (.tcp i) .localIp _).set (.tcp i) .localPort p.dstPort).set (.tcp i) .remoteIp
    p.srcIp).set (.tcp i) .remotePort p.srcPort).set (.tcp i) .rcvNxt (p.seq + 1)).set (.tcp i) .sndNxt _ = s₂
  have hc₂ : Changes (.tcp i) [.localIp, .localPort, .remoteIp, .remotePort, .rcvNxt, .sndNxt] s₁ s₂ := by
    rw [← h₂]
    exact (((((changes_set s₁ _ .localIp _).trans (changes_set _ _ .localPort _)).trans
      (changes_set _ _ .remoteIp _)).trans (changes_set _ _ .remotePort _)).trans (changes_set _ _ .rcvNxt _)).trans
      (changes_set _ _ .sndNxt _)
  generalize h₃ : ({ s₂ with nextSeq := (s₂.nextSeq + 1) % 2 ^ 32 } : State) = s₃
  have hc₃ : Changes (.tcp i) [] s₂ s₃ := h₃ ▸ changes_nextSeq (.tcp i) s₂ _
  generalize h₄ : ((s₃.set (.tcp i) .sndUna (s₃.get (.tcp i) .sndNxt)).set (.tcp i) .rcvWnd tcpRxBufSize).set (.tcp i)
    .sndWnd p.window = s₄
  have hc₄ : Changes (.tcp i) [.sndUna, .rcvWnd, .sndWnd] s₃ s₄ := by
    rw [← h₄]
    exact ((changes_set s₃ _ .sndUna _).trans (changes_set _ _ .rcvWnd _)).trans (changes_set _ _ .sndWnd _)
  have hall := ((hc₂.trans hc₃).trans hc₄).trans (changes_send (.tcp i) ⟨false, true, false, true⟩ [] alloc s₄)
  refine ⟨hall.sockets.trans hsockets, hall.localIp.trans hlocal, fun k hk => ?_, fun k => ?_, ?_⟩
  · exact (hall.tcp k fun heq => hk (Block.tcp.inj heq)).trans (htcp k hk)
  · unfold State.udpGet
    rw [hall.udp k (by simp), hudp]
  · exact (hall.field i .state (by decide)).trans hstate

/-- A packet for an established connection changes only its block. -/
theorem handleEstablished_spec (k : ℕ) (p : Segment) (alloc : Bool) (s : State) :
    (handleEstablished k p alloc s).sockets = s.sockets ∧ (handleEstablished k p alloc s).localIp = s.localIp ∧
    (∀ j, j ≠ k → (handleEstablished k p alloc s).tcp j = s.tcp j) ∧
    (∀ j, (handleEstablished k p alloc s).udpGet j .bound = s.udpGet j .bound) ∧
    (((handleEstablished k p alloc s).tcp k).field .state = (s.tcp k).field .state ∨
      ((handleEstablished k p alloc s).tcp k).field .state = tcpCloseWait) := by
  unfold handleEstablished
  dsimp only
  by_cases hfin : p.flags.fin = true
  · rw [if_pos hfin]
    have hall := (changes_set s (.tcp k) .rcvNxt (p.seq + 1)).trans (changes_send (.tcp k) ackFlag [] alloc _)
    have hlast := hall.trans (changes_set _ (.tcp k) .state tcpCloseWait)
    refine ⟨hlast.sockets, hlast.localIp, fun j hj => hlast.tcp j fun heq => hj (Block.tcp.inj heq),
      fun j => hlast.bound (by decide) j, .inr ?_⟩
    rw [set_field_self]
    rfl
  · rw [if_neg hfin]
    split_ifs
    · generalize h₁ : s.setTcp k { s.tcp k with
        rxBuf := RingBuf.fill tcpRxBufSize (s.tcp k).rxBuf (s.tcp k).rxTail (p.payload.take _)
        rxTail := _ } = s₁
      have hall := (changes_set s₁ (.tcp k) .rcvNxt (p.seq + p.payloadLen)).trans
        (changes_send (.tcp k) ackFlag [] alloc _)
      have hsockets : s₁.sockets = s.sockets := by rw [← h₁]; rfl
      have hlocal : s₁.localIp = s.localIp := by rw [← h₁]; rfl
      have hudp : s₁.udp = s.udp := by rw [← h₁]; rfl
      have htcp (j : ℕ) (hj : j ≠ k) : s₁.tcp j = s.tcp j := by
        rw [← h₁]
        exact update_of_ne hj ..
      refine ⟨hall.sockets.trans hsockets, hall.localIp.trans hlocal, fun j hj => ?_, fun j => ?_, .inl ?_⟩
      · exact (hall.tcp j fun heq => hj (Block.tcp.inj heq)).trans (htcp j hj)
      · unfold State.udpGet
        rw [hall.udp j (by simp), hudp]
      · rw [hall.field k .state (by decide), ← h₁]
        change (Function.update s.tcp k _ k).field .state = _
        rw [update_self]
    · exact ⟨rfl, rfl, fun _ _ => rfl, fun _ => rfl, .inl rfl⟩

/-- An accept does nothing, or takes the first block in `TCP_SYN_RECV` for the first free descriptor. -/
theorem accept_cases (fd : ℕ) (s : State) :
    sysAccept fd s = (none, s) ∧ (maxSockets ≤ fd ∨ listens s fd = false ∨
      (∀ k < tcpMaxSockets, (s.tcp k).field .state ≠ tcpSynRecv) ∨ freeFd s = none) ∨
    ∃ i newFd, fd < maxSockets ∧ listens s fd = true ∧ i < tcpMaxSockets ∧ (s.tcp i).field .state = tcpSynRecv ∧
      freeFd s = some newFd ∧ (sysAccept fd s).2 =
        (s.setSocket newFd ⟨afInet, .stream, some (.tcp i)⟩).set (.tcp i) .state tcpEstablished ∧
      ∃ addr, (sysAccept fd s).1 = some (newFd, addr) := by
  unfold sysAccept
  by_cases hfd : fd ≥ maxSockets
  · rw [if_pos hfd]
    exact .inl ⟨rfl, .inl hfd⟩
  · rw [if_neg hfd]
    by_cases hlisten : listens s fd = true
    · rw [if_neg (not_not.mpr hlisten)]
      cases hi : firstBelow tcpMaxSockets fun i => (s.tcp i).field .state = tcpSynRecv with
      | none => exact .inl ⟨rfl, .inr (.inr (.inl fun k hk => of_decide_eq_false (firstBelow_none hi k hk)))⟩
      | some i =>
        obtain ⟨hlt, hstate, -⟩ := firstBelow_some hi
        cases hnew : freeFd s with
        | none => exact .inl ⟨rfl, .inr (.inr (.inr rfl))⟩
        | some newFd =>
          exact .inr ⟨i, newFd, Nat.not_le.mp hfd, hlisten, hlt, of_decide_eq_true hstate, rfl, rfl, _, rfl⟩
    · rw [if_pos hlisten]
      exact .inl ⟨rfl, .inr (.inl (Bool.eq_false_iff.mpr hlisten))⟩

end Net
