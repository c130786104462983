import Kenux.Net.Proofs.Blocks

/-!
# Which connection a segment is for, and which handshakes are accepted
-/

namespace Net

open Run

variable {s s' : State} {k i fd : ℕ} {p : Segment}

/-- The block is a connection, neither closed nor listening, with the segment's ports and peer. The host has one
address. -/
structure Owns (s : State) (k : ℕ) (p : Segment) : Prop where
  lt : k < tcpMaxSockets
  open' : (s.tcp k).field .state ≠ tcpClosed
  quiet : (s.tcp k).field .state ≠ tcpListen
  localPort : (s.tcp k).field .localPort = p.dstPort
  remoteIp : (s.tcp k).field .remoteIp = p.srcIp
  remotePort : (s.tcp k).field .remotePort = p.srcPort

/-- The call of `sys_accept` returns a descriptor for block `k`. -/
def Returns (s : State) (fd k : ℕ) : Prop :=
  ∃ newFd addr, (sysAccept fd s).1 = some (newFd, addr) ∧ ((sysAccept fd s).2.sockets newFd).block = some (.tcp k)

/-- The port of the block that a descriptor points to. -/
def portOf (s : State) (fd : ℕ) : Option ℕ := (s.sockets fd).block.map fun b => s.get b .localPort

def Call.accepts : Call → Prop
  | .accept _ | .close _ _ => True
  | _ => False

/-- After some calls of `sys_accept`, and of `sys_close_socket` where no descriptor is free, a listener of its port
returns the block. -/
def Acceptable (s : State) (k : ℕ) : Prop :=
  ∃ calls s' fd, (∀ c ∈ calls, c.accepts) ∧ run step s calls = some s' ∧ Returns s' fd k ∧
    portOf s' fd = some ((s'.tcp k).field .localPort)

/-- The tables, and for each block whether the ACK of its handshake has arrived and whether it was returned. -/
structure Watched where
  net : State
  acked : ℕ → Prop
  returned : ℕ → Prop

/-- The handshake in a block begins. -/
def Begins (s s' : State) (k : ℕ) : Prop :=
  (s.tcp k).field .state ≠ tcpSynRecv ∧ (s'.tcp k).field .state = tcpSynRecv

/-- The segment is the ACK of a handshake. -/
def Acks (s : State) (c : Call) (k : ℕ) : Prop :=
  ∃ p alloc, c = .segment p alloc ∧ 20 ≤ p.len ∧ Owns s k p ∧ p.flags.ack = true ∧
    ((s.tcp k).field .state = tcpSynRecv ∨ (s.tcp k).field .state = tcpEstablished)

/-- A call, and what is known afterwards. -/
inductive Watch : Watched → Call → Watched → Prop where
  | step {w : Watched} {c : Call} {s' : State} (h : step w.net c = some s') :
      Watch w c ⟨s', fun k => ¬ Begins w.net s' k ∧ (w.acked k ∨ Acks w.net c k),
        fun k => ¬ Begins w.net s' k ∧ (w.returned k ∨ ∃ fd, c = .accept fd ∧ Returns w.net fd k)⟩

/-- What the claim wants of a call: a segment is processed by the connections that own its addresses, a handshake that
is complete can be accepted, and `sys_accept` returns a complete handshake of its port that was not returned before. -/
def Good (w : Watched) (c : Call) (w' : Watched) : Prop :=
  (∀ p alloc, c = .segment p alloc → 20 ≤ p.len → ∀ k, Owns w.net k p →
    tcpFindSocket p.dstPort p.srcIp p.srcPort w.net = some k ∧
    (p.flags.ack = true → (w.net.tcp k).field .state = tcpSynRecv → Acceptable w'.net k)) ∧
  ∀ fd k, c = .accept fd → Returns w.net fd k →
    w.acked k ∧ ¬ w.returned k ∧ portOf w.net fd = some ((w.net.tcp k).field .localPort)

/-- The condition on a call: a connection that owns the addresses of a segment is in `TCP_SYN_RECV`, and the segment
has no ACK, or is established, and no block before it listens on the port or has the same addresses; and when
`sys_accept` is called for a listener, no block is in `TCP_SYN_RECV` or no descriptor is free. -/
def Plain (s : State) : Call → Prop
  | .segment p _ => 20 ≤ p.len → ∀ k, Owns s k p →
    ((s.tcp k).field .state = tcpSynRecv ∧ p.flags.ack = false ∨ (s.tcp k).field .state = tcpEstablished) ∧
    ∀ j < k, (s.tcp j).field .localPort = p.dstPort → (s.tcp j).field .state ≠ tcpListen ∧
      (((s.tcp j).field .state = tcpSynRecv ∨ (s.tcp j).field .state = tcpEstablished) →
        (s.tcp j).field .remoteIp = p.srcIp → (s.tcp j).field .remotePort ≠ p.srcPort)
  | .accept fd => fd < maxSockets → listens s fd = true → (∃ k < tcpMaxSockets, (s.tcp k).field .state = tcpSynRecv) →
    freeFd s = none
  | _ => True

/-! ## What accept can return -/

theorem returns_state (h : Returns s fd k) : (s.tcp k).field .state = tcpSynRecv ∧ k < tcpMaxSockets ∧
    fd < maxSockets ∧ listens s fd = true ∧ freeFd s ≠ none := by
  obtain ⟨newFd, addr, hret, hblock⟩ := h
  rcases accept_cases fd s with ⟨hsame, -⟩ | ⟨i, newFd', hfd, hlisten, hi, hstate, hnew, hresult, addr', hret'⟩
  · rw [hsame] at hret
    cases hret
  · rw [hret'] at hret
    obtain ⟨rfl, -⟩ := Prod.mk.inj (Option.some.inj hret)
    rw [hresult, set_sockets, setSocket_block, if_pos rfl] at hblock
    obtain rfl := Block.tcp.inj (Option.some.inj hblock)
    exact ⟨hstate, hi, hfd, hlisten, by simp [hnew]⟩

theorem returns_of_plain_not (hfd : fd < maxSockets) (hlisten : listens s fd = true)
    (hrecv : ∃ k < tcpMaxSockets, (s.tcp k).field .state = tcpSynRecv) (hfree : freeFd s ≠ none) :
    ∃ k, Returns s fd k := by
  rcases accept_cases fd s with ⟨-, hcase⟩ | ⟨i, newFd, -, -, -, -, -, hresult, addr, hret⟩
  · rcases hcase with hge | hnot | hnone | hfull
    · exact absurd hge (by omega)
    · rw [hlisten] at hnot
      cases hnot
    · obtain ⟨k, hk, hstate⟩ := hrecv
      exact absurd hstate (hnone k hk)
    · exact absurd hfull hfree
  · refine ⟨i, newFd, addr, hret, ?_⟩
    rw [hresult, set_sockets, setSocket_block, if_pos rfl]

/-- Accepting and closing begin no handshake. -/
theorem not_recv_of_accepts {c : Call} (hc : c.accepts) (hstep : step s c = some s')
    (hk : (s.tcp k).field .state ≠ tcpSynRecv) : (s'.tcp k).field .state ≠ tcpSynRecv := by
  cases c <;> obtain rfl := Option.some.inj hstep
  case accept fd =>
    rcases accept_cases fd s with ⟨hsame, -⟩ | ⟨i, newFd, -, -, -, -, -, hresult, -⟩
    · rw [hsame]
      exact hk
    · rw [hresult, set_field]
      split_ifs
      · decide
      · exact hk
  case close fd alloc =>
    by_cases hfd : fd < maxSockets
    · rw [(close_spec (s := s) hfd alloc).2.1]
      split_ifs
      · decide
      · exact hk
    · unfold sysCloseSocket
      rw [if_pos (Nat.not_lt.mp hfd)]
      exact hk
  all_goals exact hc.elim

theorem not_recv_of_run {calls : List Call} (hcalls : ∀ c ∈ calls, c.accepts) (hrun : run step s calls = some s')
    (hk : (s.tcp k).field .state ≠ tcpSynRecv) : (s'.tcp k).field .state ≠ tcpSynRecv := by
  induction calls generalizing s with
  | nil => exact Option.some.inj hrun ▸ hk
  | cons c calls ih =>
    obtain ⟨u, hu, hrun⟩ := Option.bind_eq_some_iff.mp hrun
    exact ih (fun c hc => hcalls c (List.mem_cons_of_mem _ hc)) hrun
      (not_recv_of_accepts (hcalls c List.mem_cons_self) hu hk)

/-- Only a block in `TCP_SYN_RECV` can be accepted. -/
theorem not_acceptable (hk : (s.tcp k).field .state ≠ tcpSynRecv) : ¬ Acceptable s k := by
  rintro ⟨calls, s', fd, hcalls, hrun, hreturns, -⟩
  exact not_recv_of_run hcalls hrun hk (returns_state hreturns).1

/-! ## The demultiplexer -/

theorem owns_of_find (hfind : tcpFindSocket p.dstPort p.srcIp p.srcPort s = some k)
    (hk : (s.tcp k).field .state ≠ tcpListen) : Owns s k p := by
  obtain ⟨hlt, hfinds, -⟩ := firstBelow_some hfind
  rcases finds_state hfinds with hstate | ⟨hstate, hip, hport⟩
  · exact absurd hstate hk
  · refine ⟨hlt, ?_, hk, finds_port hfinds, hip, hport⟩
    rcases hstate with hstate | hstate
    · rw [hstate]
      decide
    · rw [hstate]
      decide

/-- A connection is found exactly if the demultiplexer knows its state and no block before it fits. -/
theorem find_iff (ho : Owns s k p) : tcpFindSocket p.dstPort p.srcIp p.srcPort s = some k ↔
    ((s.tcp k).field .state = tcpSynRecv ∨ (s.tcp k).field .state = tcpEstablished) ∧
    ∀ j < k, (s.tcp j).field .localPort = p.dstPort → (s.tcp j).field .state ≠ tcpListen ∧
      (((s.tcp j).field .state = tcpSynRecv ∨ (s.tcp j).field .state = tcpEstablished) →
        (s.tcp j).field .remoteIp = p.srcIp → (s.tcp j).field .remotePort ≠ p.srcPort) := by
  have hfits (x : TcpSocket) : finds x p.dstPort p.srcIp p.srcPort = true ↔ x.field .localPort = p.dstPort ∧
      (x.field .state = tcpListen ∨ (x.field .state = tcpSynRecv ∨ x.field .state = tcpEstablished) ∧
        x.field .remoteIp = p.srcIp ∧ x.field .remotePort = p.srcPort) := by
    refine ⟨fun h => ⟨finds_port h, finds_state h⟩, ?_⟩
    rintro ⟨hport, hstate | ⟨hstate, hip, hrport⟩⟩
    · unfold finds
      rw [hstate, if_neg (by decide)]
      simp [hport, tcpListen, tcpClosed]
    · unfold finds
      rw [if_pos hstate]
      rcases hstate with hstate | hstate <;> simp [hstate, hport, hip, hrport, tcpSynRecv, tcpEstablished, tcpClosed]
  have hk : finds (s.tcp k) p.dstPort p.srcIp p.srcPort = true ↔
      (s.tcp k).field .state = tcpSynRecv ∨ (s.tcp k).field .state = tcpEstablished := by
    rw [hfits]
    constructor
    · rintro ⟨-, hstate | ⟨hstate, -⟩⟩
      · exact absurd hstate ho.quiet
      · exact hstate
    · exact fun hstate => ⟨ho.localPort, .inr ⟨hstate, ho.remoteIp, ho.remotePort⟩⟩
  have hbefore (j : ℕ) : finds (s.tcp j) p.dstPort p.srcIp p.srcPort = false ↔
      ((s.tcp j).field .localPort = p.dstPort → (s.tcp j).field .state ≠ tcpListen ∧
      (((s.tcp j).field .state = tcpSynRecv ∨ (s.tcp j).field .state = tcpEstablished) →
        (s.tcp j).field .remoteIp = p.srcIp → (s.tcp j).field .remotePort ≠ p.srcPort)) := by
    rw [← Bool.not_eq_true, hfits]
    tauto
  constructor
  · intro hfind
    obtain ⟨-, hfinds, hfirst⟩ := firstBelow_some hfind
    exact ⟨hk.mp hfinds, fun j hj => (hbefore j).mp (hfirst j hj)⟩
  · rintro ⟨hstate, hfirst⟩
    exact firstBelow_eq ho.lt (hk.mpr hstate) fun j hj => (hbefore j).mpr (hfirst j hj)

/-! ## Runs -/

/-- What every run of calls that meet the condition keeps: no handshake is complete, so none is returned. -/
structure Unfinished (w : Watched) : Prop where
  established : ∀ k, (w.net.tcp k).field .state ≠ tcpEstablished
  acked : ∀ k, ¬ w.acked k
  returned : ∀ k, ¬ w.returned k

/-- Runs of calls that meet a condition, with what is known after them. -/
inductive WatchedRun (ok : State → Call → Prop) (localIp : ℕ) : Watched → Prop where
  | start : WatchedRun ok localIp ⟨start localIp, fun _ => False, fun _ => False⟩
  | step {w w' : Watched} {c : Call} (h : WatchedRun ok localIp w) (hc : ok w.net c) (hw : Watch w c w') :
      WatchedRun ok localIp w'

/-- No call makes a block established, but an accept that succeeds and the ACK of a handshake. -/
theorem not_established (hs : ∀ k, (s.tcp k).field .state ≠ tcpEstablished) {c : Call} (hc : Plain s c)
    (hstep : step s c = some s') (k : ℕ) : (s'.tcp k).field .state ≠ tcpEstablished := by
  cases c <;> obtain rfl := Option.some.inj hstep
  case socket domain type =>
    unfold sysSocket
    split_ifs
    · exact hs k
    · cases freeFd s with
      | none => exact hs k
      | some fd =>
        cases type with
        | stream =>
          cases firstClosed s with
          | none => exact hs k
          | some i =>
            change (Function.update s.tcp i _ k).field .state ≠ _
            by_cases hki : k = i
            · subst hki
              rw [Function.update_self]
              simp [tcpClosed, tcpEstablished]
            · rw [Function.update_of_ne hki]
              exact hs k
        | dgram => cases firstUnbound s <;> exact hs k
        | other => exact hs k
  case bind fd ip port =>
    unfold sysBind
    split_ifs
    · exact hs k
    · exact hs k
    · split
      · rename_i b _ _
        have hchanges := (changes_set s b .localIp ip).trans (changes_set _ b .localPort port)
        rw [hchanges.field k .state (by decide)]
        exact hs k
      · exact hs k
      · exact hs k
  case listen fd =>
    unfold sysListen
    split_ifs
    · exact hs k
    · split
      · exact hs k
      · rename_i b _
        by_cases hk : b = .tcp k
        · subst hk
          rw [set_field_self]
          decide
        · rw [(changes_set s b .state tcpListen).tcp k fun heq => hk heq.symm]
          exact hs k
  case connect fd ip port alloc =>
    by_cases hfd : fd ≥ maxSockets
    · unfold sysConnect
      rw [if_pos hfd]
      exact hs k
    · cases hblock : (s.sockets fd).block with
      | none =>
        unfold sysConnect
        rw [if_neg hfd, hblock]
        exact hs k
      | some b =>
        obtain ⟨hchanges, hstate⟩ := changes_connect b ip port alloc (Nat.not_le.mp hfd) hblock
        by_cases hk : b = .tcp k
        · rw [hstate k hk]
          decide
        · rw [hchanges.tcp k fun heq => hk heq.symm]
          exact hs k
  case accept fd =>
    rcases accept_cases fd s with ⟨hsame, -⟩ | ⟨i, newFd, hfd, hlisten, hi, hstate, hnew, -⟩
    · rw [hsame]
      exact hs k
    · rw [hc hfd hlisten ⟨i, hi, hstate⟩] at hnew
      cases hnew
  case shutdown fd alloc =>
    cases hblock : (s.sockets fd).block with
    | none =>
      unfold sysShutdown
      rw [hblock]
      split_ifs <;> exact hs k
    | some b =>
      rcases (changes_shutdown alloc hblock).2 k with hwait | hsame
      · rw [hwait]
        decide
      · rw [hsame]
        exact hs k
  case close fd alloc =>
    by_cases hfd : fd < maxSockets
    · rw [(close_spec (s := s) hfd alloc).2.1]
      split_ifs
      · decide
      · exact hs k
    · unfold sysCloseSocket
      rw [if_pos (Nat.not_lt.mp hfd)]
      exact hs k
  case segment p alloc =>
    rcases packet_cases p alloc s with hsame | ⟨hlen, l, -, hfind, ⟨hstate, hsyn, ⟨i, hi⟩, hresult⟩ |
      ⟨hstate, hack, -⟩ | ⟨hstate, -⟩⟩
    · rw [hsame]
      exact hs k
    · obtain ⟨-, -, hother, -, hnew⟩ := handleListen_spec p alloc hsyn hi
      rw [hresult]
      by_cases hki : k = i
      · rw [hki, hnew]
        decide
      · rw [hother k hki]
        exact hs k
    · -- the ACK of a handshake does not meet the condition
      have ho := owns_of_find hfind (by rw [hstate]; decide)
      rcases (hc hlen l ho).1 with ⟨-, hnack⟩ | hest
      · rw [hack] at hnack
        cases hnack
      · exact absurd hest (hs l)
    · exact absurd hstate (hs l)

theorem unfinished_step {w w' : Watched} {c : Call} (h : Unfinished w) (hc : Plain w.net c) (hw : Watch w c w') :
    Unfinished w' := by
  obtain ⟨hstep⟩ := hw
  refine ⟨not_established h.established hc hstep, ?_, ?_⟩
  · rintro k ⟨-, hacked | ⟨p, alloc, rfl, hlen, ho, hack, hstate⟩⟩
    · exact h.acked k hacked
    · rcases (hc hlen k ho).1 with ⟨-, hnack⟩ | hest
      · rw [hack] at hnack
        cases hnack
      · exact h.established k hest
  · rintro k ⟨-, hreturned | ⟨fd, rfl, hreturns⟩⟩
    · exact h.returned k hreturned
    · obtain ⟨hstate, hk, hfd, hlisten, hfree⟩ := returns_state hreturns
      exact hfree (hc hfd hlisten ⟨k, hk, hstate⟩)

theorem good_iff {w w' : Watched} {c : Call} (h : Unfinished w) (hw : Watch w c w') : Good w c w' ↔ Plain w.net c := by
  obtain ⟨hstep⟩ := hw
  constructor
  · rintro ⟨hsegment, haccept⟩
    cases c with
    | segment p alloc =>
      intro hlen k ho
      obtain ⟨hfind, hacceptable⟩ := hsegment p alloc rfl hlen k ho
      obtain ⟨hstate, hfirst⟩ := (find_iff ho).mp hfind
      refine ⟨?_, hfirst⟩
      rcases hstate with hstate | hstate
      · refine .inl ⟨hstate, Bool.eq_false_iff.mpr fun hack => ?_⟩
        refine not_acceptable ?_ (hacceptable hack hstate)
        obtain rfl := Option.some.inj hstep
        rw [packet_synRecv (by omega) hfind hstate, if_pos hack, set_field_self]
        decide
      · exact .inr hstate
    | accept fd =>
      intro hfd hlisten hrecv
      by_contra hfree
      obtain ⟨k, hreturns⟩ := returns_of_plain_not hfd hlisten hrecv hfree
      exact h.acked k (haccept fd k rfl hreturns).1
    | _ => exact trivial
  · intro hc
    refine ⟨?_, ?_⟩
    · rintro p alloc rfl hlen k ho
      obtain ⟨hstate, hfirst⟩ := hc hlen k ho
      refine ⟨(find_iff ho).mpr ⟨hstate.imp (·.1) id, hfirst⟩, fun hack hrecv => ?_⟩
      rcases hstate with ⟨-, hnack⟩ | hest
      · rw [hack] at hnack
        cases hnack
      · exact absurd hest (h.established k)
    · rintro fd k rfl hreturns
      obtain ⟨hstate, hk, hfd, hlisten, hfree⟩ := returns_state hreturns
      exact absurd (hc hfd hlisten ⟨k, hk, hstate⟩) hfree

/-- In every run of calls that meet the condition no handshake was completed and none returned, and from there a call
is as it should be exactly if it meets the condition. -/
theorem handshakes_good_iff (localIp : ℕ) (w : Watched) (hrun : WatchedRun Plain localIp w) :
    (∀ k, ¬ w.acked k ∧ ¬ w.returned k) ∧ ∀ c w', Watch w c w' → (Good w c w' ↔ Plain w.net c) := by
  have hunfinished : Unfinished w := by
    induction hrun with
    | start => exact ⟨fun _ => nofun, fun _ => id, fun _ => id⟩
    | step _ hc hw ih => exact unfinished_step ih hc hw
  exact ⟨fun k => ⟨hunfinished.acked k, hunfinished.returned k⟩, fun c w' hw => good_iff hunfinished hw⟩

theorem handshakes_good_listener : ∃ w, listens w.net 0 = true ∧
    ∀ c w', Watch w c w' → (Good w c w' ↔ Plain w.net c) := by
  obtain ⟨s₁, hs₁⟩ : ∃ s₁, step (start 1) (.socket 2 .stream) = some s₁ := ⟨_, rfl⟩
  obtain ⟨s₂, hs₂⟩ : ∃ s₂, step s₁ (.listen 0) = some s₂ := ⟨_, rfl⟩
  have h₁ : WatchedRun Plain 1 _ := .step (c := .socket 2 .stream) .start trivial ⟨hs₁⟩
  have h₂ : WatchedRun Plain 1 _ := .step (c := .listen 0) h₁ trivial ⟨hs₂⟩
  obtain rfl := Option.some.inj hs₁
  obtain rfl := Option.some.inj hs₂
  exact ⟨_, rfl, (handshakes_good_iff 1 _ h₂).2⟩

/-- A SYN for port 80. -/
def synSegment : Segment := ⟨9, 1000, 80, 0, 0, ⟨false, true, false, false⟩, 0, 5, 20, fun _ => 0⟩

/-- `sys_accept` returns a connection whose ACK has not arrived. -/
theorem handshakes_not_good : ∃ w w', WatchedRun (fun _ _ => True) 1 w ∧ Watch w (.accept 0) w' ∧
    ¬ Good w (.accept 0) w' := by
  obtain ⟨s₁, hs₁⟩ : ∃ s₁, step (start 1) (.socket 2 .stream) = some s₁ := ⟨_, rfl⟩
  obtain ⟨s₂, hs₂⟩ : ∃ s₂, step s₁ (.bind 0 1 80) = some s₂ := ⟨_, rfl⟩
  obtain ⟨s₃, hs₃⟩ : ∃ s₃, step s₂ (.listen 0) = some s₃ := ⟨_, rfl⟩
  obtain ⟨s₄, hs₄⟩ : ∃ s₄, step s₃ (.segment synSegment true) = some s₄ := ⟨_, rfl⟩
  obtain ⟨s₅, hs₅⟩ : ∃ s₅, step s₄ (.accept 0) = some s₅ := ⟨_, rfl⟩
  have h₁ : WatchedRun (fun _ _ => True) 1 _ := .step .start trivial ⟨hs₁⟩
  have h₂ : WatchedRun (fun _ _ => True) 1 _ := .step h₁ trivial ⟨hs₂⟩
  have h₃ : WatchedRun (fun _ _ => True) 1 _ := .step h₂ trivial ⟨hs₃⟩
  have h₄ : WatchedRun (fun _ _ => True) 1 _ := .step h₃ trivial ⟨hs₄⟩
  obtain rfl := Option.some.inj hs₁
  obtain rfl := Option.some.inj hs₂
  obtain rfl := Option.some.inj hs₃
  obtain rfl := Option.some.inj hs₄
  refine ⟨_, _, h₄, ⟨hs₅⟩, fun hgood => ?_⟩
  obtain ⟨⟨hbegins, -⟩, -⟩ := hgood.2 0 1 rfl ⟨1, _, rfl, rfl⟩
  exact hbegins ⟨by decide, rfl⟩

end Net
