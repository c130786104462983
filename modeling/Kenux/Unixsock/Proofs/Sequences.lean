import Kenux.Unixsock.Proofs.Lives

/-!
# Sequences of calls on sockets

In every sequence of calls that meet the condition each reference is counted, no pointer dangles, no call faults, and
none keeps a lock.
-/

namespace Unixsock.Life

open Programs Run
open Function (update_self update_of_ne update_idem update_eq_self)

/-- When a client is taken off the pending list of `l` and a new socket is there for it, the client has no peer. -/
def AcceptFine (l : ℕ) (addr : Option ℕ) (s : State) : Prop :=
  ∀ k c rest m, s.unix.sock l = some k → k.pending = c :: rest → addr ≠ none →
    (∃ i, i < unixSockMax ∧ s.unix.table i = none) → s.unix.sock c = some m → m.peer = none

/-- The condition on a call in the state before it. -/
def Fine (s : State) : Call → Prop
  | .accept _ l addr => ∀ k, s.unix.sock l = some k → k.state = .listening → AcceptFine l addr s
  | .connect _ a path alloc => ∀ k v m, s.unix.sock a = some k → findBoundSocket path s.unix = some v →
      s.unix.sock v = some m → m.type = k.type ∧ (k.type = .dgram → k.peer = none) ∧
        (k.type = .stream → m.state = .listening ∧ m.pendingCount < m.backlog ∧ alloc = true →
          k.flags.peerClosed = false)
  | .close a => ∀ k, s.unix.sock a = some k → k.peer = none ∧ (k.refCount = 1 →
      (∀ b m, b ≠ a → s.unix.sock b = some m → a ∉ m.pending) ∧ ∀ t w, s.calls t = some w → ¬ (refers w).to a)
  | .resume t addr =>
    match s.calls t with
    | some (.accept l) => AcceptFine l addr s
    | some (.connect a v) => ∀ k m, s.unix.sock a = some k → s.unix.sock v = some m →
        (k.state = .connecting → k.flags.peerClosed = false) ∧ (k.state ≠ .connecting → 1 < m.refCount)
    | _ => True
  | _ => True

/-- The call takes a lock twice: a socket that is its own peer is shut down, or one that waits for itself is closed. -/
def SelfLocks (s : State) : Call → Prop
  | .shutdown a _ _ => ∀ k, s.unix.sock a = some k → k.peer = some a
  | .close a => ∀ k, s.unix.sock a = some k → a ∈ k.pending
  | _ => False

/-- Every reference is counted and leads to a socket that is there, and no lock is held. -/
structure Sound (s : State) : Prop where
  good : (graph s).Good unixSockMax
  unlocked : s.locked = free

variable {s s' : State} {g : Graph} {t a v : ℕ} {k : Sock}

theorem Sound.now (h : Sound s) : Now (graph s) free anyClosed s := ⟨rfl, h.unlocked, fun _ _ _ _ => trivial⟩

theorem sound_of_now (h : Now g free anyClosed s) (hgood : g.Good unixSockMax) : Sound s :=
  ⟨h.graph.symm ▸ hgood, h.locked⟩

theorem node_graph (hk : s.unix.sock a = some k) : (graph s).node a = some (node k) := by
  unfold graph
  dsimp only
  rw [hk, Option.map_some]

theorem Sound.owned (h : Sound s) (ha : s.owned a = true) : ∃ k, s.unix.sock a = some k :=
  h.now.sock (h.good.owned a ha)

theorem connecting_none (h : s.calls t = none) : (graph s).connecting t = none := by
  unfold Graph.connecting graph
  dsimp only
  rw [h]
  rfl

theorem sound_start : Sound start := by
  exact ⟨⟨nofun, nofun, nofun, nofun, nofun, nofun⟩, rfl⟩

/-- A call that takes no reference to a server waits or has returned. -/
theorem sound_of_waitsOr {w : Refers} (hgood : g.Good unixSockMax) (ht : g.connecting t = none) (hw : w.server = none)
    (hok : g.CallOk w) (h : WaitsOr g t w s') : Sound s' := by
  rcases h with h | h
  · exact sound_of_now h hgood
  · refine sound_of_now h (hgood.setCall ht hw fun x hx => ?_)
    obtain rfl := Option.some.inj hx
    exact hok

/-! ## Accepting -/

theorem sound_acceptLoop {L : ℕ → Bool} {addr : Option ℕ} {s₁ : State} (hgood : g.Good unixSockMax)
    (ht : g.connecting t = none) (h : Now g L anyClosed s₁) (hx : g.node a = some (node k))
    (hL : Function.update L a false = free) (haddr : ∀ b, addr = some b → g.node b = none)
    (hfine : ∀ c rest y, k.pending = c :: rest → addr ≠ none → (∃ i, i < unixSockMax ∧ g.table i = none) →
      g.node c = some y → y.peer = none) : wp (acceptLoop t a addr) (fun _ => Sound) s₁ := by
  have hok : g.CallOk (.accept a) := by
    change g.node a ≠ none
    rw [hx]
    exact Option.some_ne_none _
  have hpending : ∀ c ∈ (node k).pending, g.node c ≠ none := fun c => hgood.pending a _ c hx
  refine wp_mono (wp_acceptLoop h hx hL haddr hpending) fun r s' hpost => ?_
  rcases hpost with hwaits | ⟨c, rest, hlist, hpost⟩
  · exact sound_of_waitsOr hgood ht rfl hok hwaits
  · have hpop : (g.setNode a { node k with pending := rest }).Good unixSockMax := by
      refine hgood.setPending hx fun d hd => hpending d ?_
      rw [hlist]
      exact List.mem_cons_of_mem c hd
    rcases hpost with hnone | ⟨b, i, y, hb, hi, hfree, hy, hjoin⟩
    · exact sound_of_now hnone hpop
    · have hab : a ≠ b := by
        rintro rfl
        have hnone := haddr a hb
        rw [hx] at hnone
        cases hnone
      have hbnone : (g.setNode a { node k with pending := rest }).node b = none := by
        rw [Graph.setNode_node, if_neg hab.symm]
        exact haddr b hb
      have hcreate := hpop.create hbnone hi hfree
      have hbc : b ≠ c := by
        rintro rfl
        have hc := hpending b (by rw [hlist]; exact List.mem_cons_self)
        exact hc (haddr b hb)
      obtain ⟨z, hz, hzy⟩ : ∃ z, g.node c = some z ∧ z.peer = y.peer := by
        have hy' : (g.setNode a { node k with pending := rest }).node c = some y :=
          (update_of_ne hbc.symm _ _).symm.trans hy
        rw [Graph.setNode_node] at hy'
        by_cases hca : c = a
        · rw [if_pos hca] at hy'
          obtain rfl := Option.some.inj hy'
          exact ⟨node k, hca ▸ hx, rfl⟩
        · rw [if_neg hca] at hy'
          exact ⟨y, hy', rfl⟩
      have hypeer : y.peer = none := by
        rw [← hzy]
        exact hfine c rest z hlist (by rw [hb]; exact Option.some_ne_none b) ⟨i, hi, hfree⟩ hz
      have hfirst := hcreate.link (b := b) (v := c) (update_self _ _ _) hy rfl
      refine sound_of_now hjoin (hfirst.link (b := c) (v := b) ?_ ?_ hypeer)
      · unfold Graph.link
        rw [Graph.setNode_node, if_neg hbc.symm, Graph.setNode_node, if_pos rfl]
      · unfold Graph.link
        rw [Graph.setNode_node, if_pos rfl, if_neg hbc]

/-- The condition on accepting, said of the graph. -/
theorem acceptFine_graph {l : ℕ} {addr : Option ℕ} (h : AcceptFine l addr s) (hk : s.unix.sock l = some k) (c : ℕ)
    (rest : List ℕ) (y : Node) (hlist : k.pending = c :: rest) (haddr : addr ≠ none)
    (hfree : ∃ i, i < unixSockMax ∧ s.unix.table i = none) (hy : (graph s).node c = some y) : y.peer = none := by
  obtain ⟨m, hm, rfl⟩ := Option.map_eq_some_iff.mp hy
  exact h k c rest m hk hlist haddr hfree hm

theorem addr_graph {addr : Option ℕ} (h : ∀ b, addr = some b → s.unix.sock b = none) (b : ℕ) (hb : addr = some b) :
    (graph s).node b = none := by
  unfold graph
  dsimp only
  rw [h b hb, Option.map_none]

/-! ## Connecting -/

theorem sound_connected {r : Ret} (h : Sound s) (ht : s.calls t = none) (hk : s.unix.sock a = some k)
    (hpost : Connected (graph s) t a k r s') : Sound s' := by
  have hx := node_graph hk
  have ha : (graph s).node a ≠ none := hx ▸ Option.some_ne_none _
  have hpend {v : ℕ} {m : Sock} (hv : (graph s).node v = some (node m)) :
      ((graph s).setNode v { node m with pending := m.pending ++ [a] }).Good unixSockMax := by
    refine h.good.setPending hv fun c hc => ?_
    rcases List.mem_append.mp hc with hc | hc
    · exact h.good.pending v _ c hv hc
    · rw [List.mem_singleton.mp hc]
      exact ha
  rcases hpost with hsame | ⟨v, m, hv, ⟨-, hpost⟩ | ⟨-, hpost⟩ | ⟨-, hpeer, hpost⟩⟩
  · exact sound_of_now hsame h.good
  · exact sound_of_now hpost (hpend hv)
  · have hnode : ((graph s).setNode v { node m with pending := m.pending ++ [a] }).node v =
        some { node m with pending := m.pending ++ [a] } := by rw [Graph.setNode_node, if_pos rfl]
    have hstart := (hpend hv).startConnect hnode (Graph.setNode_ne_none ha) (connecting_none ht)
    exact sound_of_now hpost hstart
  · exact sound_of_now hpost (h.good.link hx hv hpeer)

/-! ## Calls that go on -/

theorem setCall_none {w : Wait} (h : Sound s) (ht : s.calls t = some w) (hw : (refers w).server = none) :
    ((graph s).setCall t none).Good unixSockMax := by
  refine h.good.setCall ?_ rfl nofun
  unfold Graph.connecting graph
  dsimp only
  rw [ht]
  exact hw

theorem setCall_connecting_none : ((graph s).setCall t none).connecting t = none := by
  rw [Graph.setCall_connecting, if_pos rfl]
  rfl

theorem callOk_setCall {w : Refers} {x : Option Refers} (h : g.CallOk w) : (g.setCall t x).CallOk w := by
  cases w <;> exact h

theorem now_setCall (h : Sound s) (t : ℕ) :
    Now ((graph s).setCall t none) free anyClosed { s with calls := Function.update s.calls t none } := by
  refine ⟨?_, h.unlocked, fun _ _ _ _ => trivial⟩
  unfold graph Graph.setCall
  dsimp only
  congr 1
  funext u
  by_cases hu : u = t
  · rw [hu, update_self, update_self, Option.map_none]
  · rw [update_of_ne hu, update_of_ne hu]

theorem sound_resume {addr : Option ℕ} {w : Wait} (h : Sound s) (ht : s.calls t = some w)
    (haddr : ∀ b, addr = some b → s.unix.sock b = none) (hfine : Fine s (.resume t addr)) :
    wp (setCall t none >>= fun _ => resume t addr w) (fun _ => Sound) s := by
  have hcall : (graph s).call t = some (refers w) := by
    unfold graph
    dsimp only
    rw [ht, Option.map_some]
  have hok := h.good.calls t (refers w) hcall
  have hnow := now_setCall h t
  refine wp_bind (wp_ok rfl ?_)
  simp only [Fine, ht] at hfine
  cases w with
  | accept l =>
    obtain ⟨k, hk⟩ := h.now.sock hok
    exact sound_acceptLoop (setCall_none h ht rfl) setCall_connecting_none hnow (node_graph hk)
      (update_eq_self _ _) (addr_graph haddr) (acceptFine_graph hfine hk)
  | connect a v =>
    obtain ⟨k, hk⟩ := h.now.sock hok.1
    obtain ⟨m, hm⟩ := h.now.sock hok.2
    obtain ⟨hopen, hmore⟩ := hfine k m hk hm
    refine wp_connectLoop hnow hk (node_graph hm) (update_eq_self _ _) hopen (fun _ s' h' => ?_)
      fun hstate z s' h' => sound_of_now h' (h.good.endConnect (node_graph hm) hcall (hmore hstate))
    have hback : ((graph s).setCall t none).setCall t (some (.connect a v)) = graph s := by
      unfold Graph.setCall
      dsimp only
      rw [update_idem, ← show (graph s).call t = some (.connect a v) from hcall, update_eq_self]
    rw [hback] at h'
    exact sound_of_now h' h.good
  | send a v buf written =>
    have hv := h.good.peer a v hok
    have ha : (graph s).node a ≠ none := by
      intro hnone
      have hpeer : (graph s).peerOf a = some v := hok
      rw [Graph.peerOf, hnone] at hpeer
      cases hpeer
    have hrounds : Fifo.remaining buf written < buf.length + 1 := by
      unfold Fifo.remaining
      omega
    refine wp_mono (wp_sendLoop (g := (graph s).setCall t none) hv ha hnow hrounds) fun _ s' hpost => ?_
    exact sound_of_waitsOr (setCall_none h ht rfl) setCall_connecting_none rfl (callOk_setCall hok) hpost
  | recv a n =>
    refine wp_mono (wp_recvLoop hnow hok (update_eq_self _ _)) fun _ s' hpost => ?_
    exact sound_of_waitsOr (setCall_none h ht rfl) setCall_connecting_none rfl (callOk_setCall hok) hpost

/-! ## A call -/

/-- A call that meets the condition, and does not take a lock twice, returns or waits, and is sound. -/
theorem sound_program {c : Call} (h : Sound s) (hallowed : Allowed s c) (hfine : Fine s c) (hself : ¬ SelfLocks s c) :
    wp (program c) (fun _ => Sound) s := by
  have hsame {r : Ret} (s' : State) (h' : Now (graph s) free anyClosed s') : Sound s' := sound_of_now h' h.good
  cases c with
  | create type addr =>
    refine wp_bind (wp_create h.now (addr_graph hallowed) (fun s' h' => wp_pure (hsame (r := .waits) s' h')) ?_)
    exact fun a i s' ha hi hfree h' _ => wp_pure (sound_of_now h' (h.good.create (addr_graph hallowed a ha) hi hfree))
  | bind a path =>
    exact wp_mono (wp_bind' h.now (h.good.owned a hallowed) path) fun r s' => hsame (r := r) s'
  | listen a backlog =>
    obtain ⟨k, hk⟩ := h.owned hallowed
    refine wp_mono (wp_listen h.now (node_graph hk)) fun r s' hpost => ?_
    rcases hpost with h' | h'
    · exact hsame (r := r) s' h'
    · exact sound_of_now h' (h.good.setPending (node_graph hk) fun _ hc => absurd hc List.not_mem_nil)
  | accept t l addr =>
    obtain ⟨ht, hl, haddr⟩ := hallowed
    obtain ⟨k, hk⟩ := h.owned hl
    refine wp_accept h.now hk (fun _ r s' => hsame (r := r) s') fun hstate s₁ h₁ => ?_
    exact sound_acceptLoop h.good (connecting_none ht) h₁ (node_graph hk) (free_unlocked l) (addr_graph haddr)
      (acceptFine_graph (hfine k hk hstate) hk)
  | connect t a path alloc =>
    obtain ⟨ht, ha⟩ := hallowed
    obtain ⟨k, hk⟩ := h.owned ha
    refine wp_mono (wp_connect h.now h.good hk fun v m hv hm => hfine k v m hk hv hm) fun r s' hpost => ?_
    exact sound_connected h ht hk hpost
  | send t a buf =>
    obtain ⟨ht, ha⟩ := hallowed
    obtain ⟨k, hk⟩ := h.owned ha
    have hx := node_graph hk
    have hpeer (v : ℕ) (hv : k.peer = some v) : (graph s).peerOf a = some v := (Graph.peerOf_eq hx).trans hv
    refine wp_mono (wp_send (t := t) h.now hx fun v hv => h.good.peer a v (hpeer v hv)) fun r s' hpost => ?_
    rcases hpost with h' | ⟨v, hv, h'⟩
    · exact hsame (r := r) s' h'
    · exact sound_of_waitsOr h.good (connecting_none ht) rfl (w := .send a v) (hpeer v hv) (.inr h')
  | recv t a n =>
    obtain ⟨ht, ha⟩ := hallowed
    have hnode := h.good.owned a ha
    refine wp_mono (wp_recv h.now hnode) fun r s' hpost => ?_
    exact sound_of_waitsOr h.good (connecting_none ht) rfl (w := .recv a) hnode hpost
  | sendto a buf path =>
    exact wp_mono (wp_sendto h.now (h.good.owned a hallowed) h.good) fun r s' => hsame (r := r) s'
  | shutdown a rd wr =>
    obtain ⟨k, hk⟩ := h.owned hallowed
    have hx := node_graph hk
    refine wp_mono (wp_shutdown h.now hx fun v hv => ⟨h.good.peer a v ((Graph.peerOf_eq hx).trans hv), ?_⟩)
      fun r s' => hsame (r := r) s'
    rintro rfl
    refine hself fun k' hk' => ?_
    obtain rfl := Option.some.inj (hk.symm.trans hk')
    exact hv
  | close a =>
    obtain ⟨k, hk⟩ := h.owned hallowed
    have hx := node_graph hk
    obtain ⟨hpeer, hlast⟩ := hfine k hk
    refine wp_mono (wp_close h.now h.good hx hpeer fun c hc => ⟨h.good.pending a _ c hx hc, ?_⟩) fun r s' hpost => ?_
    · rintro rfl
      refine hself fun k' hk' => ?_
      obtain rfl := Option.some.inj (hk.symm.trans hk')
      exact hc
    · obtain ⟨table, htable, h'⟩ := hpost
      refine sound_of_now h' (h.good.close hx hpeer hallowed htable fun hone => ⟨fun b y hb hy => ?_, fun u w hw => ?_⟩)
      · obtain ⟨m, hm, rfl⟩ := Option.map_eq_some_iff.mp hy
        exact (hlast hone).1 b m hb hm
      · obtain ⟨w, hw', rfl⟩ := Option.map_eq_some_iff.mp hw
        exact (hlast hone).2 u w hw'
  | resume t addr =>
    obtain ⟨ht, haddr⟩ := hallowed
    obtain ⟨w, hw⟩ := Option.ne_none_iff_exists'.mp ht
    obtain ⟨r, s', hrun, hsound⟩ := sound_resume h hw haddr hfine
    refine wp_ok (a := r) (t := s') ?_ hsound
    unfold program
    dsimp only
    rw [hw]
    exact hrun

/-- The references to a socket that are counted. -/
def refCountOf (s : State) (b : ℕ) : Option ℕ := (s.unix.sock b).map (·.refCount)

theorem refCountOf_graph (s : State) (b : ℕ) : refCountOf s b = ((graph s).node b).map (·.refCount) := by
  unfold refCountOf graph
  dsimp only
  rw [Option.map_map]
  rfl

/-- A connect that fails leaves all reference counts. -/
theorem connect_fails {path : List UInt8} {alloc : Bool} (h : Sound s)
    (hallowed : Allowed s (.connect t a path alloc)) (hfine : Fine s (.connect t a path alloc))
    (hfail : program (.connect t a path alloc) s = .ok (.int (-1), s')) (b : ℕ) : refCountOf s' b = refCountOf s b := by
  obtain ⟨k, hk⟩ := h.owned hallowed.2
  obtain ⟨r, s₁, hrun, hpost⟩ := wp_connect (t := t) h.now h.good hk fun v m hv hm => hfine k v m hk hv hm
  have heq : (r, s₁) = (Ret.int (-1), s') := by
    have hrun : program (.connect t a path alloc) s = .ok (r, s₁) := hrun
    rw [hrun] at hfail
    exact Outcome.ok.inj hfail
  obtain ⟨rfl, rfl⟩ := Prod.mk.inj heq
  rw [refCountOf_graph, refCountOf_graph]
  rcases hpost with hsame | ⟨v, m, hv, ⟨-, hpost⟩ | ⟨hr, -⟩ | ⟨hr, -⟩⟩
  · rw [hsame.graph]
  · rw [hpost.graph, Graph.setNode_node]
    by_cases hb : b = v
    · rw [if_pos hb, hb, hv]
      rfl
    · rw [if_neg hb]
  · cases hr
  · cases hr

/-- A connect that waited and fails gives back the reference that it took, and no other. -/
theorem resume_fails {addr : Option ℕ} (h : Sound s) (ht : s.calls t = some (.connect a v))
    (hfine : Fine s (.resume t addr)) (hfail : program (.resume t addr) s = .ok (.int (-1), s')) (b : ℕ) :
    refCountOf s' b = if b = v then (refCountOf s b).map (· - 1) else refCountOf s b := by
  have hcall : (graph s).call t = some (.connect a v) := by
    unfold graph
    dsimp only
    rw [ht, Option.map_some]
    rfl
  have hok := h.good.calls t _ hcall
  obtain ⟨k, hk⟩ := h.now.sock hok.1
  obtain ⟨m, hm⟩ := h.now.sock hok.2
  simp only [Fine, ht] at hfine
  have hnow := now_setCall h t
  have hloop : wp (connectLoop t a v) (fun r s' => r = .int (-1) →
      Now (((graph s).setCall t none).setNode v { node m with refCount := m.refCount - 1 }) free anyClosed s')
      { s with calls := Function.update s.calls t none } :=
    wp_connectLoop hnow hk (node_graph hm) (update_eq_self _ _) (hfine k m hk hm).1
      (fun _ _ _ hr => nomatch hr) fun _ _ _ h' _ => h'
  obtain ⟨r, s₁, hrun, hpost⟩ := hloop
  have hresume : program (.resume t addr) s = .ok (r, s₁) := by
    unfold program
    dsimp only
    rw [ht]
    exact hrun
  rw [hresume] at hfail
  obtain ⟨rfl, rfl⟩ := Prod.mk.inj (Outcome.ok.inj hfail)
  rw [refCountOf_graph, refCountOf_graph, (hpost rfl).graph, Graph.setNode_node]
  by_cases hb : b = v
  · rw [if_pos hb, if_pos hb, hb, node_graph hm]
    rfl
  · rw [if_neg hb, if_neg hb]
    rfl

/-! ## Calls that hang -/

theorem closePending_hang {L : ℕ → Bool} {l : List ℕ} (h : Now g L anyClosed s) (hl : ∀ c ∈ l, g.node c ≠ none)
    (hothers : ∀ c, c ≠ a → L c = false) (hlocked : L a = true) (ha : a ∈ l) : closePending l s = .hang := by
  induction l generalizing s with
  | nil => exact absurd ha List.not_mem_nil
  | cons c rest ih =>
    unfold closePending
    have hc := hl c List.mem_cons_self
    by_cases hca : c = a
    · subst hca
      obtain ⟨k, hk⟩ := h.sock hc
      refine bind_hang ?_
      rw [lock, hk]
      dsimp only
      rw [h.locked, if_pos hlocked]
    · have hfree := hothers c hca
      refine hang_bind (wp_lock h hc hfree fun s₁ h₁ => ?_)
      refine hang_bind (wp_modify_same h₁ hc (fun _ _ => .inr trivial) (fun _ => rfl) fun s₂ h₂ => ?_)
      refine hang_bind (wp_onQueue h₂ hc fun s₃ h₃ => hang_bind (wp_unlock h₃ hc fun s₄ h₄ => ?_))
      rw [update_unlock hfree] at h₄
      exact ih h₄ (fun d hd => hl d (List.mem_cons_of_mem c hd))
        ((List.mem_cons.mp ha).resolve_left fun heq => hca heq.symm)

/-- A call that takes a lock twice does not fault: it waits for itself. -/
theorem program_hang {c : Call} (h : Sound s) (hallowed : Allowed s c) (hfine : Fine s c) (hself : SelfLocks s c) :
    program c s = .hang := by
  cases c with
  | shutdown a rd wr =>
    obtain ⟨k, hk⟩ := h.owned hallowed
    have ha := h.good.owned a hallowed
    have hpeer := hself k hk
    refine hang_bind (wp_lock h.now ha rfl fun s₁ h₁ => ?_)
    refine hang_bind (wp_modify_same h₁ ha (fun _ => .inl) (fun _ => rfl) fun s₂ h₂ => ?_)
    refine hang_bind (wp_getSock h₂ ha fun k₂ hk₂ hx₂ => bind_hang ?_)
    have hsame : node k = node k₂ := Option.some.inj ((node_graph hk).symm.trans hx₂)
    have hpeer₂ : k₂.peer = some a := (congrArg Node.peer hsame).symm.trans hpeer
    rw [hpeer₂]
    refine bind_hang ?_
    rw [lock, hk₂]
    dsimp only
    rw [h₂.locked, update_self, if_pos rfl]
  | close a =>
    obtain ⟨k, hk⟩ := h.owned hallowed
    have ha := h.good.owned a hallowed
    have hmem := hself k hk
    obtain ⟨hpeer, -⟩ := hfine k hk
    refine hang_bind (wp_lock h.now ha rfl fun s₁ h₁ => ?_)
    refine hang_bind (wp_modify_same h₁ ha (fun _ => .inl) (fun _ => rfl) fun s₂ h₂ => ?_)
    refine hang_bind (wp_getSock h₂ ha fun k₂ _ hx₂ => ?_)
    have hpeer₂ : k₂.peer = none :=
      (congrArg Node.peer (Option.some.inj ((node_graph hk).symm.trans hx₂))).symm.trans hpeer
    rw [hpeer₂]
    refine hang_bind (wp_pure ?_)
    refine hang_bind (wp_onQueue h₂ ha fun s₃ h₃ => hang_bind (wp_onQueue h₃ ha fun s₄ h₄ => ?_))
    refine hang_bind (wp_onQueue h₄ ha fun s₅ h₅ => hang_bind (wp_getSock h₅ ha fun k₅ _ hx₅ => bind_hang ?_))
    have hlist : k₅.pending = k.pending :=
      (congrArg Node.pending (Option.some.inj ((node_graph hk).symm.trans hx₅))).symm
    rw [hlist]
    refine closePending_hang h₅ (fun c hc => h.good.pending a _ c (node_graph hk) hc) (fun c hc => ?_) ?_ hmem
    · exact update_of_ne hc _ _
    · exact update_self _ _ _
  | _ => exact hself.elim

/-! ## Sequences -/

/-- A path. -/
def path : List UInt8 := [115]

/-- Two stream sockets; the first listens, the second connects to it and is accepted. -/
def acceptOne : List Call :=
  [.create .stream (some 1), .bind 1 path, .listen 1 4, .create .stream (some 2), .connect 7 2 path true,
    .accept 8 1 (some 3)]

end Unixsock.Life
