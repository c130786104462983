import Kenux.Unixsock.Calls
import Kenux.Unixsock.Graph

/-!
# What the calls do to the graph of references
-/

/-!
## What the steps of a call do to the graph of references
-/

open Function (update_self update_of_ne update_idem update_eq_self)

namespace Unixsock.Life

open Programs
open Fifo (waitQueueAdd waitQueueWakeOne waitQueueWakeAll)

def node (k : Sock) : Node := ⟨k.peer, k.refCount, k.pending⟩

def refers : Wait → Refers
  | .accept l => .accept l
  | .connect s v => .connect s v
  | .send s v _ _ => .send s v
  | .recv s _ => .recv s

def graph (s : State) : Graph where
  node a := (s.unix.sock a).map node
  table := s.unix.table
  owned := s.owned
  call t := (s.calls t).map refers

/-- The graph and the locks are as given, and only sockets in `C` have lost their peer. -/
structure Now (g : Graph) (L : ℕ → Bool) (C : ℕ → Prop) (s : State) : Prop where
  graph : graph s = g
  locked : s.locked = L
  closed : ∀ a k, s.unix.sock a = some k → k.flags.peerClosed = true → C a

variable {g : Graph} {L : ℕ → Bool} {C : ℕ → Prop} {s : State} {a : ℕ} {x : Node} {k : Sock}

theorem Now.node_eq (h : Now g L C s) (hk : s.unix.sock a = some k) : g.node a = some (node k) := by
  rw [← h.graph, Life.graph]
  dsimp only
  rw [hk, Option.map_some]

theorem Now.sock (h : Now g L C s) (hx : g.node a ≠ none) : ∃ k, s.unix.sock a = some k := by
  rw [← h.graph, Life.graph] at hx
  dsimp only at hx
  cases hk : s.unix.sock a with
  | none =>
    rw [hk] at hx
    exact absurd rfl hx
  | some k => exact ⟨k, rfl⟩

theorem graph_setSock (s : State) (a : ℕ) (k : Sock) : graph (s.setSock a k) = (graph s).setNode a (node k) := by
  unfold graph Graph.setNode State.setSock Sockets.set
  dsimp only
  congr 1
  funext b
  by_cases hb : b = a
  · rw [hb, update_self, update_self, Option.map_some]
  · rw [update_of_ne hb, update_of_ne hb]

theorem graph_free (s : State) (a : ℕ) :
    graph { s with unix := s.unix.free a } = { graph s with node := Function.update (graph s).node a none } := by
  unfold graph Sockets.free
  dsimp only
  congr 1
  funext b
  by_cases hb : b = a
  · rw [hb, update_self, update_self, Option.map_none]
  · rw [update_of_ne hb, update_of_ne hb]

/-- A socket changes. -/
theorem Now.setSock (h : Now g L C s) (k : Sock) (hclosed : k.flags.peerClosed = true → C a) :
    Now (g.setNode a (node k)) L C (s.setSock a k) := by
  refine ⟨by rw [graph_setSock, h.graph], h.locked, fun b m hm hclosed' => ?_⟩
  have hm : Function.update s.unix.sock a (some k) b = some m := hm
  by_cases hb : b = a
  · subst hb
    rw [update_self] at hm
    obtain rfl := Option.some.inj hm
    exact hclosed hclosed'
  · rw [update_of_ne hb] at hm
    exact h.closed b m hm hclosed'

/-! ## The rules of the steps -/

theorem wp_getSock {Q : Sock → State → Prop} (h : Now g L C s) (hx : g.node a ≠ none)
    (hQ : ∀ k, s.unix.sock a = some k → g.node a = some (node k) → Q k s) : wp (getSock a) Q s := by
  obtain ⟨k, hk⟩ := h.sock hx
  refine wp_ok ?_ (hQ k hk (h.node_eq hk))
  rw [getSock, hk]

theorem wp_modify {Q : Unit → State → Prop} {f : Sock → Sock} (h : Now g L C s) (hx : g.node a ≠ none)
    (hf : ∀ k, (f k).flags.peerClosed = true → k.flags.peerClosed = true ∨ C a)
    (hQ : ∀ k s', g.node a = some (node k) → Now (g.setNode a (node (f k))) L C s' → Q () s') :
    wp (modify a f) Q s := by
  obtain ⟨k, hk⟩ := h.sock hx
  refine wp_ok ?_ (hQ k _ (h.node_eq hk) (h.setSock (f k) fun hclosed => ?_))
  · rw [modify, hk]
  · exact (hf k hclosed).elim (h.closed a k hk) id

/-- Only fields change that are no references. -/
theorem wp_modify_same {Q : Unit → State → Prop} {f : Sock → Sock} (h : Now g L C s) (hx : g.node a ≠ none)
    (hf : ∀ k, (f k).flags.peerClosed = true → k.flags.peerClosed = true ∨ C a) (hnode : ∀ k, node (f k) = node k)
    (hQ : ∀ s', Now g L C s' → Q () s') : wp (modify a f) Q s := by
  refine wp_modify h hx hf fun k s' hk hnow => hQ s' ?_
  rwa [hnode, Graph.setNode_self hk] at hnow

theorem wp_lock_unix {Q : Unit → State → Prop} (h : Now g L C s) (hx : g.node a ≠ none) (hfree : L a = false)
    (hQ : ∀ s', Now g (Function.update L a true) C s' → s'.unix = s.unix → Q () s') : wp (lock a) Q s := by
  obtain ⟨k, hk⟩ := h.sock hx
  refine wp_ok ?_ (hQ { s with locked := Function.update s.locked a true } ⟨h.graph, ?_, h.closed⟩ rfl)
  · rw [lock, hk]
    dsimp only
    rw [h.locked, if_neg]
    rw [hfree]
    exact nofun
  · rw [h.locked]

theorem wp_lock {Q : Unit → State → Prop} (h : Now g L C s) (hx : g.node a ≠ none) (hfree : L a = false)
    (hQ : ∀ s', Now g (Function.update L a true) C s' → Q () s') : wp (lock a) Q s :=
  wp_lock_unix h hx hfree fun s' h' _ => hQ s' h'

theorem wp_unlock {Q : Unit → State → Prop} (h : Now g L C s) (hx : g.node a ≠ none)
    (hQ : ∀ s', Now g (Function.update L a false) C s' → Q () s') : wp (unlock a) Q s := by
  obtain ⟨k, hk⟩ := h.sock hx
  refine wp_ok ?_ (hQ { s with locked := Function.update s.locked a false } ⟨h.graph, ?_, h.closed⟩)
  · rw [unlock, hk]
  · rw [h.locked]

theorem node_setQueue (k : Sock) (q : Queue) (l : List ℕ) : node (Sock.setQueue k q l) = node k := by
  cases q <;> rfl

theorem flags_setQueue (k : Sock) (q : Queue) (l : List ℕ) : (Sock.setQueue k q l).flags = k.flags := by
  cases q <;> rfl

theorem wp_onQueue {Q : Unit → State → Prop} {q : Queue} {f : List ℕ → (ℕ → Bool) → List ℕ × (ℕ → Bool)}
    (h : Now g L C s) (hx : g.node a ≠ none) (hQ : ∀ s', Now g L C s' → Q () s') : wp (onQueue a q f) Q s := by
  obtain ⟨k, hk⟩ := h.sock hx
  obtain ⟨l, hl⟩ : ∃ l, l = (f (Sock.queue k q) s.waiting).1 := ⟨_, rfl⟩
  have hnow := h.setSock (a := a) (Sock.setQueue k q l) fun hclosed => by
    rw [flags_setQueue] at hclosed
    exact h.closed a k hk hclosed
  rw [node_setQueue, Graph.setNode_self (h.node_eq hk)] at hnow
  refine wp_ok (t := { s.setSock a (Sock.setQueue k q l) with waiting := (f (Sock.queue k q) s.waiting).2 }) ?_
    (hQ _ ⟨hnow.graph, hnow.locked, hnow.closed⟩)
  rw [onQueue, hk, hl]

theorem wp_setCall {Q : Unit → State → Prop} {t : ℕ} {w : Option Wait} (h : Now g L C s)
    (hQ : ∀ s', Now (g.setCall t (w.map refers)) L C s' → Q () s') : wp (setCall t w) Q s := by
  refine wp_ok rfl (hQ _ ⟨?_, h.locked, h.closed⟩)
  rw [← h.graph]
  unfold graph Graph.setCall
  dsimp only
  congr 1
  funext u
  by_cases hu : u = t
  · rw [hu, update_self, update_self]
  · rw [update_of_ne hu, update_of_ne hu]

/-- A call waits: it gives up the lock and says where it goes on. -/
theorem wp_waitOn {Q : Ret → State → Prop} {t : ℕ} {q : Queue} {w : Wait} (h : Now g L C s) (hx : g.node a ≠ none)
    (hQ : ∀ s', Now (g.setCall t (some (refers w))) (Function.update L a false) C s' → Q .waits s') :
    wp (waitOn t a q w) Q s :=
  wp_bind (wp_onQueue h hx fun _ h₁ => wp_bind (wp_unlock h₁ hx fun _ h₂ => wp_bind (wp_setCall h₂ fun s₃ h₃ =>
    wp_pure (hQ s₃ h₃))))

theorem wp_onSockets {α : Type} {Q : α → State → Prop} {f : Sockets → α × Sockets}
    (hQ : Q (f s.unix).1 { s with unix := (f s.unix).2 }) : wp (onSockets f) Q s := wp_ok rfl hQ

/-- A lock that was free is free again. -/
theorem update_unlock (h : L a = false) : Function.update (Function.update L a true) a false = L := by
  rw [update_idem, ← h, update_eq_self]

end Unixsock.Life

namespace Unixsock.Life

open Programs
open Fifo (remaining)

/-- No lock is held. -/
def free : ℕ → Bool := fun _ => false

/-- Every socket may have lost its peer. -/
abbrev anyClosed : ℕ → Prop := fun _ => True

variable {g : Graph} {L : ℕ → Bool} {C : ℕ → Prop} {s : State} {t a v : ℕ} {x : Node} {k : Sock}

/-! ## Calls that leave the references as they are -/

theorem wp_bind' (h : Now g free anyClosed s) (ha : g.node a ≠ none) (path : List UInt8) :
    wp (unixSocketBind a path) (fun _ s' => Now g free anyClosed s') s := by
  unfold unixSocketBind
  refine wp_bind (wp_getSock h ha fun k hk hx => ?_)
  cases k.bound with
  | some _ => exact wp_pure h
  | none =>
    refine wp_bind (wp_onSockets ?_)
    cases findBoundSocket path s.unix with
    | some _ => exact wp_pure h
    | none => exact wp_bind (wp_modify_same h ha (fun _ => .inl) (fun _ => rfl) fun s' h' => wp_pure h')

/-- A queue is woken or not. -/
theorem wp_wakeIf {Q : Unit → State → Prop} {q : Queue} {p : Prop} [Decidable p] (h : Now g L C s) (ha : g.node a ≠ none)
    (hQ : ∀ s', Now g L C s' → Q () s') : wp (wakeAllIf p a q) Q s := by
  unfold wakeAllIf
  by_cases hp : p
  · rw [if_pos hp]
    exact wp_onQueue h ha hQ
  · rw [if_neg hp]
    exact wp_pure (hQ s h)

/-- Lock, one program that leaves references and locks, unlock. -/
theorem free_unlocked (a : ℕ) : Function.update (Function.update free a true) a false = free := update_unlock rfl

theorem ringWrite_count {buf : List UInt8} {written : ℕ} {r : Fifo.Ring} (hmore : remaining buf written ≠ 0)
    (hspace : unixSockRecvBuf - r.bytes ≠ 0) :
    0 < (ringWrite r ((buf.drop written).take (remaining buf written))).2 := by
  have hlen : ((buf.drop written).take (remaining buf written)).length = remaining buf written := by
    rw [List.length_take, List.length_drop]
    unfold remaining
    omega
  unfold ringWrite
  dsimp only
  rw [hlen, if_neg (by omega)]
  dsimp only
  omega

/-- Sending returns, or waits for room at the peer. -/
theorem wp_sendLoop (hv : g.node v ≠ none) (ha : g.node a ≠ none) {buf : List UInt8} {rounds written : ℕ}
    (h : Now g free anyClosed s) (hrounds : remaining buf written < rounds) :
    wp (sendLoop t a v buf rounds written)
      (fun _ s' => Now g free anyClosed s' ∨ Now (g.setCall t (some (.send a v))) free anyClosed s') s := by
  induction rounds generalizing written s with
  | zero => exact absurd hrounds (Nat.not_lt_zero _)
  | succ rounds ih =>
    unfold sendLoop
    by_cases hdone : remaining buf written = 0
    · rw [if_pos hdone]
      exact wp_pure (.inl h)
    · rw [if_neg hdone]
      refine wp_bind (wp_lock h hv rfl fun s₁ h₁ => wp_bind (wp_getSock h₁ hv fun k hk hx => ?_))
      by_cases hgone : k.flags.peerClosed = true ∨ k.flags.shutRd = true
      · rw [if_pos hgone]
        refine wp_bind (wp_unlock h₁ hv fun s₂ h₂ => ?_)
        rw [free_unlocked] at h₂
        refine wp_bind (wp_lock h₂ ha rfl fun s₃ h₃ => ?_)
        refine wp_bind (wp_modify_same h₃ ha (fun _ _ => .inr trivial) (fun _ => rfl) fun s₄ h₄ => ?_)
        refine wp_bind (wp_unlock h₄ ha fun s₅ h₅ => ?_)
        rw [free_unlocked] at h₅
        exact wp_pure (.inl h₅)
      · rw [if_neg hgone]
        by_cases hfull : unixSockRecvBuf - k.recv.bytes = 0
        · rw [if_pos hfull]
          refine wp_waitOn h₁ hv fun s₂ h₂ => ?_
          rw [free_unlocked] at h₂
          exact .inr h₂
        · rw [if_neg hfull]
          refine wp_bind (wp_modify_same h₁ hv (fun _ => .inl) (fun _ => rfl) fun s₂ h₂ => ?_)
          refine wp_bind (wp_wakeIf h₂ hv fun s₃ h₃ => wp_bind (wp_unlock h₃ hv fun s₄ h₄ => ?_))
          rw [free_unlocked] at h₄
          have hless (n : ℕ) (hn : 0 < n) : remaining buf (written + n) < rounds := by
            unfold remaining at hdone hrounds ⊢
            omega
          exact ih h₄ (hless _ (ringWrite_count hdone hfull))

/-- A datagram is put into a ring or not. -/
theorem wp_putDgram {Q : Bool → State → Prop} {buf : List UInt8} (h : Now g L C s) (hv : g.node v ≠ none)
    (hQ : ∀ b s', Now g L C s' → Q b s') : wp (putDgram v buf) Q s := by
  unfold putDgram
  refine wp_bind (wp_getSock h hv fun k hk hx => ?_)
  by_cases hfull : unixSockRecvBuf - k.recv.bytes < buf.length % 2 ^ 32
  · rw [if_pos hfull]
    exact wp_pure (hQ false s h)
  · rw [if_neg hfull]
    refine wp_bind (wp_modify_same h hv (fun _ => .inl) (fun _ => rfl) fun s₁ h₁ => ?_)
    exact wp_bind (wp_wakeIf h₁ hv fun s₂ h₂ => wp_pure (hQ true s₂ h₂))

theorem wp_send {buf : List UInt8} (h : Now g free anyClosed s) (hx : g.node a = some x)
    (hpeer : ∀ v, x.peer = some v → g.node v ≠ none) :
    wp (unixSocketSend t a buf) (fun _ s' => Now g free anyClosed s' ∨
      ∃ v, x.peer = some v ∧ Now (g.setCall t (some (.send a v))) free anyClosed s') s := by
  have ha : g.node a ≠ none := hx ▸ Option.some_ne_none x
  unfold unixSocketSend
  refine wp_bind (wp_getSock h ha fun k hk hkx => ?_)
  obtain rfl := Option.some.inj (hx.symm.trans hkx)
  cases hv : k.peer with
  | none => exact wp_pure (.inl h)
  | some v =>
    have hnode := hpeer v hv
    dsimp only
    by_cases hshut : buf = [] ∨ k.flags.shutWr = true
    · rw [if_pos hshut]
      exact wp_pure (.inl h)
    · rw [if_neg hshut]
      cases k.type with
      | stream =>
        have hrounds : remaining buf 0 < buf.length + 1 := by
          have hmod := Nat.mod_le buf.length (2 ^ 32)
          unfold remaining
          omega
        refine wp_mono (wp_sendLoop hnode ha h hrounds) fun _ s' hs' => ?_
        exact hs'.imp_right fun hnow => ⟨v, hv, hnow⟩
      | dgram =>
        refine wp_bind (wp_lock h hnode rfl fun s₁ h₁ => wp_bind (wp_putDgram h₁ hnode fun b s₂ h₂ => ?_))
        refine wp_bind (wp_unlock h₂ hnode fun s₃ h₃ => ?_)
        rw [free_unlocked] at h₃
        exact wp_pure (.inl h₃)

/-- The lock of `a` is held or not, and is free in the end. -/
theorem wp_recvLoop {n : ℕ} (h : Now g L anyClosed s) (ha : g.node a ≠ none)
    (hL : Function.update L a false = free) :
    wp (recvLoop t a n) (fun _ s' => Now g free anyClosed s' ∨
      Now (g.setCall t (some (.recv a))) free anyClosed s') s := by
  unfold recvLoop
  refine wp_bind (wp_getSock h ha fun k hk hx => ?_)
  by_cases hempty : k.recv.bytes = 0
  · rw [if_pos hempty]
    by_cases hclosed : k.flags.peerClosed = true
    · rw [if_pos hclosed]
      refine wp_bind (wp_unlock h ha fun s₁ h₁ => ?_)
      rw [hL] at h₁
      exact wp_pure (.inl h₁)
    · rw [if_neg hclosed]
      refine wp_waitOn h ha fun s₁ h₁ => ?_
      rw [hL] at h₁
      exact .inr h₁
  · rw [if_neg hempty]
    refine wp_bind (wp_modify_same h ha (fun _ => .inl) (fun _ => rfl) fun s₁ h₁ => ?_)
    refine wp_bind (wp_wakeIf h₁ ha fun s₂ h₂ => wp_bind (wp_unlock h₂ ha fun s₃ h₃ => ?_))
    rw [hL] at h₃
    exact wp_pure (.inl h₃)

theorem wp_recv {n : ℕ} (h : Now g free anyClosed s) (ha : g.node a ≠ none) :
    wp (unixSocketRecv t a n) (fun _ s' => Now g free anyClosed s' ∨
      Now (g.setCall t (some (.recv a))) free anyClosed s') s := by
  unfold unixSocketRecv
  refine wp_bind (wp_getSock h ha fun k hk hx => ?_)
  by_cases hshut : n = 0 ∨ k.flags.shutRd = true
  · rw [if_pos hshut]
    exact wp_pure (.inl h)
  · rw [if_neg hshut]
    exact wp_bind (wp_lock h ha rfl fun s₁ h₁ => wp_recvLoop h₁ ha (free_unlocked a))

theorem wp_shutPeer {Q : Unit → State → Prop} {peer : Option ℕ} (h : Now g L anyClosed s)
    (hpeer : ∀ v, peer = some v → g.node v ≠ none ∧ L v = false) (hQ : ∀ s', Now g L anyClosed s' → Q () s') :
    wp (shutPeer peer) Q s := by
  cases peer with
  | none => exact wp_pure (hQ s h)
  | some v =>
    obtain ⟨hv, hfree⟩ := hpeer v rfl
    refine wp_bind (wp_lock h hv hfree fun s₁ h₁ => ?_)
    refine wp_bind (wp_modify_same h₁ hv (fun _ _ => .inr trivial) (fun _ => rfl) fun s₂ h₂ => ?_)
    refine wp_bind (wp_onQueue h₂ hv fun s₃ h₃ => wp_bind (wp_onQueue h₃ hv fun s₄ h₄ => ?_))
    refine wp_unlock h₄ hv fun s₅ h₅ => hQ s₅ ?_
    rwa [update_unlock hfree] at h₅

theorem wp_shutdown {rd wr : Bool} (h : Now g free anyClosed s) (hx : g.node a = some x)
    (hpeer : ∀ v, x.peer = some v → g.node v ≠ none ∧ v ≠ a) :
    wp (unixSocketShutdown a rd wr) (fun _ s' => Now g free anyClosed s') s := by
  have ha : g.node a ≠ none := hx ▸ Option.some_ne_none x
  unfold unixSocketShutdown
  refine wp_bind (wp_lock h ha rfl fun s₁ h₁ => ?_)
  refine wp_bind (wp_modify_same h₁ ha (fun _ => .inl) (fun _ => rfl) fun s₂ h₂ => ?_)
  refine wp_bind (wp_getSock h₂ ha fun k hk hkx => ?_)
  obtain rfl := Option.some.inj (hx.symm.trans hkx)
  refine wp_bind (wp_shutPeer h₂ (fun v hv => ⟨(hpeer v hv).1, ?_⟩) fun s₃ h₃ => ?_)
  · exact update_of_ne (hpeer v hv).2 _ _
  · refine wp_bind (wp_onQueue h₃ ha fun s₄ h₄ => wp_bind (wp_onQueue h₄ ha fun s₅ h₅ => ?_))
    refine wp_bind (wp_unlock h₅ ha fun s₆ h₆ => ?_)
    rw [free_unlocked] at h₆
    exact wp_pure h₆

/-- Listening forgets the clients that are pending. -/
theorem wp_listen {backlog : ℤ} (h : Now g free anyClosed s) (hx : g.node a = some x) :
    wp (unixSocketListen a backlog) (fun _ s' => Now g free anyClosed s' ∨
      Now (g.setNode a { x with pending := [] }) free anyClosed s') s := by
  have ha : g.node a ≠ none := hx ▸ Option.some_ne_none x
  unfold unixSocketListen
  refine wp_bind (wp_getSock h ha fun k hk hkx => ?_)
  obtain rfl := Option.some.inj (hx.symm.trans hkx)
  by_cases htype : k.type ≠ .stream
  · rw [if_pos htype]
    exact wp_pure (.inl h)
  · rw [if_neg htype]
    cases k.bound with
    | none => exact wp_pure (.inl h)
    | some _ =>
      refine wp_bind (wp_lock h ha rfl fun s₁ h₁ => wp_bind (wp_modify h₁ ha (fun _ => .inl) fun k' s₂ hk' h₂ => ?_))
      refine wp_bind (wp_unlock h₂ (Graph.setNode_ne_none ha) fun s₃ h₃ => wp_pure (.inr ?_))
      rw [free_unlocked] at h₃
      have hsame : node k' = node k := Option.some.inj (hk'.symm.trans hkx)
      have hnode : ({ node k with pending := [] } : Node) = { node k' with pending := [] } := by rw [hsame]
      rw [hnode]
      exact h₃

/-! ## References for the time of a call -/

theorem findBound_owned (hgood : (graph s).Good unixSockMax) {path : List UInt8}
    (hfind : findBoundSocket path s.unix = some v) : s.owned v = true ∧ ∃ k, s.unix.sock v = some k := by
  obtain ⟨i, -, hi⟩ := List.exists_of_findSome?_eq_some hfind
  cases htable : s.unix.table i with
  | none =>
    rw [htable] at hi
    cases hi
  | some b =>
    rw [htable] at hi
    dsimp only at hi
    cases hb : s.unix.sock b with
    | none =>
      rw [hb] at hi
      cases hi
    | some k =>
      rw [hb] at hi
      dsimp only at hi
      by_cases hbound : k.boundTo path = true
      · rw [if_pos hbound] at hi
        obtain rfl := Option.some.inj hi
        exact ⟨(hgood.table i b htable).1, k, hb⟩
      · rw [if_neg hbound] at hi
        cases hi

/-- A reference to the socket that is found is taken. -/
theorem wp_findAndRef {Q : Option ℕ → State → Prop} {path : List UInt8} (h : Now g L C s)
    (hnone : findBoundSocket path s.unix = none → Q none s)
    (hsome : ∀ v k s', findBoundSocket path s.unix = some v → s.unix.sock v = some k → g.node v = some (node k) →
      (∀ b, b ≠ v → s'.unix.sock b = s.unix.sock b) →
      s'.unix.sock v = some { k with refCount := k.refCount + 1 } →
      Now (g.setNode v { node k with refCount := k.refCount + 1 }) L C s' → Q (some v) s')
    (hgood : (graph s).Good unixSockMax) : wp (findAndRef path) Q s := by
  unfold findAndRef
  refine wp_bind (wp_onSockets ?_)
  cases hfind : findBoundSocket path s.unix with
  | none => exact wp_pure (hnone hfind)
  | some v =>
    obtain ⟨-, k, hk⟩ := findBound_owned hgood hfind
    refine wp_bind (wp_ok (a := ()) (t := s.setSock v { k with refCount := k.refCount + 1 }) ?_ (wp_pure ?_))
    · rw [modify]
      dsimp only
      rw [hk]
    · refine hsome v k _ hfind hk (h.node_eq hk) (fun b hb => ?_) ?_ (h.setSock { k with refCount := k.refCount + 1 } (h.closed v k hk))
      · exact update_of_ne hb _ _
      · exact update_self _ _ _

/-- A reference is given back. -/
theorem wp_dropRef {Q : Unit → State → Prop} (h : Now g L C s) (hv : g.node v = some x)
    (hQ : ∀ s', Now (g.setNode v { x with refCount := x.refCount - 1 }) L C s' → Q () s') :
    wp (dropRef v) Q s := by
  refine wp_modify h (hv ▸ Option.some_ne_none x) (fun _ => .inl) fun k s' hk h' => hQ s' ?_
  obtain rfl := Option.some.inj (hv.symm.trans hk)
  exact h'

theorem wp_sendto {buf path : List UInt8} (h : Now g free anyClosed s) (ha : g.node a ≠ none)
    (hgood : (graph s).Good unixSockMax) :
    wp (unixSocketSendto a buf path) (fun _ s' => Now g free anyClosed s') s := by
  unfold unixSocketSendto
  refine wp_bind (wp_getSock h ha fun k hk hkx => ?_)
  by_cases hno : buf = [] ∨ k.type ≠ .dgram
  · rw [if_pos hno]
    exact wp_pure h
  · rw [if_neg hno]
    refine wp_bind (wp_findAndRef h (fun _ => wp_pure h) (fun v m s₁ _ _ hm _ _ h₁ => ?_) hgood)
    have hv := Graph.setNode_node (g := g) (a := v) (b := v) (x := { node m with refCount := m.refCount + 1 })
    rw [if_pos rfl] at hv
    have hne := hv ▸ Option.some_ne_none _
    refine wp_bind (wp_lock h₁ hne rfl fun s₂ h₂ => wp_bind (wp_putDgram h₂ hne fun b s₃ h₃ => ?_))
    refine wp_bind (wp_unlock h₃ hne fun s₄ h₄ => wp_bind (wp_dropRef h₄ hv fun s₅ h₅ => wp_pure ?_))
    rw [free_unlocked, Graph.setNode_setNode] at h₅
    rwa [← Graph.setNode_self hm]

/-! ## Creating and accepting -/

/-- A new socket comes into a free slot of the table, or nothing changes. -/
theorem wp_create {Q : Option ℕ → State → Prop} {type : SockType} {addr : Option ℕ} (h : Now g L C s)
    (haddr : ∀ a, addr = some a → g.node a = none) (hnone : ∀ s', Now g L C s' → Q none s')
    (hsome : ∀ a i s', addr = some a → i < unixSockMax → g.table i = none → Now (g.create a i) L C s' →
      s'.unix.sock = Function.update s.unix.sock a (some (newSock type)) → Q (some a) s') :
    wp (unixSocketCreate type addr) Q s := by
  unfold unixSocketCreate
  cases addr with
  | none => exact wp_pure (hnone s h)
  | some a =>
    have ha := haddr a rfl
    have hsock : s.unix.sock a = none := by
      rw [← h.graph] at ha
      exact Option.map_eq_none_iff.mp ha
    refine wp_bind (wp_onSockets (wp_bind (wp_onSockets ?_)))
    dsimp only
    cases hfind : (List.range unixSockMax).find? fun i => ((s.unix.set a (newSock type)).table i).isNone with
    | none =>
      have hreg : registerSocket a (s.unix.set a (newSock type)) = none := by rw [registerSocket, hfind, Option.map_none]
      rw [hreg]
      dsimp only
      rw [if_neg nofun]
      refine wp_bind (wp_onSockets (wp_pure (hnone _ ⟨?_, h.locked, fun b k hk hclosed => ?_⟩)))
      · rw [← h.graph]
        unfold graph Sockets.free Sockets.set
        dsimp only
        rw [update_idem, ← hsock, update_eq_self]
      · unfold Sockets.free Sockets.set at hk
        dsimp only at hk
        rw [update_idem, ← hsock, update_eq_self] at hk
        exact h.closed b k hk hclosed
    | some i =>
      have hreg : registerSocket a (s.unix.set a (newSock type)) = some { s.unix.set a (newSock type) with
          table := Function.update s.unix.table i (some a) } := by
        rw [registerSocket, hfind, Option.map_some]
        rfl
      rw [hreg]
      dsimp only
      rw [if_pos rfl]
      have hi := List.mem_range.mp (List.mem_of_find?_eq_some hfind)
      have hisNone := List.find?_some hfind
      have hfree : s.unix.table i = none := Option.isNone_iff_eq_none.mp hisNone
      refine wp_bind (wp_ok rfl (wp_pure (hsome a i _ rfl hi ?_ ⟨?_, h.locked, fun b k hk hclosed => ?_⟩ rfl)))
      · rw [← h.graph]
        exact hfree
      · rw [← h.graph]
        unfold graph Graph.create Sockets.set
        dsimp only
        congr 1
        funext b
        by_cases hb : b = a
        · rw [hb, update_self, update_self]
          rfl
        · rw [update_of_ne hb, update_of_ne hb]
      · have hk : Function.update s.unix.sock a (some (newSock type)) b = some k := hk
        by_cases hb : b = a
        · rw [hb, update_self] at hk
          obtain rfl := Option.some.inj hk
          cases hclosed
        · rw [update_of_ne hb] at hk
          exact h.closed b k hk hclosed

theorem link_link {c : ℕ} {y : Node} (hac : a ≠ c) :
    ((g.link a c x y).link c a { y with refCount := y.refCount + 1 } { x with peer := some c }) =
      ((g.setNode a { x with peer := some c }).setNode c { y with
        peer := some a
        refCount := y.refCount + 1 }).setNode a { x with peer := some c, refCount := x.refCount + 1 } := by
  unfold Graph.link Graph.setNode
  dsimp only
  rw [if_neg hac, if_neg hac.symm]
  congr 1
  funext b
  by_cases hba : b = a
  · rw [hba, update_of_ne hac, update_self, update_self]
  · by_cases hbc : b = c
    · rw [hbc, update_self, update_of_ne hac.symm, update_self]
    · simp only [update_of_ne hba, update_of_ne hbc]

/-- A new socket and a client become each other's peers. -/
theorem wp_joinClient {Q : Unit → State → Prop} {c : ℕ} {y : Node} (h : Now g free anyClosed s) (hac : a ≠ c)
    (hx : g.node a = some x) (hy : g.node c = some y)
    (hQ : ∀ s', Now ((g.link a c x y).link c a { y with refCount := y.refCount + 1 } { x with peer := some c }) free
      anyClosed s' → Q () s') : wp (joinClient a c) Q s := by
  have ha : g.node a ≠ none := hx ▸ Option.some_ne_none x
  have hc : g.node c ≠ none := hy ▸ Option.some_ne_none y
  rw [link_link hac] at hQ
  refine wp_bind (wp_lock h ha rfl fun s₁ h₁ => ?_)
  refine wp_bind (wp_lock h₁ hc (update_of_ne hac.symm _ _) fun s₂ h₂ => ?_)
  refine wp_bind (wp_modify h₂ ha (fun _ => .inl) fun k s₃ hk h₃ => ?_)
  obtain rfl := Option.some.inj (hx.symm.trans hk)
  refine wp_bind (wp_modify h₃ (Graph.setNode_ne_none hc) (fun _ => .inl) fun m s₄ hm h₄ => ?_)
  rw [Graph.setNode_node, if_neg hac.symm] at hm
  obtain rfl := Option.some.inj (hy.symm.trans hm)
  have ha₄ := Graph.setNode_ne_none (a := c) (x := node { m with
    peer := some a
    state := .connected
    refCount := m.refCount + 1 }) (Graph.setNode_ne_none (a := a) (x := node { k with
      peer := some c
      state := .connected }) ha)
  refine wp_bind (wp_modify h₄ ha₄ (fun _ => .inl) fun n s₅ hn h₅ => ?_)
  rw [Graph.setNode_node, if_neg hac, Graph.setNode_node, if_pos rfl] at hn
  have hnode : node { n with refCount := n.refCount + 1 } = ⟨some c, k.refCount + 1, k.pending⟩ := by
    have hsame : node n = ⟨some c, k.refCount, k.pending⟩ := (Option.some.inj hn).symm
    obtain ⟨hpeer, hcount, hlist⟩ := Node.mk.inj hsame
    rw [node]
    dsimp only
    rw [hpeer, hcount, hlist]
  rw [hnode] at h₅
  refine wp_bind (wp_unlock h₅ (Graph.setNode_ne_none (Graph.setNode_ne_none (Graph.setNode_ne_none hc))) fun s₆ h₆ => ?_)
  refine wp_unlock h₆ (Graph.setNode_ne_none ha₄) fun s₇ h₇ => hQ s₇ ?_
  have hlocks : Function.update (Function.update (Function.update (Function.update free a true) c true) c false) a false
      = free := by
    rw [update_unlock (update_of_ne hac.symm _ _), free_unlocked]
  rwa [hlocks] at h₇

/-- Nothing has happened yet but that a call waits. -/
def WaitsOr (g : Graph) (t : ℕ) (w : Refers) (s : State) : Prop :=
  Now g free anyClosed s ∨ Now (g.setCall t (some w)) free anyClosed s

/-- What the loop of `unix_socket_accept` does: it returns or waits, takes a client off the pending list, or connects a
new socket with one. -/
theorem wp_acceptLoop {addr : Option ℕ} (h : Now g L anyClosed s) (hx : g.node a = some x)
    (hL : Function.update L a false = free) (haddr : ∀ b, addr = some b → g.node b = none)
    (hpending : ∀ c ∈ x.pending, g.node c ≠ none) :
    wp (acceptLoop t a addr) (fun _ s' => WaitsOr g t (.accept a) s' ∨
      ∃ c rest, x.pending = c :: rest ∧ (Now (g.setNode a { x with pending := rest }) free anyClosed s' ∨
        ∃ b i y, addr = some b ∧ i < unixSockMax ∧ g.table i = none ∧
          ((g.setNode a { x with pending := rest }).create b i).node c = some y ∧
          Now ((((g.setNode a { x with pending := rest }).create b i).link b c ⟨none, 1, []⟩ y).link c b
            { y with refCount := y.refCount + 1 } ⟨some c, 1, []⟩) free anyClosed s')) s := by
  have ha : g.node a ≠ none := hx ▸ Option.some_ne_none x
  unfold acceptLoop
  refine wp_bind (wp_getSock h ha fun k hk hkx => ?_)
  obtain rfl := Option.some.inj (hx.symm.trans hkx)
  cases hlist : k.pending with
  | nil =>
    dsimp only
    by_cases hclosed : k.state = .closed
    · rw [if_pos hclosed]
      refine wp_bind (wp_unlock h ha fun s₁ h₁ => ?_)
      rw [hL] at h₁
      exact wp_pure (.inl (.inl h₁))
    · rw [if_neg hclosed]
      refine wp_waitOn h ha fun s₁ h₁ => ?_
      rw [hL] at h₁
      exact .inl (.inr h₁)
  | cons c rest =>
    dsimp only
    refine wp_bind (wp_modify h ha (fun _ => .inl) fun k' s₁ hk' h₁ => ?_)
    have hsame : node k' = node k := Option.some.inj (hk'.symm.trans hkx)
    have hnode : node { k' with pending := rest, pendingCount := (k'.pendingCount + 2 ^ 32 - 1) % 2 ^ 32 } =
        { node k with pending := rest } := by rw [← hsame]; rfl
    rw [hnode] at h₁
    obtain ⟨g₁, hg₁⟩ : ∃ g₁, g₁ = g.setNode a { node k with pending := rest } := ⟨_, rfl⟩
    have hstay {b : ℕ} (hb : g.node b ≠ none) : g₁.node b ≠ none := hg₁ ▸ Graph.setNode_ne_none hb
    have hgone {b : ℕ} (hb : addr = some b) : g₁.node b = none := by
      have hnone := haddr b hb
      have hba : b ≠ a := by
        rintro rfl
        exact ha hnone
      rw [hg₁, Graph.setNode_node, if_neg hba]
      exact hnone
    have h₁ : Now g₁ L anyClosed s₁ := hg₁ ▸ h₁
    refine wp_bind (wp_unlock h₁ (hstay ha) fun s₂ h₂ => ?_)
    rw [hL] at h₂
    refine wp_bind (wp_create h₂ (fun b => hgone) (fun s₃ h₃ => ?_) fun b i s₃ hb hi hfree h₃ _ => ?_)
    · exact wp_pure (.inr ⟨c, rest, hlist, .inl (hg₁ ▸ h₃)⟩)
    · have hc : g₁.node c ≠ none := hstay (hpending c (by rw [node, hlist]; exact List.mem_cons_self))
      have hbc : b ≠ c := by
        rintro rfl
        exact hc (hgone hb)
      obtain ⟨y, hy⟩ := Option.ne_none_iff_exists'.mp hc
      have hnb : (g₁.create b i).node b = some ⟨none, 1, []⟩ := update_self _ _ _
      have hnc : (g₁.create b i).node c = some y := (update_of_ne hbc.symm _ _).trans hy
      refine wp_bind (wp_joinClient h₃ hbc hnb hnc fun s₄ h₄ => wp_pure (.inr ⟨c, rest, hlist, .inr ?_⟩))
      have hfree' : g.table i = none := by
        rw [hg₁] at hfree
        exact hfree
      exact ⟨b, i, y, hb, hi, hfree', hg₁ ▸ hnc, hg₁ ▸ h₄⟩

theorem wp_accept {addr : Option ℕ} {Q : Ret → State → Prop} (h : Now g free anyClosed s)
    (hk : s.unix.sock a = some k) (hclosed : k.state ≠ .listening → ∀ r s', Now g free anyClosed s' → Q r s')
    (hloop : k.state = .listening → ∀ s₁, Now g (Function.update free a true) anyClosed s₁ →
      wp (acceptLoop t a addr) Q s₁) : wp (unixSocketAccept t a addr) Q s := by
  have ha : g.node a ≠ none := by
    rw [h.node_eq hk]
    exact Option.some_ne_none _
  unfold unixSocketAccept
  refine wp_bind (wp_lock_unix h ha rfl fun s₁ h₁ hunix => wp_bind (wp_getSock h₁ ha fun k' hk' _ => ?_))
  rw [hunix] at hk'
  obtain rfl := Option.some.inj (hk.symm.trans hk')
  by_cases hstate : k.state ≠ .listening
  · rw [if_pos hstate]
    refine wp_bind (wp_unlock h₁ ha fun s₂ h₂ => wp_pure (hclosed hstate _ s₂ ?_))
    rwa [free_unlocked] at h₂
  · rw [if_neg hstate]
    exact hloop (Decidable.not_not.mp hstate) s₁ h₁

/-! ## Connecting -/

/-- A call that connects waits as long as its socket is connecting, and gives back its reference in the end. -/
theorem wp_connectLoop {Q : Ret → State → Prop} (h : Now g L C s) (hk : s.unix.sock a = some k)
    (hv : g.node v = some x) (hL : Function.update L a false = free)
    (hopen : k.state = .connecting → k.flags.peerClosed = false)
    (hwait : k.state = .connecting → ∀ s', Now (g.setCall t (some (.connect a v))) free C s' → Q .waits s')
    (hend : k.state ≠ .connecting → ∀ z s', Now (g.setNode v { x with refCount := x.refCount - 1 }) free C s' →
      Q (.int z) s') : wp (connectLoop t a v) Q s := by
  have ha : g.node a ≠ none := by
    rw [h.node_eq hk]
    exact Option.some_ne_none _
  unfold connectLoop
  refine wp_bind (wp_getSock h ha fun k' hk' _ => ?_)
  obtain rfl := Option.some.inj (hk.symm.trans hk')
  by_cases hstate : k.state = .connecting
  · rw [if_pos hstate, if_neg (by rw [hopen hstate]; exact nofun)]
    refine wp_waitOn h ha fun s₁ h₁ => ?_
    rw [hL] at h₁
    exact hwait hstate s₁ h₁
  · rw [if_neg hstate]
    refine wp_bind (wp_unlock h ha fun s₁ h₁ => ?_)
    rw [hL] at h₁
    refine wp_bind (wp_dropRef h₁ hv fun s₂ h₂ => wp_bind (wp_getSock h₂ (Graph.setNode_ne_none ha) fun k₂ _ _ => ?_))
    exact wp_pure (hend hstate _ s₂ h₂)

/-- Connecting to a stream socket, a reference to which was taken, fails and gives it back, or waits; `a` has not lost
its peer if it comes to the pending list. -/
theorem wp_connectStream {alloc : Bool} {m : Sock} (h : Now g free C s) (ha : g.node a = some x)
    (hm : s.unix.sock v = some m) (hopen : m.state = .listening ∧ m.pendingCount < m.backlog ∧ alloc = true → ¬ C a) :
    wp (connectStream t a v alloc) (fun r s' =>
      Now (g.setNode v { node m with refCount := m.refCount - 1 }) free C s' ∨
      (∃ z, r = .int z) ∧ Now ((g.setNode v { node m with pending := m.pending ++ [a] }).setNode v
        { node m with pending := m.pending ++ [a], refCount := m.refCount - 1 }) free C s' ∨
      r = .waits ∧ Now ((g.setNode v { node m with pending := m.pending ++ [a] }).setCall t (some (.connect a v)))
        free C s') s := by
  have hv := h.node_eq hm
  have hvn : g.node v ≠ none := hv ▸ Option.some_ne_none _
  have han : g.node a ≠ none := ha ▸ Option.some_ne_none _
  unfold connectStream
  refine wp_bind (wp_lock_unix h hvn rfl fun s₁ h₁ hunix => wp_bind (wp_getSock h₁ hvn fun m' hm' _ => ?_))
  rw [hunix] at hm'
  obtain rfl := Option.some.inj (hm.symm.trans hm')
  by_cases hrefuse : m.state ≠ .listening ∨ m.pendingCount ≥ m.backlog ∨ alloc = false
  · rw [if_pos hrefuse]
    refine wp_bind (wp_unlock h₁ hvn fun s₂ h₂ => ?_)
    rw [free_unlocked] at h₂
    exact wp_bind (wp_dropRef h₂ hv fun s₃ h₃ => wp_pure (.inl h₃))
  · rw [if_neg hrefuse]
    have henter : m.state = .listening ∧ m.pendingCount < m.backlog ∧ alloc = true := by
      refine ⟨Decidable.not_not.mp fun hne => hrefuse (.inl hne), Nat.lt_of_not_le fun hge => hrefuse (.inr (.inl hge)),
        ?_⟩
      cases halloc : alloc with
      | true => rfl
      | false => exact absurd (.inr (.inr halloc)) hrefuse
    refine wp_bind (wp_modify h₁ hvn (fun _ => .inl) fun m₁ s₂ hm₁ h₂ => ?_)
    have hsame : node m₁ = node m := Option.some.inj (hm₁.symm.trans hv)
    obtain ⟨-, -, hlist⟩ := Node.mk.inj hsame
    have hnode : node { m₁ with
        pending := m₁.pending ++ [a]
        pendingCount := (m₁.pendingCount + 1) % 2 ^ 32 } = { node m with pending := m.pending ++ [a] } := by
      rw [← hsame, ← hlist]
      rfl
    rw [hnode] at h₂
    obtain ⟨g₁, hg₁⟩ : ∃ g₁, g₁ = g.setNode v { node m with pending := m.pending ++ [a] } := ⟨_, rfl⟩
    have h₂ : Now g₁ (Function.update free v true) C s₂ := hg₁ ▸ h₂
    have hv₁ : g₁.node v = some { node m with pending := m.pending ++ [a] } := by
      rw [hg₁, Graph.setNode_node, if_pos rfl]
    have ha₁ : g₁.node a ≠ none := hg₁ ▸ Graph.setNode_ne_none han
    rw [← hg₁]
    refine wp_bind (wp_modify_same h₂ ha₁ (fun _ => .inl) (fun _ => rfl) fun s₃ h₃ => ?_)
    have hvn₁ : g₁.node v ≠ none := hv₁ ▸ Option.some_ne_none _
    refine wp_bind (wp_onQueue h₃ hvn₁ fun s₄ h₄ => wp_bind (wp_unlock h₄ hvn₁ fun s₅ h₅ => ?_))
    rw [free_unlocked] at h₅
    refine wp_bind (wp_lock h₅ ha₁ rfl fun s₆ h₆ => ?_)
    obtain ⟨k, hk⟩ := h₆.sock ha₁
    refine wp_connectLoop h₆ hk hv₁ (free_unlocked a) (fun _ => ?_) (fun _ s₇ h₇ => .inr (.inr ⟨rfl, h₇⟩))
      fun _ z s₇ h₇ => .inr (.inl ⟨⟨z, rfl⟩, h₇⟩)
    cases hclosed : k.flags.peerClosed with
    | false => rfl
    | true => exact absurd (h₆.closed a k hk hclosed) (hopen henter)

theorem Now.any (h : Now g L C s) : Now g L anyClosed s := ⟨h.graph, h.locked, fun _ _ _ _ => trivial⟩

/-- Only `a` is known not to have lost its peer. -/
theorem Now.only (h : Now g L C s) (hk : s.unix.sock a = some k) :
    Now g L (fun b => b = a → k.flags.peerClosed = true) s := by
  refine ⟨h.graph, h.locked, fun b m hm hclosed hb => ?_⟩
  subst hb
  obtain rfl := Option.some.inj (hk.symm.trans hm)
  exact hclosed

/-- What connecting leaves: everything as it was; a client that is pending, with or without a call that waits; or a
datagram socket with a peer. -/
def Connected (g : Graph) (t a : ℕ) (k : Sock) (r : Ret) (s' : State) : Prop :=
  Now g free anyClosed s' ∨ ∃ v m, g.node v = some (node m) ∧
    ((∃ z, r = .int z) ∧ Now (g.setNode v { node m with pending := m.pending ++ [a] }) free anyClosed s' ∨
      r = .waits ∧ Now (((g.setNode v { node m with pending := m.pending ++ [a] }).setCall t
        (some (.connect a v))).setNode v { node m with pending := m.pending ++ [a], refCount := m.refCount + 1 }) free
          anyClosed s' ∨
      r = .int 0 ∧ k.peer = none ∧ Now (g.link a v (node k) (node m)) free anyClosed s')

theorem wp_connect {path : List UInt8} {alloc : Bool} (h : Now g free anyClosed s) (hgood : (graph s).Good unixSockMax)
    (hk : s.unix.sock a = some k)
    (hfine : ∀ v m, findBoundSocket path s.unix = some v → s.unix.sock v = some m → m.type = k.type ∧
      (k.type = .dgram → k.peer = none) ∧
      (k.type = .stream → m.state = .listening ∧ m.pendingCount < m.backlog ∧ alloc = true →
        k.flags.peerClosed = false)) :
    wp (unixSocketConnect t a path alloc) (Connected g t a k) s := by
  have hx := h.node_eq hk
  have ha : g.node a ≠ none := hx ▸ Option.some_ne_none _
  unfold unixSocketConnect
  refine wp_bind (wp_getSock h ha fun k' hk' _ => ?_)
  obtain rfl := Option.some.inj (hk.symm.trans hk')
  refine wp_bind (wp_findAndRef (h.only hk) (fun _ => wp_pure (.inl h)) (fun v m s₁ hfound hm hv hother hnew h₁ => ?_) hgood)
  obtain ⟨htype, hdgram, hstream⟩ := hfine v m hfound hm
  obtain ⟨g₁, hg₁⟩ : ∃ g₁, g₁ = g.setNode v { node m with refCount := m.refCount + 1 } := ⟨_, rfl⟩
  have hv₁ : g₁.node v = some { node m with refCount := m.refCount + 1 } := by
    rw [hg₁, Graph.setNode_node, if_pos rfl]
  have ha₁ : g₁.node a ≠ none := hg₁ ▸ Graph.setNode_ne_none ha
  rw [← hg₁] at h₁
  dsimp only
  refine wp_bind (wp_getSock h₁ (hv₁ ▸ Option.some_ne_none _) fun m' hm' _ => ?_)
  obtain rfl := Option.some.inj (hnew.symm.trans hm')
  dsimp only
  rw [if_neg (by rw [htype]; exact fun hne => hne rfl)]
  cases hkind : k.type with
  | stream =>
    obtain ⟨x₁, hx₁⟩ := Option.ne_none_iff_exists'.mp ha₁
    refine wp_mono (wp_connectStream h₁ hx₁ hnew fun henter hclosed => ?_) fun r s' hpost => ?_
    · have hopen := hstream hkind henter
      rw [hclosed rfl] at hopen
      cases hopen
    · dsimp only [node] at hpost
      rcases hpost with hsame | ⟨hz, hpend⟩ | ⟨hwaits, hcall⟩
      · left
        rw [hg₁, Graph.setNode_setNode, Nat.add_sub_cancel] at hsame
        have hback : g.setNode v ⟨m.peer, m.refCount, m.pending⟩ = g := Graph.setNode_self hv
        rw [hback] at hsame
        exact hsame.any
      · refine .inr ⟨v, m, hv, .inl ⟨hz, ?_⟩⟩
        rw [hg₁, Graph.setNode_setNode, Graph.setNode_setNode, Nat.add_sub_cancel] at hpend
        exact hpend.any
      · refine .inr ⟨v, m, hv, .inr (.inl ⟨hwaits, ?_⟩)⟩
        rw [hg₁, Graph.setNode_setNode] at hcall
        have hcomm : ((g.setNode v { node m with pending := m.pending ++ [a] }).setCall t (some (.connect a v))).setNode v
            { node m with pending := m.pending ++ [a], refCount := m.refCount + 1 } =
            (g.setNode v ⟨m.peer, m.refCount + 1, m.pending ++ [a]⟩).setCall t (some (.connect a v)) := by
          unfold Graph.setNode Graph.setCall
          dsimp only [node]
          rw [update_idem]
        rw [hcomm]
        exact hcall.any
  | dgram =>
    refine wp_bind (wp_lock h₁ ha₁ rfl fun s₂ h₂ => wp_bind (wp_modify h₂ ha₁ (fun _ => .inl) fun k₂ s₃ hk₂ h₃ => ?_))
    refine wp_bind (wp_unlock h₃ (Graph.setNode_ne_none ha₁) fun s₄ h₄ => wp_pure (.inr ⟨v, m, hv, .inr (.inr
      ⟨rfl, hdgram hkind, ?_⟩)⟩))
    rw [free_unlocked] at h₄
    have hnode : node { k₂ with peer := some v, state := .connected } = { node k with
        peer := some v
        refCount := if a = v then (node k).refCount + 1 else (node k).refCount } := by
      rw [hg₁, Graph.setNode_node] at hk₂
      by_cases hav : a = v
      · subst hav
        rw [if_pos rfl] at hk₂ ⊢
        obtain rfl := Option.some.inj (hk.symm.trans hm)
        have hsame := (Option.some.inj hk₂).symm
        dsimp only [node] at hsame ⊢
        obtain ⟨-, hcount, hlist⟩ := Node.mk.inj hsame
        rw [hcount, hlist]
      · rw [if_neg hav] at hk₂ ⊢
        have hsame : node k₂ = node k := Option.some.inj (hk₂.symm.trans hx)
        dsimp only [node] at hsame ⊢
        obtain ⟨-, hcount, hlist⟩ := Node.mk.inj hsame
        rw [hcount, hlist]
    rw [hnode, hg₁] at h₄
    exact h₄.any

/-! ## Closing -/

theorem wp_closePending {Q : Unit → State → Prop} {l : List ℕ} (h : Now g L anyClosed s)
    (hl : ∀ c ∈ l, g.node c ≠ none ∧ L c = false) (hQ : ∀ s', Now g L anyClosed s' → Q () s') :
    wp (closePending l) Q s := by
  induction l generalizing s with
  | nil => exact wp_pure (hQ s h)
  | cons c rest ih =>
    obtain ⟨hc, hfree⟩ := hl c List.mem_cons_self
    unfold closePending
    refine wp_bind (wp_lock h hc hfree fun s₁ h₁ => ?_)
    refine wp_bind (wp_modify_same h₁ hc (fun _ _ => .inr trivial) (fun _ => rfl) fun s₂ h₂ => ?_)
    refine wp_bind (wp_onQueue h₂ hc fun s₃ h₃ => wp_bind (wp_unlock h₃ hc fun s₄ h₄ => ?_))
    rw [update_unlock hfree] at h₄
    exact ih h₄ fun d hd => hl d (List.mem_cons_of_mem c hd)

theorem unregister_sock (x : Sockets) : (unregisterSocket a x).sock = x.sock := by
  unfold unregisterSocket
  cases (List.range unixSockMax).find? fun i => x.table i = some a <;> rfl

/-- The table without socket `a`. -/
theorem unregister_iff (x : Sockets)
    (htable : ∀ i b, x.table i = some b → i < unixSockMax ∧ ∀ j, x.table j = some b → i = j) (i b : ℕ) :
    (unregisterSocket a x).table i = some b ↔ x.table i = some b ∧ b ≠ a := by
  unfold unregisterSocket
  cases hfind : (List.range unixSockMax).find? fun i => x.table i = some a with
  | none =>
    dsimp only
    refine ⟨fun hb => ⟨hb, ?_⟩, fun hb => hb.1⟩
    rintro rfl
    have hlt := (htable i b hb).1
    have hnot := List.find?_eq_none.mp hfind i (List.mem_range.mpr hlt)
    exact hnot (decide_eq_true hb)
  | some j =>
    dsimp only
    have hfound := List.find?_some hfind
    have hj : x.table j = some a := of_decide_eq_true hfound
    by_cases hij : i = j
    · rw [hij, update_self]
      refine iff_of_false nofun fun hand => hand.2 ?_
      exact Option.some.inj (hand.1.symm.trans hj)
    · rw [update_of_ne hij]
      refine ⟨fun hb => ⟨hb, ?_⟩, fun hb => hb.1⟩
      rintro rfl
      exact hij ((htable i b hb).2 j hj)

/-- Closing a socket without a peer. -/
theorem wp_close (h : Now g free anyClosed s) (hgood : g.Good unixSockMax) (hx : g.node a = some x)
    (hpeer : x.peer = none) (hpending : ∀ c ∈ x.pending, g.node c ≠ none ∧ c ≠ a) :
    wp (unixSocketClose a) (fun _ s' => ∃ table, (∀ i b, table i = some b ↔ g.table i = some b ∧ b ≠ a) ∧
      Now (g.close a x table) free anyClosed s') s := by
  have ha : g.node a ≠ none := hx ▸ Option.some_ne_none x
  unfold unixSocketClose
  refine wp_bind (wp_lock h ha rfl fun s₁ h₁ => ?_)
  refine wp_bind (wp_modify_same h₁ ha (fun _ => .inl) (fun _ => rfl) fun s₂ h₂ => ?_)
  refine wp_bind (wp_getSock h₂ ha fun k _ hk => ?_)
  have hnone : k.peer = none := by
    obtain rfl := Option.some.inj (hx.symm.trans hk)
    exact hpeer
  rw [hnone]
  refine wp_bind (wp_pure ?_)
  refine wp_bind (wp_onQueue h₂ ha fun s₃ h₃ => wp_bind (wp_onQueue h₃ ha fun s₄ h₄ => ?_))
  refine wp_bind (wp_onQueue h₄ ha fun s₅ h₅ => wp_bind (wp_getSock h₅ ha fun k₅ _ hk₅ => ?_))
  have hlist : k₅.pending = x.pending := by
    obtain rfl := Option.some.inj (hx.symm.trans hk₅)
    rfl
  rw [hlist]
  refine wp_bind (wp_closePending h₅ (fun c hc => ⟨(hpending c hc).1, ?_⟩) fun s₆ h₆ => ?_)
  · exact update_of_ne (hpending c hc).2 _ _
  refine wp_bind (wp_modify h₆ ha (fun _ => .inl) fun k₇ s₇ hk₇ h₇ => ?_)
  have hnode : node { k₇ with pending := [], pendingCount := 0 } = ⟨none, x.refCount, []⟩ := by
    obtain rfl := Option.some.inj (hx.symm.trans hk₇)
    dsimp only [node] at hpeer ⊢
    rw [hpeer]
  rw [hnode] at h₇
  refine wp_bind (wp_unlock h₇ (Graph.setNode_ne_none ha) fun s₈ h₈ => ?_)
  rw [free_unlocked] at h₈
  have htable : s₈.unix.table = g.table := congrArg Graph.table h₈.graph
  obtain ⟨T, hT⟩ : ∃ T, T = (unregisterSocket a s₈.unix).table := ⟨_, rfl⟩
  have hT' (i b : ℕ) : T i = some b ↔ g.table i = some b ∧ b ≠ a := by
    rw [hT, unregister_iff, htable]
    intro j c hj
    rw [htable] at hj ⊢
    exact (hgood.table j c hj).2
  refine wp_bind (wp_onSockets ?_)
  have h₉ : Now { g.setNode a ⟨none, x.refCount, []⟩ with table := T } free anyClosed
      { s₈ with unix := unregisterSocket a s₈.unix } := by
    refine ⟨?_, h₈.locked, fun _ _ _ _ => trivial⟩
    rw [← h₈.graph, hT]
    unfold graph
    dsimp only
    rw [unregister_sock]
  refine wp_bind (wp_dropRef h₉ (x := ⟨none, x.refCount, []⟩) (update_self _ _ _) fun s₁₀ h₁₀ => ?_)
  refine wp_bind (wp_ok rfl ?_)
  have h₁₁ : Now { g with
      node := Function.update g.node a (some ⟨none, x.refCount - 1, []⟩)
      table := T
      owned := Function.update g.owned a false } free anyClosed
        { s₁₀ with owned := Function.update s₁₀.owned a false } := by
    refine ⟨?_, h₁₀.locked, fun _ _ _ _ => trivial⟩
    have howned : s₁₀.owned = g.owned := congrArg Graph.owned h₁₀.graph
    have hnodes : (graph s₁₀).node = Function.update g.node a (some ⟨none, x.refCount - 1, []⟩) := by
      rw [h₁₀.graph]
      exact update_idem _ _ _
    have htab : s₁₀.unix.table = T := congrArg Graph.table h₁₀.graph
    have hcall : (graph s₁₀).call = g.call := by
      rw [h₁₀.graph]
      rfl
    unfold graph at hnodes hcall ⊢
    dsimp only at hnodes hcall ⊢
    rw [hnodes, hcall, howned, htab]
  refine wp_bind (wp_bind (wp_getSock h₁₁ (a := a) ?_ fun k₁₁ _ hk₁₁ => ?_))
  · dsimp only
    rw [update_self]
    exact Option.some_ne_none _
  dsimp only at hk₁₁
  rw [update_self] at hk₁₁
  have hcount : k₁₁.refCount = x.refCount - 1 := (congrArg Node.refCount (Option.some.inj hk₁₁)).symm
  rw [hcount]
  by_cases hlast : x.refCount - 1 = 0
  · rw [if_pos hlast]
    refine wp_onSockets (wp_pure ⟨T, hT', ?_, h₁₁.locked, fun _ _ _ _ => trivial⟩)
    rw [graph_free, h₁₁.graph]
    unfold Graph.close
    rw [if_pos hlast]
    dsimp only
    rw [update_idem]
  · rw [if_neg hlast]
    refine wp_pure (wp_pure ⟨T, hT', ?_⟩)
    unfold Graph.close
    rw [if_neg hlast]
    exact h₁₁

end Unixsock.Life
