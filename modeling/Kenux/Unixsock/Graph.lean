import Kenux.Lib.Count

/-!
# Who refers to which socket

The abstract view of the sockets: for each its peer, its reference count and its pending clients; the table of bound
sockets; the owners; and the calls that wait. `Good` says that every reference is counted and leads to a socket that is
there; each operation of a call keeps it.
-/

open Function (update_self update_of_ne update_idem update_eq_self)

namespace Unixsock.Life

open Count

structure Node where
  peer : Option ℕ
  refCount : ℕ
  pending : List ℕ

/-- What a call that waits refers to: a listening socket, a socket and the server it connects to, a socket and the peer
it sends to, or a socket that it receives on. -/
inductive Refers where
  | accept (l : ℕ)
  | connect (s v : ℕ)
  | send (s v : ℕ)
  | recv (s : ℕ)

/-- The call refers to the socket. -/
def Refers.to : Refers → ℕ → Prop
  | .accept l, a => l = a
  | .connect s v, a => s = a ∨ v = a
  | .send s v, a => s = a ∨ v = a
  | .recv s, a => s = a

/-- The server that a call connects to. -/
def Refers.server : Refers → Option ℕ
  | .connect _ v => some v
  | _ => none

structure Graph where
  node : ℕ → Option Node
  table : ℕ → Option ℕ
  owned : ℕ → Bool
  call : ℕ → Option Refers

namespace Graph

def peerOf (g : Graph) (b : ℕ) : Option ℕ := (g.node b).bind (·.peer)

/-- The server that the call of a process holds a reference to. -/
def connecting (g : Graph) (t : ℕ) : Option ℕ := (g.call t).bind Refers.server

def setNode (g : Graph) (a : ℕ) (x : Node) : Graph := { g with node := Function.update g.node a (some x) }

def setCall (g : Graph) (t : ℕ) (w : Option Refers) : Graph := { g with call := Function.update g.call t w }

/-- The sockets of a call that waits are there. -/
def CallOk (g : Graph) : Refers → Prop
  | .accept l => g.node l ≠ none
  | .connect s v => g.node s ≠ none ∧ g.node v ≠ none
  | .send s v => g.peerOf s = some v
  | .recv s => g.node s ≠ none

/-- The reference count of a socket is one for its owner, one for each peer pointer to it and one for each call that
connects to it, and there is at least one. -/
structure Counted (g : Graph) (a : ℕ) (x : Node) : Prop where
  counts : ∃ n m, Counts (fun b => g.peerOf b = some a) n ∧ Counts (fun t => g.connecting t = some a) m ∧
    x.refCount = (g.owned a).toNat + n + m
  pos : 0 < x.refCount

structure Good (max : ℕ) (g : Graph) : Prop where
  refs : ∀ a x, g.node a = some x → g.Counted a x
  peer : ∀ b a, g.peerOf b = some a → g.node a ≠ none
  pending : ∀ b x c, g.node b = some x → c ∈ x.pending → g.node c ≠ none
  owned : ∀ a, g.owned a = true → g.node a ≠ none
  table : ∀ i a, g.table i = some a → g.owned a = true ∧ i < max ∧ ∀ j, g.table j = some a → i = j
  calls : ∀ t w, g.call t = some w → g.CallOk w

variable {g : Graph} {max a b v t i : ℕ} {x y : Node} {w : Refers}

theorem setNode_node : (g.setNode a x).node b = if b = a then some x else g.node b := by
  by_cases hb : b = a
  · rw [if_pos hb, hb]
    exact update_self _ _ _
  · rw [if_neg hb]
    exact update_of_ne hb _ _

theorem setNode_peerOf : (g.setNode a x).peerOf b = if b = a then x.peer else g.peerOf b := by
  unfold peerOf
  rw [setNode_node]
  by_cases hb : b = a
  · rw [if_pos hb, if_pos hb, Option.bind_some]
  · rw [if_neg hb, if_neg hb]

theorem setNode_ne_none (h : g.node b ≠ none) : (g.setNode a x).node b ≠ none := by
  rw [setNode_node]
  by_cases hb : b = a
  · rw [if_pos hb]
    exact Option.some_ne_none _
  · rwa [if_neg hb]

theorem setNode_setNode : (g.setNode a x).setNode a y = g.setNode a y := by
  unfold setNode
  dsimp only
  rw [update_idem]

theorem setNode_self (h : g.node a = some x) : g.setNode a x = g := by
  unfold setNode
  rw [← h, update_eq_self]

theorem peerOf_eq (h : g.node a = some x) : g.peerOf a = x.peer := by
  unfold peerOf
  rw [h, Option.bind_some]

theorem Counted.congr {g' : Graph} (h : g.Counted a x) (hpeer : ∀ b, g'.peerOf b = some a ↔ g.peerOf b = some a)
    (hcall : ∀ t, g'.connecting t = some a ↔ g.connecting t = some a) (howned : g'.owned a = g.owned a)
    (hx : y.refCount = x.refCount) : g'.Counted a y := by
  obtain ⟨⟨n, m, hn, hm, hsum⟩, hpos⟩ := h
  refine ⟨⟨n, m, hn.congr hpeer, hm.congr hcall, ?_⟩, hx ▸ hpos⟩
  rw [hx, howned]
  exact hsum

/-- The call is still fine when nodes stay and its sender's peer does. -/
theorem CallOk.mono {g' : Graph} (h : g.CallOk w) (hnode : ∀ b, g.node b ≠ none → g'.node b ≠ none)
    (hpeer : ∀ b v, g.peerOf b = some v → g'.peerOf b = some v) : g'.CallOk w := by
  cases w with
  | accept l => exact hnode l h
  | connect s v => exact ⟨hnode s h.1, hnode v h.2⟩
  | send s v => exact hpeer s v h
  | recv s => exact hnode s h

/-! ## The operations -/

/-- The pending list of a socket changes to one of sockets that are there. -/
theorem Good.setPending (h : g.Good max) (hx : g.node a = some x) {l : List ℕ} (hl : ∀ c ∈ l, g.node c ≠ none) :
    (g.setNode a { x with pending := l }).Good max := by
  have hpeer (b : ℕ) : (g.setNode a { x with pending := l }).peerOf b = g.peerOf b := by
    rw [setNode_peerOf]
    by_cases hb : b = a
    · rw [if_pos hb, hb, peerOf_eq hx]
    · rw [if_neg hb]
  refine ⟨fun b y hy => ?_, fun b v hv => ?_, fun b y c hy hc => ?_, fun b hb => setNode_ne_none (h.owned b hb), h.table,
    fun t w hw => (h.calls t w hw).mono (fun b => setNode_ne_none) fun b v hv => (hpeer b).trans hv⟩
  · rw [setNode_node] at hy
    by_cases hb : b = a
    · rw [if_pos hb] at hy
      obtain rfl := Option.some.inj hy
      subst hb
      exact (h.refs b x hx).congr (fun c => by rw [hpeer]) (fun _ => Iff.rfl) rfl rfl
    · rw [if_neg hb] at hy
      exact (h.refs b y hy).congr (fun c => by rw [hpeer]) (fun _ => Iff.rfl) rfl rfl
  · rw [hpeer] at hv
    exact setNode_ne_none (h.peer b v hv)
  · rw [setNode_node] at hy
    by_cases hb : b = a
    · rw [if_pos hb] at hy
      obtain rfl := Option.some.inj hy
      exact setNode_ne_none (hl c hc)
    · rw [if_neg hb] at hy
      exact setNode_ne_none (h.pending b y c hy hc)

/-- A new socket, with its owner's reference, in a free slot of the table. -/
def create (g : Graph) (a i : ℕ) : Graph where
  node := Function.update g.node a (some ⟨none, 1, []⟩)
  table := Function.update g.table i (some a)
  owned := Function.update g.owned a true
  call := g.call

theorem Good.create (h : g.Good max) (ha : g.node a = none) (hi : i < max) (hfree : g.table i = none) :
    (g.create a i).Good max := by
  have hpeer (b : ℕ) : (g.create a i).peerOf b = g.peerOf b := by
    refine setNode_peerOf.trans ?_
    by_cases hb : b = a
    · rw [if_pos hb, hb, peerOf, ha]
      rfl
    · rw [if_neg hb]
  have hstay (b : ℕ) (hb : g.node b ≠ none) : (g.create a i).node b ≠ none := setNode_ne_none hb
  have hne {b : ℕ} (hb : g.node b ≠ none) : b ≠ a := fun heq => hb (heq ▸ ha)
  have hnotable (j : ℕ) : g.table j ≠ some a := fun hj => h.owned a (h.table j a hj).1 ha
  have hnode (b : ℕ) : (g.create a i).node b = if b = a then some ⟨none, 1, []⟩ else g.node b := setNode_node
  refine ⟨fun b y hy => ?_, fun b v hv => ?_, fun b y c hy hc => ?_, fun b hb => ?_, fun j b hj => ?_,
    fun t w hw => (h.calls t w hw).mono hstay fun b v hv => (hpeer b).trans hv⟩
  · rw [hnode] at hy
    by_cases hb : b = a
    · rw [if_pos hb] at hy
      obtain rfl := Option.some.inj hy
      subst hb
      refine ⟨⟨0, 0, Counts.zero fun c hc => ?_, Counts.zero fun t ht => ?_, ?_⟩, Nat.one_pos⟩
      · rw [hpeer] at hc
        exact h.peer c b hc ha
      · have ht : g.connecting t = some b := ht
        unfold connecting at ht
        cases hcall : g.call t with
        | none =>
          rw [hcall] at ht
          exact nomatch ht
        | some w =>
          rw [hcall] at ht
          cases w with
          | connect s v =>
            obtain rfl := Option.some.inj ht
            exact (h.calls t _ hcall).2 ha
          | _ => exact nomatch ht
      · unfold Graph.create
        dsimp only
        rw [update_self]
        rfl
    · rw [if_neg hb] at hy
      refine (h.refs b y hy).congr (fun c => by rw [hpeer]) (fun _ => Iff.rfl) ?_ rfl
      exact update_of_ne hb _ _
  · rw [hpeer] at hv
    exact hstay v (h.peer b v hv)
  · rw [hnode] at hy
    by_cases hb : b = a
    · rw [if_pos hb] at hy
      obtain rfl := Option.some.inj hy
      exact absurd hc List.not_mem_nil
    · rw [if_neg hb] at hy
      exact hstay c (h.pending b y c hy hc)
  · by_cases hba : b = a
    · rw [hnode, if_pos hba]
      exact Option.some_ne_none _
    · refine hstay b (h.owned b ?_)
      unfold Graph.create at hb
      dsimp only at hb
      rwa [update_of_ne hba] at hb
  · unfold Graph.create at hj ⊢
    dsimp only at hj ⊢
    by_cases hji : j = i
    · subst hji
      rw [update_self] at hj
      obtain rfl := Option.some.inj hj
      refine ⟨update_self _ _ _, hi, fun k hk => ?_⟩
      by_cases hkj : k = j
      · exact hkj.symm
      · rw [update_of_ne hkj] at hk
        exact absurd hk (hnotable k)
    · rw [update_of_ne hji] at hj
      obtain ⟨howned, hlt, hone⟩ := h.table j b hj
      refine ⟨?_, hlt, fun k hk => ?_⟩
      · rw [update_of_ne (hne (h.owned b howned))]
        exact howned
      · by_cases hki : k = i
        · rw [hki, update_self] at hk
          exact absurd (Option.some.inj hk ▸ hj) (hnotable j)
        · rw [update_of_ne hki] at hk
          exact hone k hk

/-- Socket `b`, which had no peer, gets the peer `v`. -/
def link (g : Graph) (b v : ℕ) (x y : Node) : Graph :=
  (g.setNode v { y with refCount := y.refCount + 1 }).setNode b
    { x with peer := some v, refCount := if b = v then x.refCount + 1 else x.refCount }

theorem Good.link (h : g.Good max) (hb : g.node b = some x) (hv : g.node v = some y) (hnone : x.peer = none) :
    (g.link b v x y).Good max := by
  have hnode (c : ℕ) : (g.link b v x y).node c =
      if c = b then some { x with peer := some v, refCount := if b = v then x.refCount + 1 else x.refCount }
      else if c = v then some { y with refCount := y.refCount + 1 } else g.node c := by
    unfold Graph.link
    rw [setNode_node, setNode_node]
  have hpeer (c : ℕ) : (g.link b v x y).peerOf c = if c = b then some v else g.peerOf c := by
    unfold Graph.link
    rw [setNode_peerOf, setNode_peerOf]
    by_cases hcb : c = b
    · rw [if_pos hcb, if_pos hcb]
    · rw [if_neg hcb, if_neg hcb]
      by_cases hcv : c = v
      · rw [if_pos hcv, hcv, peerOf_eq hv]
      · rw [if_neg hcv]
  have hold : g.peerOf b = none := by rw [peerOf_eq hb, hnone]
  have hstay (c : ℕ) (hc : g.node c ≠ none) : (g.link b v x y).node c ≠ none := setNode_ne_none (setNode_ne_none hc)
  have hkept (c : ℕ) (u : ℕ) (hu : g.peerOf c = some u) : (g.link b v x y).peerOf c = some u := by
    rw [hpeer, if_neg]
    · exact hu
    · rintro rfl
      rw [hold] at hu
      exact nomatch hu
  have hcounts {c : ℕ} {z z' : Node} (hc : g.Counted c z)
      (hz : z'.refCount = if c = v then z.refCount + 1 else z.refCount) : (g.link b v x y).Counted c z' := by
    by_cases hcv : c = v
    · subst hcv
      obtain ⟨⟨n, m, hn, hm, hsum⟩, hpos⟩ := hc
      rw [if_pos rfl] at hz
      refine ⟨⟨n + 1, m, hn.add (i := b) ?_ ?_ fun j hj => ?_, hm, ?_⟩, by omega⟩
      · rw [hold]
        exact nofun
      · rw [hpeer, if_pos rfl]
      · rw [hpeer, if_neg hj]
      · have howned : (g.link b c x y).owned = g.owned := rfl
        rw [howned]
        omega
    · rw [if_neg hcv] at hz
      refine hc.congr (fun d => ?_) (fun _ => Iff.rfl) rfl hz
      rw [hpeer]
      by_cases hdb : d = b
      · rw [if_pos hdb, hdb, hold]
        exact iff_of_false (fun heq => hcv (Option.some.inj heq).symm) nofun
      · rw [if_neg hdb]
  refine ⟨fun c z hz => ?_, fun c u hu => ?_, fun c z d hz hd => ?_, fun c hc => hstay c (h.owned c hc), h.table,
    fun t w hw => (h.calls t w hw).mono hstay hkept⟩
  · rw [hnode] at hz
    by_cases hcb : c = b
    · rw [if_pos hcb] at hz
      obtain rfl := Option.some.inj hz
      subst hcb
      exact hcounts (h.refs c x hb) rfl
    · rw [if_neg hcb] at hz
      by_cases hcv : c = v
      · rw [if_pos hcv] at hz
        obtain rfl := Option.some.inj hz
        subst hcv
        exact hcounts (h.refs c y hv) (if_pos rfl).symm
      · rw [if_neg hcv] at hz
        exact hcounts (h.refs c z hz) (if_neg hcv).symm
  · rw [hpeer] at hu
    by_cases hcb : c = b
    · rw [if_pos hcb] at hu
      obtain rfl := Option.some.inj hu
      refine hstay v ?_
      rw [hv]
      exact Option.some_ne_none _
    · rw [if_neg hcb] at hu
      exact hstay u (h.peer c u hu)
  · rw [hnode] at hz
    by_cases hcb : c = b
    · rw [if_pos hcb] at hz
      obtain rfl := Option.some.inj hz
      exact hstay d (h.pending b x d hb hd)
    · rw [if_neg hcb] at hz
      by_cases hcv : c = v
      · rw [if_pos hcv] at hz
        obtain rfl := Option.some.inj hz
        exact hstay d (h.pending v y d hv hd)
      · rw [if_neg hcv] at hz
        exact hstay d (h.pending c z d hz hd)

theorem setCall_connecting {w : Option Refers} {u : ℕ} :
    (g.setCall t w).connecting u = if u = t then w.bind Refers.server else g.connecting u := by
  unfold connecting setCall
  dsimp only
  by_cases hu : u = t
  · rw [if_pos hu, hu, update_self]
  · rw [if_neg hu, update_of_ne hu]

/-- A call waits or goes on that has no reference to a server. -/
theorem Good.setCall (h : g.Good max) {w : Option Refers} (hold : g.connecting t = none)
    (hnew : w.bind Refers.server = none) (hw : ∀ x, w = some x → g.CallOk x) : (g.setCall t w).Good max := by
  refine ⟨fun a x hx => (h.refs a x hx).congr (fun _ => Iff.rfl) (fun u => ?_) rfl rfl, h.peer, h.pending, h.owned,
    h.table, fun u x hx => ?_⟩
  · rw [setCall_connecting]
    by_cases hu : u = t
    · rw [if_pos hu, hu, hold, hnew]
    · rw [if_neg hu]
  · have hok : g.CallOk x := by
      unfold Graph.setCall at hx
      dsimp only at hx
      by_cases hu : u = t
      · rw [hu, update_self] at hx
        exact hw x hx
      · rw [update_of_ne hu] at hx
        exact h.calls u x hx
    cases x <;> exact hok

/-- A reference more or less is counted when a call that connects waits or goes on. -/
theorem Good.setServer (h : g.Good max) {w : Option Refers} (hv : g.node v = some x) (hw : ∀ x, w = some x → g.CallOk x)
    (hcount : ∀ m, Counts (fun u => g.connecting u = some v) m →
      ∃ m', Counts (fun u => (g.setCall t w).connecting u = some v) m' ∧ y.refCount + m = x.refCount + m')
    (hother : ∀ a u, a ≠ v → ((g.setCall t w).connecting u = some a ↔ g.connecting u = some a))
    (hpos : 0 < y.refCount) (hpeer : y.peer = x.peer) (hpending : y.pending = x.pending) :
    ((g.setCall t w).setNode v y).Good max := by
  have hpeers (b : ℕ) : ((g.setCall t w).setNode v y).peerOf b = g.peerOf b := by
    rw [setNode_peerOf]
    by_cases hb : b = v
    · rw [if_pos hb, hb, peerOf_eq hv, hpeer]
    · rw [if_neg hb]
      rfl
  have hstay (b : ℕ) (hb : g.node b ≠ none) : ((g.setCall t w).setNode v y).node b ≠ none := setNode_ne_none hb
  refine ⟨fun a z hz => ?_, fun b a ha => ?_, fun b z c hz hc => ?_, fun a ha => hstay a (h.owned a ha), h.table,
    fun u z hz => ?_⟩
  · rw [setNode_node] at hz
    by_cases hav : a = v
    · rw [if_pos hav] at hz
      obtain rfl := Option.some.inj hz
      subst hav
      obtain ⟨⟨n, m, hn, hm, hsum⟩, -⟩ := h.refs a x hv
      obtain ⟨m', hm', hdiff⟩ := hcount m hm
      refine ⟨⟨n, m', hn.congr fun b => by rw [hpeers], hm', ?_⟩, hpos⟩
      have howned : ((g.setCall t w).setNode a y).owned = g.owned := rfl
      rw [howned]
      omega
    · rw [if_neg hav] at hz
      exact (h.refs a z hz).congr (fun b => by rw [hpeers]) (fun u => hother a u hav) rfl rfl
  · rw [hpeers] at ha
    exact hstay a (h.peer b a ha)
  · rw [setNode_node] at hz
    by_cases hbv : b = v
    · rw [if_pos hbv] at hz
      obtain rfl := Option.some.inj hz
      rw [hpending] at hc
      exact hstay c (h.pending v x c hv hc)
    · rw [if_neg hbv] at hz
      exact hstay c (h.pending b z c hz hc)
  · have hok : g.CallOk z := by
      have hz : Function.update g.call t w u = some z := hz
      by_cases hu : u = t
      · rw [hu, update_self] at hz
        exact hw z hz
      · rw [update_of_ne hu] at hz
        exact h.calls u z hz
    exact hok.mono hstay fun b v' hb => (hpeers b).trans hb

/-- A call waits that connects to `v` and has taken a reference to it. -/
theorem Good.startConnect (h : g.Good max) {s : ℕ} (hv : g.node v = some x) (hs : g.node s ≠ none)
    (ht : g.connecting t = none) :
    ((g.setCall t (some (.connect s v))).setNode v { x with refCount := x.refCount + 1 }).Good max := by
  have hserver (u : ℕ) : (g.setCall t (some (.connect s v))).connecting u = if u = t then some v else g.connecting u :=
    setCall_connecting
  refine h.setServer hv (fun w hw => ?_) (fun m hm => ?_) (fun a u ha => ?_) (Nat.succ_pos _) rfl rfl
  · obtain rfl := Option.some.inj hw
    refine ⟨hs, ?_⟩
    rw [hv]
    exact Option.some_ne_none _
  · refine ⟨m + 1, hm.add (i := t) ?_ ?_ fun u hu => ?_, ?_⟩
    · rw [ht]
      exact nofun
    · rw [hserver, if_pos rfl]
    · rw [hserver, if_neg hu]
    · dsimp only
      omega
  · rw [hserver]
    by_cases hu : u = t
    · rw [if_pos hu, hu, ht]
      exact iff_of_false (fun heq => ha (Option.some.inj heq).symm) nofun
    · rw [if_neg hu]

/-- A call that connected gives back its reference, which was not the last one. -/
theorem Good.endConnect (h : g.Good max) {s : ℕ} (hv : g.node v = some x) (ht : g.call t = some (.connect s v))
    (hmore : 1 < x.refCount) :
    ((g.setCall t none).setNode v { x with refCount := x.refCount - 1 }).Good max := by
  have hold : g.connecting t = some v := by
    rw [connecting, ht]
    rfl
  have hserver (u : ℕ) : (g.setCall t none).connecting u = if u = t then none else g.connecting u := setCall_connecting
  refine h.setServer hv (fun _ hw => nomatch hw) (fun m hm => ?_) (fun a u ha => ?_) (by dsimp only; omega) rfl rfl
  · obtain ⟨m', rfl, hm'⟩ := hm.remove (i := t) (p := fun u => (g.setCall t none).connecting u = some v)
      (by rw [hserver, if_pos rfl]; exact nofun) hold fun u hu => by rw [hserver, if_neg hu]
    refine ⟨m', hm', ?_⟩
    dsimp only
    omega
  · rw [hserver]
    by_cases hu : u = t
    · rw [if_pos hu, hu, hold]
      exact iff_of_false nofun fun heq => ha (Option.some.inj heq).symm
    · rw [if_neg hu]

/-- A socket without a peer is closed: its owner's reference goes, and the socket with the last reference. -/
def close (g : Graph) (a : ℕ) (x : Node) (table : ℕ → Option ℕ) : Graph where
  node := Function.update g.node a
    (if x.refCount - 1 = 0 then none else some ⟨none, x.refCount - 1, []⟩)
  table := table
  owned := Function.update g.owned a false
  call := g.call

theorem Good.close (h : g.Good max) (hx : g.node a = some x) (hnone : x.peer = none) (howned : g.owned a = true)
    {table : ℕ → Option ℕ} (htable : ∀ i b, table i = some b ↔ g.table i = some b ∧ b ≠ a)
    (hlast : x.refCount = 1 → (∀ b y, b ≠ a → g.node b = some y → a ∉ y.pending) ∧
      ∀ t w, g.call t = some w → ¬ w.to a) : (g.close a x table).Good max := by
  have hold : g.peerOf a = none := by rw [peerOf_eq hx, hnone]
  have hnode (b : ℕ) : (g.close a x table).node b =
      if b = a then if x.refCount - 1 = 0 then none else some ⟨none, x.refCount - 1, []⟩ else g.node b := by
    by_cases hb : b = a
    · rw [if_pos hb, hb]
      exact update_self _ _ _
    · rw [if_neg hb]
      exact update_of_ne hb _ _
  have hpeer (b : ℕ) : (g.close a x table).peerOf b = g.peerOf b := by
    unfold peerOf
    rw [hnode]
    by_cases hb : b = a
    · rw [if_pos hb, hb]
      rw [peerOf] at hold
      rw [hold]
      by_cases hzero : x.refCount - 1 = 0
      · rw [if_pos hzero]
        rfl
      · rw [if_neg hzero]
        rfl
    · rw [if_neg hb]
  obtain ⟨⟨n, m, hn, hm, hsum⟩, hpos⟩ := h.refs a x hx
  rw [howned] at hsum
  have hone : x.refCount = 1 + n + m := hsum
  have hgone (hzero : x.refCount - 1 = 0) : n = 0 ∧ m = 0 := by omega
  have hstay {b : ℕ} (hb : g.node b ≠ none) (hba : b = a → x.refCount ≠ 1) : (g.close a x table).node b ≠ none := by
    rw [hnode]
    by_cases hb' : b = a
    · rw [if_pos hb', if_neg]
      · exact Option.some_ne_none _
      · have := hba hb'
        omega
    · rwa [if_neg hb']
  refine ⟨fun b y hy => ?_, fun b v hv => ?_, fun b y c hy hc => ?_, fun b hb => ?_, fun i b hb => ?_,
    fun t w hw => ?_⟩
  · rw [hnode] at hy
    by_cases hba : b = a
    · subst hba
      rw [if_pos rfl] at hy
      by_cases hzero : x.refCount - 1 = 0
      · rw [if_pos hzero] at hy
        exact nomatch hy
      · rw [if_neg hzero] at hy
        obtain rfl := Option.some.inj hy
        refine ⟨⟨n, m, hn.congr fun c => by rw [hpeer], hm, ?_⟩, Nat.pos_of_ne_zero hzero⟩
        have hfalse : (g.close b x table).owned b = false := update_self _ _ _
        rw [hfalse]
        change x.refCount - 1 = 0 + n + m
        omega
    · rw [if_neg hba] at hy
      exact (h.refs b y hy).congr (fun c => by rw [hpeer]) (fun _ => Iff.rfl) (update_of_ne hba _ _) rfl
  · rw [hpeer] at hv
    refine hstay (h.peer b v hv) ?_
    rintro rfl hlast
    obtain ⟨rfl, -⟩ := hgone (by omega)
    exact hn.not_of_zero hv
  · rw [hnode] at hy
    by_cases hba : b = a
    · rw [if_pos hba] at hy
      by_cases hzero : x.refCount - 1 = 0
      · rw [if_pos hzero] at hy
        exact nomatch hy
      · rw [if_neg hzero] at hy
        obtain rfl := Option.some.inj hy
        exact absurd hc List.not_mem_nil
    · rw [if_neg hba] at hy
      refine hstay (h.pending b y c hy hc) ?_
      rintro rfl hone'
      exact (hlast hone').1 b y hba hy hc
  · by_cases hba : b = a
    · rw [hba] at hb
      have hfalse : (g.close a x table).owned a = false := update_self _ _ _
      rw [hfalse] at hb
      exact nomatch hb
    · refine hstay (h.owned b ?_) fun heq => absurd heq hba
      have hsame : (g.close a x table).owned b = g.owned b := update_of_ne hba _ _
      rwa [hsame] at hb
  · obtain ⟨hb', hba⟩ := (htable i b).mp hb
    obtain ⟨hown, hlt, huniq⟩ := h.table i b hb'
    refine ⟨?_, hlt, fun j hj => huniq j ((htable j b).mp hj).1⟩
    exact (update_of_ne hba _ _).trans hown
  · have hok := h.calls t w hw
    have hto {b : ℕ} (hb : w.to b) : b = a → x.refCount ≠ 1 := by
      rintro rfl hone'
      exact (hlast hone').2 t w hw hb
    cases w with
    | accept l => exact hstay hok (hto rfl)
    | connect s v => exact ⟨hstay hok.1 (hto (.inl rfl)), hstay hok.2 (hto (.inr rfl))⟩
    | send s v => exact (hpeer s).trans hok
    | recv s => exact hstay hok (hto rfl)

end Graph

end Unixsock.Life
