import Kenux.Net.Proofs.Frames

/-!
# Who has which control block
-/

namespace Net

open Memory Run

variable {s s' : State} {b : Block} {k i fd : ℕ}

/-- A descriptor points to the block. -/
def Refers (s : State) (b : Block) : Prop := ∃ fd, (s.sockets fd).block = some b

def AllClosed (s : State) : Prop := ∀ fd < maxSockets, (s.sockets fd).domain = 0

/-- No two descriptors share a block, and when none is open every block counts as free. -/
structure Sound (s : State) : Prop where
  apart : ∀ fd fd' b, (s.sockets fd).block = some b → (s.sockets fd').block = some b → fd = fd'
  free : AllClosed s →
    (∀ k < tcpMaxSockets, (s.tcp k).field .state = tcpClosed) ∧ ∀ k < udpMaxSockets, s.udpGet k .bound = 0

/-- No block that a descriptor points to is given to a new connection. -/
def NewSafe (s s' : State) : Prop :=
  ∀ i, (s.tcp i).field .state ≠ tcpSynRecv → (s'.tcp i).field .state = tcpSynRecv → ¬ Refers s (.tcp i)

/-- The condition on a call: the block that counts as free first is not one that a descriptor points to, when it is
given away; and when the last open descriptor is closed, no TCP block but its own is in use and no UDP block is
bound. -/
def Unshared (s : State) : Call → Prop
  | .socket domain type => domain = afInet → freeFd s ≠ none →
    (type = .stream → ∀ i, firstClosed s = some i → ¬ Refers s (.tcp i)) ∧
    (type = .dgram → ∀ i, firstUnbound s = some i → ¬ Refers s (.udp i))
  | .segment p _ => 20 ≤ p.len → ∀ l i, tcpFindSocket p.dstPort p.srcIp p.srcPort s = some l →
    (s.tcp l).field .state = tcpListen → p.flags.syn = true → firstClosed s = some i → ¬ Refers s (.tcp i)
  | .close fd _ => fd < maxSockets → (∀ fd' < maxSockets, fd' ≠ fd → (s.sockets fd').domain = 0) →
    (∀ k < tcpMaxSockets, (s.sockets fd).block ≠ some (.tcp k) → (s.tcp k).field .state = tcpClosed) ∧
    ∀ k < udpMaxSockets, s.udpGet k .bound = 0
  | _ => True

/-- What every run keeps. -/
structure Inv (s : State) : Prop extends Sound s where
  none_of_closed : ∀ fd, (s.sockets fd).domain = 0 → (s.sockets fd).block = none
  closed_above : ∀ fd, maxSockets ≤ fd → (s.sockets fd).domain = 0
  recv : ∀ k, (s.tcp k).field .state = tcpSynRecv → ¬ Refers s (.tcp k)

theorem Inv.none_above (h : Inv s) (hfd : maxSockets ≤ fd) : (s.sockets fd).block = none :=
  h.none_of_closed fd (h.closed_above fd hfd)

theorem Inv.none_of_all (h : Inv s) (hall : AllClosed s) (fd : ℕ) : (s.sockets fd).block = none := by
  by_cases hfd : maxSockets ≤ fd
  · exact h.none_above hfd
  · exact h.none_of_closed fd (hall fd (by omega))

theorem inv_start (localIp : ℕ) : Inv (start localIp) := by
  refine ⟨⟨fun _ _ _ h => (nomatch h), fun _ => ⟨fun _ _ => rfl, fun _ _ => rfl⟩⟩, fun _ _ => rfl, fun _ _ => rfl, ?_⟩
  rintro k - ⟨fd, hfd⟩
  cases hfd

/-! ## Calls that change no descriptor -/

/-- Nothing is given away. -/
theorem Inv.quiet (h : Inv s) (hsockets : s'.sockets = s.sockets)
    (hrecv : ∀ k, (s'.tcp k).field .state = tcpSynRecv → (s.tcp k).field .state = tcpSynRecv)
    (hclosed : AllClosed s → s' = s) : Inv s' ∧ NewSafe s s' := by
  refine ⟨⟨⟨?_, fun hall => ?_⟩, ?_, ?_, fun k hk hrefers => ?_⟩, fun i hi hi' => absurd (hrecv i hi') hi⟩
  · rw [hsockets]
    exact h.apart
  · have hall' : AllClosed s := by
      unfold AllClosed at hall ⊢
      rwa [hsockets] at hall
    rw [hclosed hall']
    exact h.free hall'
  · rw [hsockets]
    exact h.none_of_closed
  · rw [hsockets]
    exact h.closed_above
  · unfold Refers at hrefers
    rw [hsockets] at hrefers
    exact h.recv k (hrecv k hk) hrefers

/-- A call that changes fields of one block leaves the states of the others. -/
theorem Changes.recv {fs : List TcpField} (h : Changes b fs s s')
    (hb : ∀ k, b = .tcp k → (s'.tcp k).field .state = tcpSynRecv → (s.tcp k).field .state = tcpSynRecv) (k : ℕ)
    (hk : (s'.tcp k).field .state = tcpSynRecv) : (s.tcp k).field .state = tcpSynRecv := by
  by_cases hkb : b = .tcp k
  · exact hb k hkb hk
  · rwa [h.tcp k fun heq => hkb heq.symm] at hk

theorem inv_bind (h : Inv s) (fd ip port : ℕ) : Inv (sysBind fd ip port s).2 ∧ NewSafe s (sysBind fd ip port s).2 := by
  unfold sysBind
  split_ifs
  · exact h.quiet rfl (fun _ hk => hk) fun _ => rfl
  · exact h.quiet rfl (fun _ hk => hk) fun _ => rfl
  · cases htype : (s.sockets fd).type with
    | stream =>
      cases hblock : (s.sockets fd).block with
      | none => exact h.quiet rfl (fun _ hk => hk) fun _ => rfl
      | some b =>
        have hchanges := (changes_set s b .localIp ip).trans (changes_set _ b .localPort port)
        refine h.quiet hchanges.sockets (fun k hk => ?_) fun hall => ?_
        · rwa [hchanges.field k .state (by decide)] at hk
        · rw [h.none_of_all hall fd] at hblock
          cases hblock
    | dgram =>
      cases hblock : (s.sockets fd).block with
      | none => exact h.quiet rfl (fun _ hk => hk) fun _ => rfl
      | some b =>
        cases b with
        | tcp k => exact h.quiet rfl (fun _ hk => hk) fun _ => rfl
        | udp k =>
          refine h.quiet rfl (fun _ hk => hk) fun hall => ?_
          rw [h.none_of_all hall fd] at hblock
          cases hblock
    | other => cases (s.sockets fd).block <;> exact h.quiet rfl (fun _ hk => hk) fun _ => rfl

theorem inv_listen (h : Inv s) (fd : ℕ) : Inv (sysListen fd s).2 ∧ NewSafe s (sysListen fd s).2 := by
  unfold sysListen
  split_ifs
  · exact h.quiet rfl (fun _ hk => hk) fun _ => rfl
  · cases hblock : (s.sockets fd).block with
    | none => exact h.quiet rfl (fun _ hk => hk) fun _ => rfl
    | some b =>
      have hchanges := changes_set s b .state tcpListen
      refine h.quiet hchanges.sockets (hchanges.recv ?_) fun hall => ?_
      · rintro k rfl hk
        rw [set_field_self] at hk
        exact absurd hk (by decide)
      · rw [h.none_of_all hall fd] at hblock
        cases hblock

theorem inv_connect (h : Inv s) (fd ip port : ℕ) (alloc : Bool) :
    Inv (sysConnect fd ip port alloc s).2 ∧ NewSafe s (sysConnect fd ip port alloc s).2 := by
  by_cases hfd : fd ≥ maxSockets
  · unfold sysConnect
    rw [if_pos hfd]
    exact h.quiet rfl (fun _ hk => hk) fun _ => rfl
  · cases hblock : (s.sockets fd).block with
    | none =>
      unfold sysConnect
      rw [if_neg hfd, hblock]
      exact h.quiet rfl (fun _ hk => hk) fun _ => rfl
    | some b =>
      obtain ⟨hchanges, hstate⟩ := changes_connect b ip port alloc (Nat.not_le.mp hfd) hblock
      refine h.quiet hchanges.sockets (hchanges.recv ?_) fun hall => ?_
      · intro k hk hrecv
        rw [hstate k hk] at hrecv
        exact absurd hrecv (by decide)
      · rw [h.none_of_all hall fd] at hblock
        cases hblock

theorem inv_shutdown (h : Inv s) (fd : ℕ) (alloc : Bool) :
    Inv (sysShutdown fd alloc s).2 ∧ NewSafe s (sysShutdown fd alloc s).2 := by
  cases hblock : (s.sockets fd).block with
  | none =>
    unfold sysShutdown
    rw [hblock]
    split_ifs <;> exact h.quiet rfl (fun _ hk => hk) fun _ => rfl
  | some b =>
    obtain ⟨hchanges, hstate⟩ := changes_shutdown alloc hblock
    refine h.quiet hchanges.sockets (fun k hk => ?_) fun hall => ?_
    · rcases hstate k with hwait | hsame
      · rw [hwait] at hk
        exact absurd hk (by decide)
      · rwa [hsame] at hk
    · rw [h.none_of_all hall fd] at hblock
      cases hblock

/-! ## Packets -/

theorem firstClosed_state (h : firstClosed s = some i) : i < tcpMaxSockets ∧ (s.tcp i).field .state = tcpClosed := by
  obtain ⟨hi, hclosed, -⟩ := firstBelow_some h
  exact ⟨hi, of_decide_eq_true hclosed⟩

theorem inv_segment (h : Inv s) (p : Segment) (alloc : Bool) (hc : Unshared s (.segment p alloc)) :
    Inv (tcpHandlePacket p alloc s) ∧ NewSafe s (tcpHandlePacket p alloc s) := by
  rcases packet_cases p alloc s with hsame | ⟨hlen, l, hl, hfind, hcase⟩
  · rw [hsame]
    exact h.quiet rfl (fun _ hk => hk) fun _ => rfl
  · -- some block is in use, so some descriptor is open
    have hopen : ¬ AllClosed s := by
      intro hall
      have hclosed := (h.free hall).1 l hl
      rcases hcase with ⟨hstate, -⟩ | ⟨hstate, -⟩ | ⟨hstate, -⟩ <;>
      · rw [hstate] at hclosed
        exact absurd hclosed (by decide)
    rcases hcase with ⟨hstate, hsyn, ⟨i, hi⟩, hresult⟩ | ⟨hstate, -, hresult⟩ | ⟨hstate, hresult⟩
    · obtain ⟨hsockets, -, hother, -, hnew⟩ := handleListen_spec p alloc hsyn hi
      have hfresh := hc hlen l i hfind hstate hsyn hi
      rw [hresult]
      refine ⟨⟨⟨?_, fun hall => ?_⟩, ?_, ?_, fun k hk hrefers => ?_⟩, fun k hk hk' => ?_⟩
      · rw [hsockets]
        exact h.apart
      · unfold AllClosed at hall
        rw [hsockets] at hall
        exact absurd hall hopen
      · rw [hsockets]
        exact h.none_of_closed
      · rw [hsockets]
        exact h.closed_above
      · unfold Refers at hrefers
        rw [hsockets] at hrefers
        by_cases hki : k = i
        · exact hfresh (hki ▸ hrefers)
        · rw [hother k hki] at hk
          exact h.recv k hk hrefers
      · by_cases hki : k = i
        · exact hki ▸ hfresh
        · rw [hother k hki] at hk'
          exact absurd hk' hk
    · rw [hresult]
      have hchanges := changes_set s (.tcp l) .state tcpEstablished
      refine h.quiet hchanges.sockets (hchanges.recv fun k hk hrecv => ?_) fun hall => absurd hall hopen
      obtain rfl := Block.tcp.inj hk
      rw [set_field_self] at hrecv
      exact absurd hrecv (by decide)
    · obtain ⟨hsockets, -, hother, -, hstate'⟩ := handleEstablished_spec l p alloc s
      rw [hresult]
      refine h.quiet hsockets (fun k hk => ?_) fun hall => absurd hall hopen
      by_cases hkl : k = l
      · rw [hkl] at hk
        rcases hstate' with hsame | hwait
        · rw [hsame, hstate] at hk
          exact absurd hk (by decide)
        · rw [hwait] at hk
          exact absurd hk (by decide)
      · rwa [hother k hkl] at hk

/-! ## Opening, accepting and closing -/

theorem setSocket_block (s : State) (fd fd' : ℕ) (x : Socket) :
    (s.setSocket fd x).sockets fd' = if fd' = fd then x else s.sockets fd' := Function.update_apply ..

theorem freeFd_spec (h : freeFd s = some fd) : fd < maxSockets ∧ (s.sockets fd).domain = 0 := by
  obtain ⟨hfd, hfree, -⟩ := firstBelow_some h
  exact ⟨hfd, of_decide_eq_true hfree⟩

/-- A free descriptor gets a block that no descriptor points to, or none. -/
theorem Inv.opened (h : Inv s) (hfd : freeFd s = some fd) {x : Socket} (hdomain : x.domain ≠ 0)
    (hfresh : ∀ b, x.block = some b → ¬ Refers s b) (hsockets : s'.sockets = (s.setSocket fd x).sockets)
    (hrecv : ∀ k, (s'.tcp k).field .state = tcpSynRecv → (s.tcp k).field .state = tcpSynRecv ∧ x.block ≠ some (.tcp k)) :
    Inv s' ∧ NewSafe s s' := by
  obtain ⟨hlt, hfree⟩ := freeFd_spec hfd
  have hat (fd' : ℕ) : s'.sockets fd' = if fd' = fd then x else s.sockets fd' := by
    rw [hsockets]
    exact setSocket_block s fd fd' x
  refine ⟨⟨⟨fun fd₁ fd₂ b h₁ h₂ => ?_, fun hall => ?_⟩, fun fd' hd => ?_, fun fd' hle => ?_, fun k hk hrefers => ?_⟩,
    fun i hi hi' => absurd (hrecv i hi').1 hi⟩
  · rw [hat] at h₁ h₂
    split_ifs at h₁ h₂ with heq₁ heq₂ heq₂
    · exact heq₁.trans heq₂.symm
    · exact absurd ⟨fd₂, h₂⟩ (hfresh b h₁)
    · exact absurd ⟨fd₁, h₁⟩ (hfresh b h₂)
    · exact h.apart fd₁ fd₂ b h₁ h₂
  · have := hall fd hlt
    rw [hat, if_pos rfl] at this
    exact absurd this hdomain
  · rw [hat] at hd ⊢
    split_ifs at hd ⊢ with heq
    · exact absurd hd hdomain
    · exact h.none_of_closed fd' hd
  · rw [hat, if_neg (by omega)]
    exact h.closed_above fd' hle
  · obtain ⟨hk, hnot⟩ := hrecv k hk
    obtain ⟨fd', hfd'⟩ := hrefers
    rw [hat] at hfd'
    split_ifs at hfd' with heq
    · exact hnot hfd'
    · exact h.recv k hk ⟨fd', hfd'⟩

theorem inv_accept (h : Inv s) (fd : ℕ) : Inv (sysAccept fd s).2 ∧ NewSafe s (sysAccept fd s).2 := by
  rcases accept_cases fd s with ⟨hsame, -⟩ | ⟨i, newFd, -, -, -, hstate, hnew, hresult, -⟩
  · rw [hsame]
    exact h.quiet rfl (fun _ hk => hk) fun _ => rfl
  · rw [hresult]
    refine h.opened hnew (x := ⟨afInet, .stream, some (.tcp i)⟩) (show afInet ≠ 0 by decide) (fun b hb => ?_) rfl fun k hk => ?_
    · rw [← Option.some.inj hb]
      exact h.recv i hstate
    · rw [set_field] at hk
      split_ifs at hk with hki
      · exact absurd hk (by decide)
      · exact ⟨hk, fun heq => hki ⟨(Block.tcp.inj (Option.some.inj heq)).symm, rfl⟩⟩

/-- A descriptor is cleared. -/
theorem Inv.cleared (h : Inv s) (hsockets : s'.sockets = (s.setSocket fd .zero).sockets)
    (hrecv : ∀ k, (s'.tcp k).field .state = tcpSynRecv → (s.tcp k).field .state = tcpSynRecv)
    (hfree : AllClosed s' →
      (∀ k < tcpMaxSockets, (s'.tcp k).field .state = tcpClosed) ∧ ∀ k < udpMaxSockets, s'.udpGet k .bound = 0) :
    Inv s' ∧ NewSafe s s' := by
  have hat (fd' : ℕ) : s'.sockets fd' = if fd' = fd then .zero else s.sockets fd' := by
    rw [hsockets]
    exact setSocket_block s fd fd' .zero
  have hblock {fd' : ℕ} {b : Block} (hb : (s'.sockets fd').block = some b) : (s.sockets fd').block = some b := by
    rw [hat] at hb
    split_ifs at hb
    · cases hb
    · exact hb
  refine ⟨⟨⟨fun fd₁ fd₂ b h₁ h₂ => h.apart fd₁ fd₂ b (hblock h₁) (hblock h₂), hfree⟩, fun fd' hd => ?_,
    fun fd' hle => ?_, fun k hk hrefers => ?_⟩, fun i hi hi' => absurd (hrecv i hi') hi⟩
  · rw [hat] at hd ⊢
    split_ifs at hd ⊢ with heq
    · rfl
    · exact h.none_of_closed fd' hd
  · rw [hat]
    split_ifs
    · rfl
    · exact h.closed_above fd' hle
  · obtain ⟨fd', hfd'⟩ := hrefers
    exact h.recv k (hrecv k hk) ⟨fd', hblock hfd'⟩

theorem inv_socket (h : Inv s) (domain : ℕ) (type : SockType) (hc : Unshared s (.socket domain type)) :
    Inv (sysSocket domain type s).2 ∧ NewSafe s (sysSocket domain type s).2 := by
  have hsame : Inv s ∧ NewSafe s s := h.quiet rfl (fun _ hk => hk) fun _ => rfl
  unfold sysSocket
  split_ifs with hdomain
  · exact hsame
  · have hdomain := not_not.mp hdomain
    cases hfd : freeFd s with
    | none => exact hsame
    | some fd =>
      obtain ⟨hstream, hdgram⟩ := hc hdomain (by simp [hfd])
      obtain ⟨hlt, hfree⟩ := freeFd_spec hfd
      have hcleared : Inv (s.setSocket fd .zero) ∧ NewSafe s (s.setSocket fd .zero) := by
        refine h.cleared rfl (fun _ hk => hk) fun hall => h.free fun fd' hfd' => ?_
        by_cases heq : fd' = fd
        · exact heq ▸ hfree
        · have hsame := hall fd' hfd'
          rwa [setSocket_block, if_neg heq] at hsame
      have hne : domain ≠ 0 := by
        rw [hdomain]
        decide
      cases type with
      | stream =>
        cases hi : firstClosed s with
        | none => exact hcleared
        | some i =>
          refine h.opened hfd (x := ⟨domain, .stream, some (.tcp i)⟩) hne (fun b hb => ?_) rfl fun k hk => ?_
          · rw [← Option.some.inj hb]
            exact hstream rfl i hi
          · change (Function.update s.tcp i _ k).field .state = _ at hk
            by_cases hki : k = i
            · subst hki
              rw [Function.update_self] at hk
              exact absurd hk (by simp [tcpClosed, tcpSynRecv])
            · rw [Function.update_of_ne hki] at hk
              exact ⟨hk, fun heq => hki (Block.tcp.inj (Option.some.inj heq)).symm⟩
      | dgram =>
        cases hi : firstUnbound s with
        | none => exact hcleared
        | some i =>
          refine h.opened hfd (x := ⟨domain, .dgram, some (.udp i)⟩) hne (fun b hb => ?_) rfl fun k hk => ⟨hk, nofun⟩
          rw [← Option.some.inj hb]
          exact hdgram rfl i hi
      | other =>
        exact h.opened hfd (x := ⟨domain, .other, none⟩) hne (fun b hb => nomatch hb) rfl fun k hk => ⟨hk, nofun⟩

/-- What a close does to the blocks. -/
theorem close_spec (hfd : fd < maxSockets) (alloc : Bool) :
    (sysCloseSocket fd alloc s).2.sockets = (s.setSocket fd .zero).sockets ∧
    (∀ k, ((sysCloseSocket fd alloc s).2.tcp k).field .state =
      if (s.sockets fd).block = some (.tcp k) then tcpClosed else (s.tcp k).field .state) ∧
    ∀ k, (sysCloseSocket fd alloc s).2.udpGet k .bound = s.udpGet k .bound := by
  unfold sysCloseSocket
  rw [if_neg (Nat.not_le.mpr hfd)]
  cases hb : (s.sockets fd).block with
  | none => exact ⟨rfl, fun k => (if_neg (by simp)).symm, fun _ => rfl⟩
  | some b =>
    dsimp only
    generalize h₁ : (if s.get b .state = tcpEstablished ∨ s.get b .state = tcpCloseWait then (sysShutdown fd alloc s).2
      else s) = s₁
    have hc₁ : Changes b [.state, .sndNxt] s s₁ := by
      rw [← h₁]
      split_ifs
      · exact (changes_shutdown alloc hb).1
      · exact (Changes.refl b s).mono (List.nil_subset _)
    have hc := hc₁.trans (changes_set s₁ b .state tcpClosed)
    refine ⟨?_, fun k => ?_, fun k => hc.bound (by decide) k⟩
    · change Function.update (s₁.set b .state tcpClosed).sockets fd _ = _
      rw [hc.sockets]
      rfl
    · change ((s₁.set b .state tcpClosed).tcp k).field .state = _
      split_ifs with hk
      · obtain rfl := Option.some.inj hk
        rw [set_field_self]
        rfl
      · rw [hc.tcp k fun heq => hk (congrArg some heq.symm)]

theorem allClosed_close (h : ∀ fd' < maxSockets, fd' ≠ fd → (s.sockets fd').domain = 0)
    (hsockets : s'.sockets = (s.setSocket fd .zero).sockets) : AllClosed s' := by
  intro fd' hfd'
  rw [hsockets, setSocket_block]
  split_ifs with heq
  · rfl
  · exact h fd' hfd' heq

theorem inv_close (h : Inv s) (alloc : Bool) (hc : Unshared s (.close fd alloc)) :
    Inv (sysCloseSocket fd alloc s).2 ∧ NewSafe s (sysCloseSocket fd alloc s).2 := by
  by_cases hfd : fd < maxSockets
  · obtain ⟨hsockets, hstate, hbound⟩ := close_spec (s := s) hfd alloc
    refine h.cleared hsockets (fun k hk => ?_) fun hall => ?_
    · rw [hstate] at hk
      split_ifs at hk
      · exact absurd hk (by decide)
      · exact hk
    · obtain ⟨htcp, hudp⟩ := hc hfd fun fd' hfd' hne => by
        have hsame := hall fd' hfd'
        rwa [hsockets, setSocket_block, if_neg hne] at hsame
      refine ⟨fun k hk => ?_, fun k hk => (hbound k).trans (hudp k hk)⟩
      rw [hstate]
      split_ifs with hb
      · rfl
      · exact htcp k hk hb
  · unfold sysCloseSocket
    rw [if_pos (Nat.not_lt.mp hfd)]
    exact h.quiet rfl (fun _ hk => hk) fun _ => rfl

/-! ## The condition is exact -/

theorem step_spec (h : Inv s) {c : Call} (hc : Unshared s c) (hstep : step s c = some s') : Inv s' ∧ NewSafe s s' := by
  cases c <;> obtain rfl := Option.some.inj hstep
  case socket domain type => exact inv_socket h domain type hc
  case bind fd ip port => exact inv_bind h fd ip port
  case listen fd => exact inv_listen h fd
  case connect fd ip port alloc => exact inv_connect h fd ip port alloc
  case accept fd => exact inv_accept h fd
  case shutdown fd alloc => exact inv_shutdown h fd alloc
  case close fd alloc => exact inv_close h alloc hc
  case segment p alloc => exact inv_segment h p alloc hc

/-- A descriptor that another one's block was given to shares it. -/
theorem not_refers_of_given {x : Socket} (h : Inv s) (hs' : Sound s') (hfd : freeFd s = some fd)
    (hsockets : s'.sockets = (s.setSocket fd x).sockets) (hb : x.block = some b) : ¬ Refers s b := by
  rintro ⟨fd', hfd'⟩
  obtain ⟨-, hfree⟩ := freeFd_spec hfd
  have hne : fd' ≠ fd := by
    rintro rfl
    rw [h.none_of_closed fd' hfree] at hfd'
    cases hfd'
  refine hne (hs'.apart fd' fd b ?_ ?_)
  · rwa [hsockets, setSocket_block, if_neg hne]
  · rwa [hsockets, setSocket_block, if_pos rfl]

theorem unshared_of_sound (h : Inv s) {c : Call} (hstep : step s c = some s') (hs' : Sound s') (hnew : NewSafe s s') :
    Unshared s c := by
  cases c <;> obtain rfl := Option.some.inj hstep
  case socket domain type =>
    intro hdomain hfree
    obtain ⟨fd, hfd⟩ := Option.ne_none_iff_exists'.mp hfree
    unfold sysSocket at hs'
    rw [if_neg (not_not.mpr hdomain), hfd] at hs'
    refine ⟨fun htype i hi => ?_, fun htype i hi => ?_⟩
    · subst htype
      dsimp only at hs'
      rw [hi] at hs'
      exact not_refers_of_given (x := ⟨domain, .stream, some (.tcp i)⟩) h hs' hfd rfl rfl
    · subst htype
      dsimp only at hs'
      rw [hi] at hs'
      exact not_refers_of_given (x := ⟨domain, .dgram, some (.udp i)⟩) h hs' hfd rfl rfl
  case close fd alloc =>
    intro hfd hothers
    obtain ⟨hsockets, hstate, hbound⟩ := close_spec (s := s) hfd alloc
    obtain ⟨htcp, hudp⟩ := hs'.free (allClosed_close hothers hsockets)
    refine ⟨fun k hk hb => ?_, fun k hk => (hbound k).symm.trans (hudp k hk)⟩
    have hclosed := htcp k hk
    rwa [hstate, if_neg hb] at hclosed
  case segment p alloc =>
    intro hlen l i hfind hlisten hsyn hi
    obtain ⟨-, -, -, -, hrecv⟩ := handleListen_spec p alloc hsyn hi
    refine hnew i ?_ ?_
    · rw [(firstClosed_state hi).2]
      decide
    · rw [packet_listen (by omega) hfind hlisten]
      exact hrecv
  all_goals exact trivial

/-- From empty tables, in every run of calls that meet the condition no two descriptors share a block and nothing leaks,
and from there a call keeps that, and gives no block away that a descriptor points to, exactly if it meets the
condition. -/
theorem blocks_sound_iff (localIp : ℕ) (s : State) (hrun : Reach step Unshared (start localIp) s) :
    Sound s ∧ ∀ c s', step s c = some s' → (Sound s' ∧ NewSafe s s' ↔ Unshared s c) := by
  have hinv : Inv s := by
    refine hrun.invariant (inv_start localIp) fun s c s' hs hc hstep => ?_
    exact (step_spec hs hc hstep).1
  refine ⟨hinv.toSound, fun c s' hstep => ⟨fun h => unshared_of_sound hinv hstep h.1 h.2, fun hc => ?_⟩⟩
  obtain ⟨hinv', hnew⟩ := step_spec hinv hc hstep
  exact ⟨hinv'.toSound, hnew⟩

theorem blocks_sound_one : ∃ s, run step (start 1) [.socket 2 .stream] = some s ∧ Sound s := by
  obtain ⟨s, hs⟩ : ∃ s, step (start 1) (.socket 2 .stream) = some s := ⟨_, rfl⟩
  have hc : Unshared (start 1) (.socket 2 .stream) := by
    refine fun _ _ => ⟨fun _ i _ => ?_, nofun⟩
    rintro ⟨fd, hfd⟩
    cases hfd
  refine ⟨s, ?_, (blocks_sound_iff 1 s (.step (.socket 2 .stream) .start hc hs)).1⟩
  rw [run_cons hs, run_nil]

/-- Two stream sockets, one after the other, get the same block. -/
theorem blocks_not_sound : ∃ s, run step (start 1) [.socket 2 .stream, .socket 2 .stream] = some s ∧ ¬ Sound s := by
  refine ⟨_, rfl, fun h => ?_⟩
  exact absurd (h.apart 0 1 (.tcp 0) rfl rfl) (by decide)

end Net
