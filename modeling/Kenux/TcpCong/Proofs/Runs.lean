import Kenux.TcpCong.Proofs.Windows

/-!
# Runs of acknowledgements and events
-/

namespace TcpCong

variable {ν : Type} [DecidableEq ν] {s s' : State ν} {sk : ν} {w : UInt16} {ack acked : UInt32} {algo : Algo}
  {c : Call ν}

/-- No socket is stuck with an empty window. -/
def Positive (s : State ν) : Prop := ∀ sk ∈ s.sockets, s.sndWnd sk ≠ 0

/-- An acknowledgement under reno or cubic does not make the window smaller. -/
def KeepsUp (algo : Algo) (s s' : State ν) : Call ν → Prop
  | .ack sk _ _ => algo ≠ .bbr → s.sndWnd sk ≤ s'.sndWnd sk
  | _ => True

/-- When a call does what it should. -/
def CallOk (algo : Algo) (s : State ν) : Call ν → Prop
  | .init _ =>
    match algo with
    | .reno => True
    | .cubic => s.cubicSlotNext < intMax
    | .bbr => s.bbrSlotNext < intMax
  | .ack sk ack acked =>
    match algo with
    | .reno => RenoOk (s.sndWnd sk) acked
    | .cubic =>
      if (s.sndWnd sk).toNat < 65535 then (s.sndWnd sk).toNat + acked.toNat < 2 ^ 32
      else ∀ i, cubicFindState s sk = some i → CubicOk (s.cubicSlots i) ack
    | .bbr => ∀ i, bbrFindState s sk = some i → BbrOk (s.bbrSlots i) acked
  | .event _ _ => True

/-! ## The invariant -/

structure Inv (s : State ν) : Prop where
  positive : Positive s
  cubic : ∀ i, (s.cubicSlots i).sk ≠ none → CubicInv (s.cubicSlots i)
  bbr : ∀ i, BbrInv (s.bbrSlots i)

omit [DecidableEq ν] in
theorem start_inv (sndWnd : ν → UInt16) : Inv (start sndWnd) where
  positive := fun _ habsurd => absurd habsurd List.not_mem_nil
  cubic := fun _ habsurd => absurd rfl habsurd
  bbr := fun _ => ⟨rfl, rfl, Nat.zero_le _, fun _ => Nat.zero_le _, Nat.zero_le _, Or.inl ⟨rfl, rfl, Nat.zero_le _⟩⟩

@[simp] theorem setWnd_self : (s.setWnd sk w).sndWnd sk = w := by
  simp [State.setWnd]

theorem setWnd_other {x : ν} (hne : x ≠ sk) : (s.setWnd sk w).sndWnd x = s.sndWnd x := by
  simp [State.setWnd, hne]

theorem positive_setWnd (h : Positive s) (hsk : sk ∈ s.sockets) : Positive (s.setWnd sk w) ↔ w ≠ 0 := by
  constructor
  · intro hpos
    have hself := hpos sk hsk
    rwa [setWnd_self] at hself
  · intro hw x hx
    by_cases hxsk : x = sk
    · rw [hxsk, setWnd_self]
      exact hw
    · rw [setWnd_other hxsk]
      exact h x hx

theorem Inv.setWnd (h : Inv s) (hsk : sk ∈ s.sockets) (hw : w ≠ 0) : Inv (s.setWnd sk w) :=
  ⟨(positive_setWnd h.positive hsk).mpr hw, h.cubic, h.bbr⟩

omit [DecidableEq ν] in
theorem Inv.setCubic (h : Inv s) (i : ℕ) {ca : CubicState ν} (hca : CubicInv ca) : Inv (s.setCubic i ca) := by
  refine ⟨h.positive, fun j hj => ?_, h.bbr⟩
  unfold State.setCubic at hj ⊢
  dsimp only at hj ⊢
  by_cases hji : j = i
  · rw [hji, Function.update_self]
    exact hca
  · rw [Function.update_of_ne hji] at hj ⊢
    exact h.cubic j hj

omit [DecidableEq ν] in
theorem Inv.setBbr (h : Inv s) (i : ℕ) {bbr : BbrState ν} (hbbr : BbrInv bbr) : Inv (s.setBbr i bbr) := by
  refine ⟨h.positive, h.cubic, fun j => ?_⟩
  unfold State.setBbr
  dsimp only
  by_cases hji : j = i
  · rw [hji, Function.update_self]
    exact hbbr
  · rw [Function.update_of_ne hji]
    exact h.bbr j

theorem cubicFind_inv (h : Inv s) {i : ℕ} (hfind : cubicFindState s sk = some i) : CubicInv (s.cubicSlots i) := by
  unfold cubicFindState at hfind
  have hown : (s.cubicSlots i).sk = some sk := by simpa using List.find?_some hfind
  apply h.cubic
  rw [hown]
  exact Option.some_ne_none sk

/-! ## Calls -/

theorem init_inv (h : Inv s) (hinit : tcpCongInitSock algo s sk = some s') : Inv s' := by
  have hsock : Inv { s.setWnd sk tcpInitCwnd with sockets := sk :: s.sockets } := by
    refine ⟨fun x hx => ?_, h.cubic, h.bbr⟩
    show (s.setWnd sk tcpInitCwnd).sndWnd x ≠ 0
    by_cases hxsk : x = sk
    · rw [hxsk, setWnd_self]
      decide
    · rw [setWnd_other hxsk]
      exact h.positive x ((List.mem_cons.mp hx).resolve_left hxsk)
  unfold tcpCongInitSock at hinit
  cases algo with
  | reno => exact Option.some.inj hinit ▸ hsock
  | cubic =>
    dsimp only at hinit
    split_ifs at hinit with hnext
    have hslot := hsock.setCubic (s.cubicSlotNext % slotMax) (cubicFresh_inv sk)
    exact Option.some.inj hinit ▸ ⟨hslot.positive, hslot.cubic, hslot.bbr⟩
  | bbr =>
    dsimp only at hinit
    split_ifs at hinit with hnext
    have hslot := hsock.setBbr (s.bbrSlotNext % slotMax) (bbrFresh_inv sk)
    exact Option.some.inj hinit ▸ ⟨hslot.positive, hslot.cubic, hslot.bbr⟩

theorem init_isSome : (∃ s', tcpCongInitSock algo s sk = some s') ↔ CallOk algo s (.init sk) := by
  unfold tcpCongInitSock CallOk
  cases algo with
  | reno => exact iff_of_true ⟨_, rfl⟩ trivial
  | cubic =>
    dsimp only [State.setWnd]
    split_ifs with hnext
    · exact iff_of_true ⟨_, rfl⟩ hnext
    · exact iff_of_false (fun ⟨_, habsurd⟩ => nomatch habsurd) hnext
  | bbr =>
    dsimp only [State.setWnd]
    split_ifs with hnext
    · exact iff_of_true ⟨_, rfl⟩ hnext
    · exact iff_of_false (fun ⟨_, habsurd⟩ => nomatch habsurd) hnext

theorem event_inv (h : Inv s) (hsk : sk ∈ s.sockets) (event : UInt32) : Inv (tcpCongEvent algo s sk event) := by
  have hpos := h.positive sk hsk
  unfold tcpCongEvent
  cases algo with
  | reno =>
    apply h.setWnd hsk
    unfold tcpRenoCwndEvent
    split_ifs
    · decide
    · decide
    · exact hpos
  | cubic =>
    dsimp only
    cases hfind : cubicFindState s sk with
    | none => exact h
    | some i =>
      refine (h.setCubic i (cubicEvent_inv (cubicFind_inv h hfind) _ event)).setWnd hsk ?_
      have hten : tcpInitCwnd ≠ 0 := by decide
      unfold cubicEvent
      split_ifs
      · exact hten
      · exact hten
      · exact hpos
  | bbr =>
    dsimp only
    cases hfind : bbrFindState s sk with
    | none => exact h
    | some i =>
      refine (h.setBbr i (bbrEvent_inv (h.bbr i) _ event)).setWnd hsk ?_
      have hten : tcpInitCwnd ≠ 0 := by decide
      unfold bbrEvent
      split_ifs
      · exact hten
      · exact hpos

/-- A call returns, no window is empty after it, and an acknowledgement has kept its window. -/
def Succeeds (algo : Algo) (s : State ν) (c : Call ν) : Prop :=
  ∃ s', step algo s c = some s' ∧ Positive s' ∧ KeepsUp algo s s' c

theorem reno_succeeds (h : Inv s) (hsk : sk ∈ s.sockets) :
    Succeeds .reno s (.ack sk ack acked) ↔ CallOk .reno s (.ack sk ack acked) := by
  refine Iff.trans ?_ (reno_grown (h.positive sk hsk))
  constructor
  · rintro ⟨s', hst, hpos, hup⟩
    obtain rfl : s.setWnd sk (tcpRenoCongAvoid (s.sndWnd sk) acked) = s' := Option.some.inj hst
    have hle := hup (by decide)
    rw [setWnd_self] at hle
    exact ⟨(positive_setWnd h.positive hsk).mp hpos, hle⟩
  · rintro ⟨hne, hle⟩
    refine ⟨_, rfl, (positive_setWnd h.positive hsk).mpr hne, fun _ => ?_⟩
    rw [setWnd_self]
    exact hle

theorem ack_inv (h : Inv s) (hsk : sk ∈ s.sockets) (hack : tcpCongOnAck algo s sk ack acked = some s')
    (hpos : Positive s') : Inv s' := by
  unfold tcpCongOnAck tcpCubicCongAvoid at hack
  cases algo with
  | reno =>
    obtain rfl := Option.some.inj hack
    exact h.setWnd hsk ((positive_setWnd h.positive hsk).mp hpos)
  | cubic =>
    dsimp only at hack
    split_ifs at hack with hlow
    · obtain rfl := Option.some.inj hack
      exact h.setWnd hsk ((positive_setWnd h.positive hsk).mp hpos)
    · cases hfind : cubicFindState s sk with
      | none =>
        rw [hfind] at hack
        exact Option.some.inj hack ▸ h
      | some i =>
        have hfull : s.sndWnd sk = 65535 := full_of_not_below fun hlt => hlow ((below_iff _).mpr hlt)
        rw [hfind, hfull] at hack
        rcases cubicAvoid_full (cubicFind_inv h hfind) ack with ⟨hnone, -⟩ | ⟨-, w, ca, hsome, hinv, -, -⟩
        · dsimp only at hack
          rw [hnone] at hack
          exact nomatch hack
        · dsimp only at hack
          rw [hsome] at hack
          obtain rfl := Option.some.inj hack
          have hset := h.setCubic i hinv
          exact hset.setWnd hsk ((positive_setWnd hset.positive hsk).mp hpos)
  | bbr =>
    dsimp only at hack
    cases hfind : bbrFindState s sk with
    | none =>
      rw [hfind] at hack
      exact Option.some.inj hack ▸ h
    | some i =>
      rw [hfind] at hack
      obtain rfl := Option.some.inj hack
      have hset := h.setBbr i (bbrAvoid_spec (h.bbr i) (h.positive sk hsk) acked).1
      exact hset.setWnd hsk ((positive_setWnd hset.positive hsk).mp hpos)

theorem cubic_succeeds (h : Inv s) (hsk : sk ∈ s.sockets) :
    Succeeds .cubic s (.ack sk ack acked) ↔ CallOk .cubic s (.ack sk ack acked) := by
  unfold Succeeds step tcpCongOnAck tcpCubicCongAvoid CallOk KeepsUp
  dsimp only
  by_cases hlow : (s.sndWnd sk).toNat < 65535
  · rw [if_pos ((below_iff _).mpr hlow), if_pos hlow, ← slowStart_grown (h.positive sk hsk) hlow]
    constructor
    · rintro ⟨s', hst, hpos, hup⟩
      obtain rfl := Option.some.inj hst
      have hle := hup (by decide)
      rw [setWnd_self] at hle
      exact ⟨(positive_setWnd h.positive hsk).mp hpos, hle⟩
    · rintro ⟨hne, hle⟩
      refine ⟨_, rfl, (positive_setWnd h.positive hsk).mpr hne, fun _ => ?_⟩
      rw [setWnd_self]
      exact hle
  · rw [if_neg fun hyes => hlow ((below_iff _).mp hyes), if_neg hlow]
    have hfull : s.sndWnd sk = 65535 := full_of_not_below hlow
    cases hfind : cubicFindState s sk with
    | none => exact iff_of_true ⟨s, rfl, h.positive, fun _ => UInt16.le_refl _⟩ fun i habsurd => nomatch habsurd
    | some i =>
      have hset : ∀ ca, Positive (s.setCubic i ca) := fun _ => h.positive
      rw [hfull]
      constructor
      · rintro ⟨s', hst, hpos, hup⟩ j hj
        obtain rfl : i = j := Option.some.inj hj
        apply (cubic_grown (cubicFind_inv h hfind) ack).mp
        obtain ⟨⟨w, ca⟩, hsome, hst⟩ := Option.bind_eq_some_iff.mp hst
        obtain rfl := Option.some.inj hst
        have hle := hup (by decide)
        rw [setWnd_self] at hle
        exact ⟨w, ca, hsome, (positive_setWnd (hset ca) hsk).mp hpos, hle⟩
      · intro hok
        obtain ⟨w, ca, hsome, hne, hle⟩ := (cubic_grown (cubicFind_inv h hfind) ack).mpr (hok i rfl)
        refine ⟨(s.setCubic i ca).setWnd sk w, ?_, (positive_setWnd (hset ca) hsk).mpr hne, fun _ => ?_⟩
        · dsimp only
          rw [hsome]
          rfl
        · rw [setWnd_self]
          exact hle

theorem bbr_succeeds (h : Inv s) (hsk : sk ∈ s.sockets) (hacked : acked ≠ 0) :
    Succeeds .bbr s (.ack sk ack acked) ↔ CallOk .bbr s (.ack sk ack acked) := by
  unfold Succeeds step tcpCongOnAck CallOk KeepsUp
  dsimp only
  cases hfind : bbrFindState s sk with
  | none => exact iff_of_true ⟨s, rfl, h.positive, fun habsurd => absurd rfl habsurd⟩ fun i habsurd => nomatch habsurd
  | some i =>
    obtain ⟨-, -, hiff⟩ := bbrAvoid_spec (h.bbr i) (h.positive sk hsk) acked
    have hset : Positive (s.setBbr i (bbrAvoid (s.bbrSlots i) (s.sndWnd sk) acked).2) := h.positive
    constructor
    · rintro ⟨s', hst, hpos, -⟩ j hj
      obtain rfl : i = j := Option.some.inj hj
      obtain rfl := Option.some.inj hst
      exact (hiff hacked).mp ((positive_setWnd hset hsk).mp hpos)
    · intro hok
      exact ⟨_, rfl, (positive_setWnd hset hsk).mpr ((hiff hacked).mpr (hok i rfl)), fun habsurd => absurd rfl habsurd⟩

theorem succeeds_iff (h : Inv s) (hallowed : Allowed s c) : Succeeds algo s c ↔ CallOk algo s c := by
  cases c with
  | init sk =>
    refine Iff.trans ?_ init_isSome
    constructor
    · rintro ⟨s', hst, -⟩
      exact ⟨s', hst⟩
    · rintro ⟨s', hst⟩
      exact ⟨s', hst, (init_inv h hst).positive, trivial⟩
  | ack sk ack acked =>
    have hne : acked ≠ 0 := fun hzero => by
      have hpos := hallowed.2
      rw [hzero] at hpos
      exact absurd hpos (by decide)
    cases algo with
    | reno => exact reno_succeeds h hallowed.1
    | cubic => exact cubic_succeeds h hallowed.1
    | bbr => exact bbr_succeeds h hallowed.1 hne
  | event sk event => exact iff_of_true ⟨_, rfl, (event_inv h hallowed event).positive, trivial⟩ trivial

theorem step_inv (h : Inv s) (hallowed : Allowed s c) (hok : CallOk algo s c) (hst : step algo s c = some s') :
    Inv s' := by
  obtain ⟨t, ht, hpos, -⟩ := (succeeds_iff h hallowed).mpr hok
  obtain rfl : t = s' := Option.some.inj (ht.symm.trans hst)
  cases c with
  | init sk => exact init_inv h hst
  | ack sk ack acked => exact ack_inv h hallowed.1 hst hpos
  | event sk event =>
    obtain rfl := Option.some.inj hst
    exact event_inv h hallowed event

/-! ## Runs -/

/-- In a run whose calls all meet the condition, no window is ever empty, and the next call returns, empties no window
and keeps what was acknowledged exactly if it meets the condition too. -/
theorem tcp_cong_ok (algo : Algo) (sndWnd : ν → UInt16)
    (h : Run.Reach (step algo) (fun s c => Allowed s c ∧ CallOk algo s c) (start sndWnd) s) :
    Positive s ∧ ∀ c, Allowed s c → (Succeeds algo s c ↔ CallOk algo s c) := by
  have hinv : Inv s := h.invariant (start_inv sndWnd) fun s c t hs hok hst => step_inv hs hok.1 hok.2 hst
  exact ⟨hinv.positive, fun c hallowed => succeeds_iff hinv hallowed⟩
/-- Cubic leaves a full window alone at the start of an epoch. -/
theorem tcp_cong_ok_cubic : ∃ s, Run.run (step .cubic) (start fun _ : Unit => 0)
      [.init (), .ack () 5 70000, .ack () 6 1] = some s ∧ s.sndWnd () = 65535 ∧
    Positive s ∧ ∀ c, Allowed s c → (Succeeds .cubic s c ↔ CallOk .cubic s c) := by
  have hreach : Run.Reach (step .cubic) (fun s c => Allowed s c ∧ CallOk .cubic s c) (start fun _ : Unit => 0) _ :=
    ((Run.Reach.start.step (.init ()) ⟨trivial, Nat.lt_of_sub_eq_succ rfl⟩ rfl).step (.ack () 5 70000)
      ⟨⟨List.mem_cons_self, by decide⟩, ?_⟩ rfl).step (.ack () 6 1) ⟨⟨List.mem_cons_self, by decide⟩, ?_⟩ rfl
  · have hsum : (10 : ℕ) + 70000 < 2 ^ 32 := by decide
    exact hsum
  · intro i hi
    obtain rfl : 0 = i := Option.some.inj hi
    exact ⟨by decide, by decide⟩
  · exact ⟨_, rfl, by decide, tcp_cong_ok .cubic (fun _ => 0) hreach⟩

/-- Reno adds one to a full window and has none left; cubic divides by zero far along its curve. -/
theorem full_window_lost :
    (¬∀ s, Run.Reach (step .reno) Allowed (start fun _ : Unit => 0) s → Positive s) ∧
      ¬∀ s, Run.Reach (step .cubic) Allowed (start fun _ : Unit => 0) s →
        ∀ c, Allowed s c → ∃ s', step .cubic s c = some s' := by
  constructor
  · intro hall
    have hreach : Run.Reach (step .reno) Allowed (start fun _ : Unit => 0) _ :=
      ((Run.Reach.start.step (.init ()) trivial rfl).step (.ack () 0 70000) ⟨List.mem_cons_self, by decide⟩ rfl).step
        (.ack () 0 1) ⟨List.mem_cons_self, by decide⟩ rfl
    exact hall _ hreach () List.mem_cons_self (by decide)
  · intro hall
    have hreach : Run.Reach (step .cubic) Allowed (start fun _ : Unit => 0) _ :=
      ((Run.Reach.start.step (.init ()) trivial rfl).step (.ack () 5 70000) ⟨List.mem_cons_self, by decide⟩ rfl).step
        (.ack () 1000000 1) ⟨List.mem_cons_self, by decide⟩ rfl
    obtain ⟨s', hs'⟩ := hall _ hreach (.ack () 3000000 1) ⟨List.mem_cons_self, by decide⟩
    exact nomatch hs'

end TcpCong
