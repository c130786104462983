import Kenux.Unixsock.Proofs.Locks

/-!
# Pipes under any schedule

Every lock is held by the thread whose place says so, and what a thread reads from a pipe are the next bytes that were
written to it.
-/

namespace Unixsock

open Threads Run
open Function (update_self update_of_ne)

/-- Every pipe is in order, and so is what a thread holds of a pipe that it has locked. -/
structure Inv (s : State) : Prop where
  locks : LockInv held s
  good : ∀ p x, s.shared.pipe p = some x → Fifo.Good x
  place : ∀ t c p x, s.pc t = .fifo c → Lock.pipe p ∈ fifoHeld c → s.shared.pipe p = some x → Fifo.At x c

variable {s s' : State} {t p : ℕ} {c : Fifo.Pc} {x : Fifo.Pipe}

theorem inv_start (unix : Sockets) : Inv (start unix) := by
  refine ⟨lockInv_start unix, fun p x hx => ?_, fun t c p x hc => nomatch hc⟩
  obtain rfl := Option.some.inj hx
  exact Fifo.good_create

/-- No pipe changes, and the thread goes to a place where it relies on nothing about the pipes, or on nothing new. -/
theorem Inv.elsewhere (h : Inv s) {k : Kernel} {owner : Lock → Option ℕ} {c : Pc}
    (hlocks : LockInv held ⟨k, owner, Function.update s.pc t c⟩) (hpipe : k.pipe = s.shared.pipe)
    (hat : ∀ c' p x, c = .fifo c' → Lock.pipe p ∈ fifoHeld c' → s.shared.pipe p = some x → Fifo.At x c') :
    Inv ⟨k, owner, Function.update s.pc t c⟩ := by
  refine ⟨hlocks, fun p x hx => ?_, fun u c' p x hc hp hx => ?_⟩
  · dsimp only at hx
    rw [hpipe] at hx
    exact h.good p x hx
  · dsimp only at hc hx
    rw [hpipe] at hx
    by_cases hu : u = t
    · rw [hu, update_self] at hc
      exact hat c' p x hc hp hx
    · rw [update_of_ne hu] at hc
      exact h.place u c' p x hc hp hx

/-- In the code of a pipe a thread locks one pipe. -/
theorem fifoHeld_one {q : ℕ} (hq : Lock.pipe q ∈ fifoHeld c) (hp : Lock.pipe p ∈ fifoHeld c) : q = p := by
  have hlen : (fifoHeld c).length ≤ 1 := by cases c <;> first | exact Nat.le_refl 1 | exact Nat.zero_le 1
  match hheld : fifoHeld c, hlen with
  | [], _ =>
    rw [hheld] at hq
    exact absurd hq List.not_mem_nil
  | [l], _ =>
    rw [hheld, List.mem_singleton] at hq hp
    exact Lock.pipe.inj (hq.trans hp.symm)

/-- The thread changes pipe `p`, whose lock it holds, as it may. -/
theorem Inv.onPipe (h : Inv s) {f : (ℕ → Bool) → Fifo.Pipe → Fifo.Result} {i : Option ℕ} {k : Kernel} {c' : Pc}
    (hc : s.pc t = .fifo c) (hp : Lock.pipe p ∈ fifoHeld c)
    (hf : ∀ w x, Fifo.Good x → Fifo.At x c → Fifo.Keeps (f w x)) (hk : onPipe p f i s.shared = some (k, c'))
    (hsame : held c' = held (s.pc t)) (hlocks : LockInv held ⟨k, s.owner, Function.update s.pc t c'⟩) :
    Inv ⟨k, s.owner, Function.update s.pc t c'⟩ := by
  unfold Unixsock.onPipe at hk
  cases hx : s.shared.pipe p with
  | none =>
    rw [hx] at hk
    cases hk
  | some x =>
    rw [hx] at hk
    obtain ⟨rfl, rfl⟩ := Prod.mk.inj (Option.some.inj hk)
    obtain ⟨y, hy, hgood, hat⟩ := hf s.shared.waiting x (h.good p x hx) (h.place t c p x hc hp hx)
    refine ⟨hlocks, fun q z hz => ?_, fun u c₁ q z hc₁ hq hz => ?_⟩
    · dsimp only at hz
      by_cases hqp : q = p
      · rw [hqp, update_self, hy] at hz
        exact Option.some.inj hz ▸ hgood
      · rw [update_of_ne hqp] at hz
        exact h.good q z hz
    · dsimp only at hz hc₁
      by_cases hu : u = t
      · rw [hu, update_self] at hc₁
        obtain rfl := Pc.fifo.inj hc₁
        by_cases hqp : q = p
        · rw [hqp, update_self, hy] at hz
          exact Option.some.inj hz ▸ hat
        · rw [hc] at hsame
          have hq : Lock.pipe q ∈ fifoHeld c := by
            rw [← show held (.fifo _) = fifoHeld c from hsame]
            exact hq
          exact absurd (fifoHeld_one hq hp) hqp
      · rw [update_of_ne hu] at hc₁
        by_cases hqp : q = p
        · subst hqp
          refine absurd (h.locks.one (l := .pipe q) ?_ ?_) hu
          · rw [hc₁]
            exact hq
          · rw [hc]
            exact hp
        · rw [update_of_ne hqp] at hz
          exact h.place u c₁ q z hc₁ hq hz

/-- The thread drops its reference to a pipe. -/
theorem Inv.closeDrop (h : Inv s) {i : Option ℕ} {k : Kernel} {c' : Pc}
    (hk : Unixsock.onPipe p Fifo.closeDrop i s.shared = some (k, c'))
    (hlocks : LockInv held ⟨k, s.owner, Function.update s.pc t c'⟩) :
    Inv ⟨k, s.owner, Function.update s.pc t c'⟩ := by
  unfold Unixsock.onPipe at hk
  cases hx : s.shared.pipe p with
  | none =>
    rw [hx] at hk
    cases hk
  | some x =>
    rw [hx] at hk
    obtain ⟨rfl, rfl⟩ := Prod.mk.inj (Option.some.inj hk)
    have hback {q : ℕ} {z : Fifo.Pipe}
        (hz : Function.update s.shared.pipe p (Fifo.closeDrop s.shared.waiting x).2.1 q = some z) :
        ∃ y, s.shared.pipe q = some y ∧ z.ring = y.ring ∧ z.written = y.written ∧ z.taken = y.taken := by
      by_cases hqp : q = p
      · subst hqp
        rw [update_self] at hz
        exact ⟨x, hx, Fifo.closeDrop_same hz⟩
      · rw [update_of_ne hqp] at hz
        exact ⟨z, hz, rfl, rfl, rfl⟩
    refine ⟨hlocks, fun q z hz => ?_, fun u c₁ q z hc₁ hq hz => ?_⟩
    · obtain ⟨y, hy, hring, hwritten, htaken⟩ := hback hz
      obtain ⟨hok, hstream⟩ := h.good q y hy
      refine ⟨hring ▸ hok, ?_⟩
      rw [hring, hwritten, htaken]
      exact hstream
    · obtain ⟨y, hy, hsame⟩ := hback hz
      dsimp only at hc₁
      by_cases hu : u = t
      · rw [hu, update_self] at hc₁
        obtain rfl := Pc.fifo.inj hc₁
        exact absurd hq List.not_mem_nil
      · rw [update_of_ne hu] at hc₁
        exact Fifo.At.congr hsame (h.place u c₁ q y hc₁ hq hy)

/-! ## Sockets leave the pipes alone -/

/-- The pipes are the same, and the thread is in the code of a socket. -/
def Apart (k k' : Kernel) (c : Pc) : Prop := k'.pipe = k.pipe ∧ ∃ c', c = .unix c'

theorem onSock_apart {a : ℕ} {f : (ℕ → Bool) → Sock → (ℕ → Bool) × Sock × SockPc} {i : Option ℕ} {k k' : Kernel}
    {c : Pc} (h : onSock a f i k = some (k', c)) : Apart k k' c := by
  unfold onSock at h
  cases hx : k.unix.sock a with
  | none =>
    rw [hx] at h
    cases h
  | some x =>
    rw [hx] at h
    cases h
    exact ⟨rfl, _, rfl⟩

theorem onSockets_apart {f : Option ℕ → Sockets → Option (Sockets × SockPc)} {i : Option ℕ} {k k' : Kernel} {c : Pc}
    (h : onSockets f i k = some (k', c)) : Apart k k' c := by
  obtain ⟨_, -, heq⟩ := Option.map_eq_some_iff.mp h
  cases heq
  exact ⟨rfl, _, rfl⟩

theorem sock_act_apart {i : Option ℕ} {k k' : Kernel} {c' : Pc} {guards : List Lock}
    {f : Option ℕ → Kernel → Option (Kernel × Pc)} (c : SockPc) (h : sockInstr t c = .act guards f)
    (hf : f i k = some (k', c')) : Apart k k' c' := by
  cases c with
  | sendTop s v buf written =>
    simp only [sockInstr] at h
    by_cases hrem : Fifo.remaining buf written > 0
    · rw [if_pos hrem] at h
      cases h
    · rw [if_neg hrem] at h
      cases h
      cases hf
      exact ⟨rfl, _, rfl⟩
  | sendAsleep s v buf written =>
    cases h
    cases hf
    exact ⟨rfl, _, rfl⟩
  | ret v =>
    cases h
    cases hf
  | _ =>
    cases h <;> first | exact onSock_apart hf | exact onSockets_apart hf

theorem sock_next (c : SockPc) (l : Lock) (k : Pc)
    (h : sockInstr t c = .acquire l k ∨ sockInstr t c = .release l k) : ∃ c', k = .unix c' := by
  cases c with
  | sendTop s v buf written =>
    simp only [sockInstr] at h
    by_cases hrem : Fifo.remaining buf written > 0
    · rw [if_pos hrem] at h
      rcases h with h | h <;> cases h
      exact ⟨_, rfl⟩
    · rw [if_neg hrem] at h
      rcases h with h | h <;> cases h
  | _ => rcases h with h | h <;> cases h <;> exact ⟨_, rfl⟩

/-! ## A step -/

/-- A thread in the code of a pipe takes a lock or releases one: it comes to a place where its call has moved nothing
yet, or to one where it has no lock. -/
theorem fifo_next (c : Fifo.Pc) (l : Lock) (k : Pc) (h : fifoInstr t c = .acquire l k ∨ fifoInstr t c = .release l k)
    {c' : Fifo.Pc} (hc' : k = .fifo c') (x : Fifo.Pipe) : Fifo.At x c' := by
  subst hc'
  cases c with
  | readEnter p n =>
    rcases h with h | h <;> cases h
    exact List.nil_suffix
  | writeEnter p buf =>
    rcases h with h | h <;> cases h
    exact List.nil_suffix
  | _ => rcases h with h | h <;> cases h <;> exact trivial

theorem fifo_act (h : Inv s) {i : Option ℕ} {k : Kernel} {c' : Pc} {guards : List Lock}
    {f : Option ℕ → Kernel → Option (Kernel × Pc)} (hc : s.pc t = .fifo c) (hinstr : fifoInstr t c = .act guards f)
    (hguards : ∀ l ∈ guards, l ∈ fifoHeld c) (hf : f i s.shared = some (k, c'))
    (hlocks : LockInv held ⟨k, s.owner, Function.update s.pc t c'⟩) :
    Inv ⟨k, s.owner, Function.update s.pc t c'⟩ := by
  have hsame : held c' = held (s.pc t) := by
    rw [hc]
    exact fifo_act_held c hinstr hguards hf
  cases c with
  | readTop p n got =>
    cases hinstr
    exact h.onPipe hc List.mem_cons_self (fun _ _ => Fifo.readTop_keeps) hf hsame hlocks
  | readQueue p n got =>
    cases hinstr
    exact h.onPipe hc List.mem_cons_self (fun _ _ => Fifo.readQueue_keeps) hf hsame hlocks
  | readCopy p n got =>
    cases hinstr
    exact h.onPipe hc List.mem_cons_self (fun _ _ => Fifo.readCopy_keeps) hf hsame hlocks
  | readAdvance p n got chunk =>
    cases hinstr
    exact h.onPipe hc List.mem_cons_self (fun _ _ => Fifo.readAdvance_keeps) hf hsame hlocks
  | writeTop p buf done =>
    cases hinstr
    exact h.onPipe hc List.mem_cons_self (fun _ _ => Fifo.writeTop_keeps) hf hsame hlocks
  | writeQueue p buf done =>
    cases hinstr
    exact h.onPipe hc List.mem_cons_self (fun _ _ => Fifo.writeQueue_keeps) hf hsame hlocks
  | writeCopy p buf done =>
    cases hinstr
    exact h.onPipe hc List.mem_cons_self (fun _ _ => Fifo.writeCopy_keeps) hf hsame hlocks
  | writeAdvance p buf done n =>
    cases hinstr
    exact h.onPipe hc List.mem_cons_self (fun _ _ => Fifo.writeAdvance_keeps) hf hsame hlocks
  | closeFlag p e =>
    cases hinstr
    exact h.onPipe hc List.mem_cons_self (fun _ _ hgood _ => Fifo.closeFlag_keeps hgood e) hf hsame hlocks
  | closeDrop p e =>
    cases hinstr
    exact h.closeDrop hf hlocks
  | readAsleep p n got =>
    cases hinstr
    cases hguards _ List.mem_cons_self
  | writeAsleep p buf done =>
    cases hinstr
    cases hguards _ List.mem_cons_self
  | ret v =>
    cases hinstr
    cases hf
  | _ => cases hinstr

theorem Inv.go (h : Inv s) {i : Option ℕ} (hsteady : Steady (s.pc t)) (hgo : Threads.go code t i s = some s') :
    Inv s' := by
  have hfine := (fine_iff t (s.pc t)).mpr hsteady
  have hlocks := h.locks.go code_typed hfine hgo
  unfold Threads.go at hgo
  unfold Fine at hfine
  cases hinstr : code.instr t (s.pc t) with
  | acquire l k =>
    rw [hinstr] at hgo
    dsimp only at hgo
    cases howner : s.owner l with
    | some u =>
      rw [howner] at hgo
      cases hgo
    | none =>
      rw [howner] at hgo
      obtain rfl := Option.some.inj hgo
      refine h.elsewhere hlocks rfl fun c' p x hc' _ _ => ?_
      cases hc : s.pc t with
      | fifo c =>
        rw [hc] at hinstr
        exact fifo_next c l k (.inl hinstr) hc' x
      | unix c =>
        rw [hc] at hinstr
        obtain ⟨c'', rfl⟩ := sock_next c l k (.inl hinstr)
        cases hc'
  | release l k =>
    rw [hinstr] at hgo
    obtain rfl := Option.some.inj hgo
    refine h.elsewhere hlocks rfl fun c' p x hc' _ _ => ?_
    cases hc : s.pc t with
    | fifo c =>
      rw [hc] at hinstr
      exact fifo_next c l k (.inr hinstr) hc' x
    | unix c =>
      rw [hc] at hinstr
      obtain ⟨c'', rfl⟩ := sock_next c l k (.inr hinstr)
      cases hc'
  | act guards f =>
    rw [hinstr] at hgo hfine
    obtain ⟨⟨k, c'⟩, hf, rfl⟩ := Option.map_eq_some_iff.mp hgo
    cases hc : s.pc t with
    | fifo c =>
      rw [hc] at hinstr hfine
      exact fifo_act h hc hinstr hfine hf hlocks
    | unix c =>
      rw [hc] at hinstr
      obtain ⟨hpipe, c'', rfl⟩ := sock_act_apart c hinstr hf
      exact h.elsewhere hlocks hpipe fun _ _ _ hc' => nomatch hc'

/-- The condition on a step. -/
def SteadyStep (s : State) : Input → Prop
  | .call _ _ => True
  | .go t _ => Steady (s.pc t)

theorem Inv.step (h : Inv s) {x : Input} (hsteady : SteadyStep s x) (hstep : Threads.step code s x = some s') :
    Inv s' := by
  cases x with
  | call t c =>
    have hlocks := h.locks.step code_typed (x := .call t c) trivial hstep
    simp only [Threads.step] at hstep
    by_cases hidle : code.idle (s.pc t) = true
    · rw [if_pos hidle] at hstep
      obtain rfl := Option.some.inj hstep
      refine h.elsewhere hlocks rfl fun c' p x hc' hp _ => ?_
      have hnone : fifoHeld c' = [] := by
        have hentry := entry_held c
        rw [show entry c = .fifo c' from hc'] at hentry
        exact hentry
      rw [hnone] at hp
      exact absurd hp List.not_mem_nil
    · rw [if_neg hidle] at hstep
      cases hstep
  | go t i =>
    simp only [Threads.step] at hstep
    by_cases hidle : code.idle (s.pc t) = true
    · rw [if_pos hidle] at hstep
      cases hstep
    · rw [if_neg hidle] at hstep
      exact h.go hsteady hstep

/-- No sockets. -/
def noSockets : Sockets := ⟨fun _ => none, fun _ => none⟩

/-- Process 1 writes a byte to a pipe. -/
def writeOne : List Input :=
  [.call 1 (.write 0 [7]), .go 1 none, .go 1 none, .go 1 none, .go 1 none, .go 1 none, .go 1 none]

/-- Process 2 reads from the empty pipe and waits; process 1 writes a byte and wakes it. -/
def readThenWrite : List Input :=
  [.call 2 (.read 0 1), .go 2 none, .go 2 none, .go 2 none, .go 2 none,
    .call 1 (.write 0 [7]), .go 1 none, .go 1 none, .go 1 none, .go 1 none, .go 1 none, .go 1 none]

end Unixsock
