import Kenux.Epoll.Proofs.Registrations

/-!
# Runs of the polling calls (`kernel/epoll.c`)
-/

namespace Epoll

open Run

variable {m m' : Manager} {fd : ℤ} {i j : ℕ} {events : UInt32}

/-- Slot `j` of the active instance `i` asks for one of the events of the descriptor. -/
def Listens (m : Manager) (i j : ℕ) (fd : ℤ) (events : UInt32) : Prop :=
  0 ≤ fd ∧ i < maxInstances ∧ (m.instances i).active = true ∧ Wanted (m.instances i) fd events j

/-- A registered descriptor is ready exactly if the queue holds exactly one entry for it. -/
def ReadyExact (m : Manager) : Prop :=
  ∀ i fd j, Holds (m.instances i) j fd →
    (((m.instances i).fds j).ready = true ↔ ((m.instances i).queue.map ReadyEntry.fd).count fd = 1)

/-- The descriptor of `x` is registered now, with the data of `x`. -/
def Registered (inst : Instance) (x : ReadyEntry) : Prop :=
  ∃ r, inst.registration x.fd = some r ∧ r.event.data = x.data

/-- What an `epoll_wait` reports is registered, with these data. -/
def NeverStale (m : Manager) : Prop :=
  ∀ epfd hasEvents maxevents, ∀ x ∈ (epollWait m epfd hasEvents maxevents).1,
    ∃ i, epollGetInstance m epfd = some i ∧ Registered (m.instances i) x

/-- The manager after `n` calls of `epoll_wait` for as many events as it gives. -/
def waits (i : ℕ) : ℕ → Manager → Manager
  | 0, m => m
  | n + 1, m => waits i n (epollWait m i true maxEvents).2

/-- One of the next calls of `epoll_wait` reports the descriptor, with its data. -/
def Heard (m : Manager) (i : ℕ) (fd : ℤ) : Prop :=
  ∃ n, ∃ x ∈ (epollWait (waits i n m) i true maxEvents).1, x.fd = fd ∧ Registered ((waits i n m).instances i) x

/-- Nothing is queued for a descriptor that is deleted, or whose data are changed. -/
def Untouched (m : Manager) : Call → Prop
  | .ctl epfd .del fd _ => ∀ i, epollGetInstance m epfd = some i → ¬ Queued (m.instances i) fd
  | .ctl epfd .mod fd event => ∀ i, epollGetInstance m epfd = some i →
      ∀ ev ∈ event, ∀ x ∈ (m.instances i).queue, x.fd = fd → ev.data = x.data
  | _ => True

/-- Besides, no `epoll_wait` takes an entry, no flag is cleared of a descriptor that has one, and a notification that
makes a descriptor ready finds room in the queue. -/
def Fine (m : Manager) : Call → Prop
  | .wait epfd hasEvents maxevents => ∀ i, epollGetInstance m epfd = some i → waitRoom hasEvents maxevents ≠ none →
      rqEmpty (m.instances i) = true
  | .clearReady fd => ∀ i < maxInstances, (m.instances i).active = true → ¬ Queued (m.instances i) fd
  | .notify fd events => ∀ i j, Listens m i j fd events → ((m.instances i).fds j).ready = false →
      rqFull (m.instances i) = false
  | call => Untouched m call

theorem epollGetInstance_of_active (hi : i < maxInstances) (ha : (m.instances i).active = true) :
    epollGetInstance m i = some i := by
  simp [epollGetInstance, ha, hi]

/-- An instance with no registration and nothing queued. -/
theorem blank_current {inst : Instance} (hring : RingOk inst) (hq : inst.queue = [])
    (hno : ∀ j < maxFds, (inst.fds j).registered = false) : Current inst ∧ Exact inst := by
  have hholds {j : ℕ} {fd : ℤ} : ¬ Holds inst j fd := fun ⟨hlt, hreg, _⟩ => by simp [hno j hlt] at hreg
  refine ⟨⟨hring, fun hi _ => (hholds hi).elim, by simp [hq]⟩, ⟨by simp [hq], fun hj => (hholds hj).elim⟩⟩

theorem zero_blank (active : Bool) :
    Current { Instance.zero with active := active } ∧ Exact { Instance.zero with active := active } := by
  refine blank_current ⟨?_, ?_⟩ ?_ fun _ _ => rfl
  · simp [Instance.zero, readyQueueSize]
  · simp [Instance.zero, readyQueueSize]
  · simp [Instance.queue, Instance.zero, readyQueueSize]

theorem closed_blank (inst : Instance) : Current (closedInstance inst) ∧ Exact (closedInstance inst) := by
  refine blank_current ⟨?_, ?_⟩ ?_ fun j hj => ?_
  · simp [closedInstance, readyQueueSize]
  · simp [closedInstance, readyQueueSize]
  · simp [Instance.queue, closedInstance, readyQueueSize]
  · simp [closedInstance, hj]

/-- A property of instances holds of all after one of them was changed. -/
theorem forall_setInstance {P : Instance → Prop} {inst : Instance} (h : ∀ k, P (m.instances k)) (hi : P inst) (k : ℕ) :
    P ((m.setInstance i inst).instances k) := by
  simp only [Manager.setInstance]
  by_cases hk : k = i
  · rw [hk, Function.update_self]
    exact hi
  · rw [Function.update_of_ne hk]
    exact h k

theorem forall_eachActive {P : Instance → Prop} {f : Instance → Instance} (h : ∀ k, P (m.instances k))
    (hf : ∀ k < maxInstances, (m.instances k).active = true → P (f (m.instances k))) (k : ℕ) :
    P ((m.eachActive f).instances k) := by
  simp only [Manager.eachActive]
  split
  case isTrue hk => exact hf k hk.1 hk.2
  case isFalse => exact h k

/-- What a call of `epoll_create`, `epoll_ctl`, `epoll_wait` or `epoll_close` does: one instance changes. -/
theorem create_instances {P : Instance → Prop} (h : ∀ k, P (m.instances k))
    (hz : P { Instance.zero with active := true }) (k : ℕ) : P ((epollCreate m).2.instances k) := by
  unfold epollCreate
  split
  · exact h k
  · split
    · exact forall_setInstance h hz k
    · exact h k

theorem close_instances {P : Instance → Prop} {epfd : ℤ} (h : ∀ k, P (m.instances k))
    (hc : ∀ inst, P (closedInstance inst)) (k : ℕ) : P ((epollClose m epfd).2.instances k) := by
  unfold epollClose
  split
  · exact h k
  · exact forall_setInstance h (hc _) k

theorem ctl_instances {P : Instance → Prop} {epfd : ℤ} {op : Op} {event : Option Event} (h : ∀ k, P (m.instances k))
    (hc : ∀ i, epollGetInstance m epfd = some i → P (ctl (m.instances i) op fd event).2) (k : ℕ) :
    P ((epollCtl m epfd op fd event).2.instances k) := by
  unfold epollCtl
  split
  · exact h k
  · split
    · exact h k
    case h_2 i hi => exact forall_setInstance h (hc i hi) k

theorem wait_instances {P : Instance → Prop} {epfd maxevents : ℤ} {hasEvents : Bool} (h : ∀ k, P (m.instances k))
    (hc : ∀ i room, epollGetInstance m epfd = some i → waitRoom hasEvents maxevents = some room →
      P (waitLoop room (m.instances i)).2) (k : ℕ) : P ((epollWait m epfd hasEvents maxevents).2.instances k) := by
  unfold epollWait
  split
  case h_1 room i hr hi => exact forall_setInstance h (hc i room hi hr) k
  case h_2 => exact h k

/-- One call keeps the entries with their registrations. -/
theorem step_current {c : Call} (h : ∀ k, Current (m.instances k)) (hok : Untouched m c) (hst : step m c = some m')
    (k : ℕ) : Current (m'.instances k) := by
  cases c with
  | create =>
    obtain rfl := Option.some.inj hst
    exact create_instances (P := Current) h (zero_blank true).1 k
  | ctl epfd op fd event =>
    obtain rfl := Option.some.inj hst
    refine ctl_instances (P := Current) h (fun i hi => ?_) k
    cases op with
    | add =>
      simp only [ctl]
      exact ctlAdd_current (h i) event
    | mod =>
      simp only [ctl]
      exact ctlMod_current (h i) (hok i hi)
    | del =>
      simp only [ctl]
      exact ctlDel_current (h i) (hok i hi)
    | other => exact h i
  | notify fd events =>
    obtain rfl := Option.some.inj hst
    unfold epollNotify
    split
    · exact h k
    · refine forall_eachActive (P := Current) h (fun i _ _ => ?_) k
      exact notify_current (h i)
  | clearReady fd =>
    obtain rfl := Option.some.inj hst
    refine forall_eachActive (P := Current) h (fun i _ _ => ?_) k
    exact clearReady_current (h i)
  | wait epfd hasEvents maxevents =>
    obtain rfl := Option.some.inj hst
    refine wait_instances (P := Current) h (fun i room _ _ => ?_) k
    exact waitLoop_current (h i) room
  | close epfd =>
    obtain rfl := Option.some.inj hst
    exact close_instances (P := Current) h (fun inst => (closed_blank inst).1) k

theorem Fine.untouched {c : Call} (h : Fine m c) : Untouched m c := by
  cases c with
  | create => trivial
  | ctl epfd op fd event => exact h
  | notify fd events => trivial
  | clearReady fd => trivial
  | wait epfd hasEvents maxevents => trivial
  | close epfd => trivial

/-- An empty queue gives nothing to `epoll_wait`. -/
theorem waitLoop_empty {inst : Instance} (h : rqEmpty inst = true) (n : ℕ) : waitLoop n inst = ([], inst) := by
  cases n with
  | zero => rfl
  | succ n => simp [waitLoop, h]

/-- One call keeps the ready flags. -/
theorem step_exact {c : Call} (hc : ∀ k, Current (m.instances k)) (h : ∀ k, Exact (m.instances k)) (hok : Fine m c)
    (hst : step m c = some m') (k : ℕ) : Exact (m'.instances k) := by
  cases c with
  | create =>
    obtain rfl := Option.some.inj hst
    exact create_instances (P := Exact) h (zero_blank true).2 k
  | ctl epfd op fd event =>
    obtain rfl := Option.some.inj hst
    refine ctl_instances (P := Exact) h (fun i hi => ?_) k
    cases op with
    | add =>
      simp only [ctl]
      exact ctlAdd_exact (hc i) (h i) event
    | mod =>
      simp only [ctl]
      exact ctlMod_exact (h i) event
    | del =>
      simp only [ctl]
      exact ctlDel_exact (h i)
    | other => exact h i
  | notify fd events =>
    obtain rfl := Option.some.inj hst
    unfold epollNotify
    split
    · exact h k
    case isFalse hfd =>
      refine forall_eachActive (P := Exact) h (fun i hi hact => ?_) k
      refine notify_exact (hc i) (h i) fun j hw => ?_
      exact hok i j ⟨by omega, hi, hact, hw⟩
  | clearReady fd =>
    obtain rfl := Option.some.inj hst
    refine forall_eachActive (P := Exact) h (fun i hi hact => ?_) k
    exact clearReady_exact (h i) (hok i hi hact)
  | wait epfd hasEvents maxevents =>
    obtain rfl := Option.some.inj hst
    refine wait_instances (P := Exact) h (fun i room hi hr => ?_) k
    rw [waitLoop_empty (hok i hi (by simp [hr]))]
    exact h i
  | close epfd =>
    obtain rfl := Option.some.inj hst
    exact close_instances (P := Exact) h (fun inst => (closed_blank inst).2) k

theorem current_of_reach (h : Reach step Untouched epollInit m) (k : ℕ) : Current (m.instances k) := by
  have hinv : ∀ k, Current (m.instances k) :=
    h.invariant (I := fun m => ∀ k, Current (m.instances k))
      (fun _ => (zero_blank false).1)
      fun _ _ _ hm hok hst => step_current hm hok hst
  exact hinv k

theorem exact_of_reach (h : Reach step Fine epollInit m) (k : ℕ) : Exact (m.instances k) := by
  have hinv : ∀ k, Current (m.instances k) ∧ Exact (m.instances k) :=
    h.invariant (I := fun m => ∀ k, Current (m.instances k) ∧ Exact (m.instances k))
      (fun _ => zero_blank false)
      fun _ _ _ hm hok hst k => ⟨step_current (fun k => (hm k).1) hok.untouched hst k,
        step_exact (fun k => (hm k).1) (fun k => (hm k).2) hok hst k⟩
  exact (hinv k).2

theorem registered_of_mem {inst : Instance} {x : ReadyEntry} (h : Current inst) (hx : x ∈ inst.queue) :
    Registered inst x := by
  obtain ⟨j, hj, hdata⟩ := h.data x hx
  refine ⟨inst.fds j, ?_, hdata⟩
  simp [Instance.registration, epollFindFd_of_holds h hj]

theorem neverStale_of_current (h : ∀ k, Current (m.instances k)) : NeverStale m := by
  intro epfd hasEvents maxevents x hx
  unfold epollWait at hx
  split at hx
  case h_1 room i hr hi =>
    refine ⟨i, hi, registered_of_mem (h i) ?_⟩
    rw [(waitLoop_spec room (h i).ring).1]
    exact List.mem_append_left _ hx
  case h_2 => simp at hx

/-- What a call of `epoll_wait` for as many events as it gives does. -/
theorem epollWait_active (hi : i < maxInstances) (ha : (m.instances i).active = true) :
    epollWait m i true maxEvents =
      ((waitLoop 64 (m.instances i)).1, m.setInstance i (waitLoop 64 (m.instances i)).2) := by
  have hroom : waitRoom true maxEvents = some 64 := by simp [waitRoom, maxEvents]
  simp [epollWait, hroom, epollGetInstance_of_active hi ha]

/-- What one wait leaves, and what it reports. -/
theorem wait_active (hi : i < maxInstances) (ha : (m.instances i).active = true) (h : ∀ k, Current (m.instances k)) :
    let r := epollWait m i true maxEvents
    (m.instances i).queue = r.1 ++ (r.2.instances i).queue ∧ (∀ k, Current (r.2.instances k)) ∧
      (r.2.instances i).active = true ∧ r.1.length = min 64 (m.instances i).queue.length := by
  intro r
  obtain ⟨hsplit, -, -, hact, htaken⟩ := waitLoop_spec 64 (h i).ring
  have hr : r = ((waitLoop 64 (m.instances i)).1, m.setInstance i (waitLoop 64 (m.instances i)).2) :=
    epollWait_active hi ha
  have hself : r.2.instances i = (waitLoop 64 (m.instances i)).2 := by
    rw [hr]
    exact Function.update_self i _ _
  rw [hself, hr]
  exact ⟨hsplit, forall_setInstance h (waitLoop_current (h i) 64), hact.trans ha, htaken⟩

theorem queued_of_heard (hi : i < maxInstances) (ha : (m.instances i).active = true)
    (h : ∀ k, Current (m.instances k)) (hh : Heard m i fd) : Queued (m.instances i) fd := by
  obtain ⟨n, x, hx, rfl, -⟩ := hh
  induction n generalizing m with
  | zero =>
    rw [Queued, (wait_active hi ha h).1]
    exact List.mem_map_of_mem (List.mem_append_left _ hx)
  | succ n ih =>
    obtain ⟨hsplit, hcur, hact, -⟩ := wait_active hi ha h
    have hq := ih hact hcur hx
    rw [Queued, hsplit, List.map_append]
    exact List.mem_append_right _ hq

theorem heard_of_queued (hi : i < maxInstances) (ha : (m.instances i).active = true)
    (h : ∀ k, Current (m.instances k)) (hq : Queued (m.instances i) fd) : Heard m i fd := by
  generalize hlen : (m.instances i).queue.length = len
  induction len using Nat.strong_induction_on generalizing m with
  | _ len ih =>
    obtain ⟨hsplit, hcur, hact, htaken⟩ := wait_active hi ha h
    rw [Queued, hsplit, List.map_append, List.mem_append] at hq
    rcases hq with hq | hq
    · obtain ⟨x, hx, rfl⟩ := List.mem_map.mp hq
      have hmem : x ∈ (m.instances i).queue := by
        rw [hsplit]
        exact List.mem_append_left _ hx
      exact ⟨0, x, hx, rfl, registered_of_mem (h i) hmem⟩
    · -- the entry is behind those that were taken, so some were
      have hlt : ((epollWait m i true maxEvents).2.instances i).queue.length < len := by
        have hpos : 0 < ((epollWait m i true maxEvents).2.instances i).queue.length := by
          rw [← List.length_map ReadyEntry.fd]
          exact List.length_pos_of_mem hq
        have hsum := congrArg List.length hsplit
        rw [List.length_append] at hsum
        omega
      obtain ⟨n, x, hx, hfd, hreg⟩ := ih _ hlt hact hcur hq rfl
      exact ⟨n + 1, x, hx, hfd, hreg⟩

/-- A notification is heard exactly if an entry for the descriptor is queued already, or the descriptor is not ready and
there is room in the queue. -/
theorem notify_heard_iff (h : ∀ k, Current (m.instances k)) (hl : Listens m i j fd events) :
    Heard (epollNotify m fd events) i fd ↔
      Queued (m.instances i) fd ∨
        ((m.instances i).fds j).ready = false ∧ rqFull (m.instances i) = false := by
  obtain ⟨hfd, hi, ha, hw⟩ := hl
  have hne : ¬ fd < 0 := by omega
  have hinst : (epollNotify m fd events).instances i = notifyInstance (m.instances i) fd events := by
    simp [epollNotify, hne, Manager.eachActive, hi, ha]
  have hcur : ∀ k, Current ((epollNotify m fd events).instances k) :=
    step_current (c := .notify fd events) h trivial rfl
  have hact : ((epollNotify m fd events).instances i).active = true := by
    rw [hinst, notify_active, ha]
  rw [← notify_queued_iff (h i) hw, ← hinst]
  exact ⟨queued_of_heard hi hact hcur, heard_of_queued hi hact hcur⟩

theorem readyExact_of_exact (h : ∀ k, Exact (m.instances k)) : ReadyExact m := by
  intro i fd j hj
  rw [(h i).ready hj, Queued]
  constructor
  · exact fun hmem => List.count_eq_one_of_mem (h i).nodup hmem
  · intro hcount
    exact List.count_pos_iff.mp (by omega)

/-- In a run whose calls meet the condition the ready flags are exact, nothing stale is reported and every notification
is heard. For what is reported it is enough that queued descriptors are left registered as they are; then a notification
is heard exactly if an entry is queued already, or the flag is not set and there is room. -/
theorem epoll_sound (m : Manager) :
    (Reach step Fine epollInit m → ReadyExact m ∧ NeverStale m ∧
      ∀ fd events, Fine m (.notify fd events) → ∀ i j, Listens m i j fd events →
        Heard (epollNotify m fd events) i fd) ∧
    (Reach step Untouched epollInit m → NeverStale m ∧
      ∀ fd events i j, Listens m i j fd events →
        (Heard (epollNotify m fd events) i fd ↔
          Queued (m.instances i) fd ∨
            ((m.instances i).fds j).ready = false ∧ rqFull (m.instances i) = false)) := by
  constructor
  · intro hreach
    have hex := exact_of_reach hreach
    have hcur := current_of_reach (hreach.mono fun _ _ => Fine.untouched)
    refine ⟨readyExact_of_exact hex, neverStale_of_current hcur, fun fd events hok i j hl => ?_⟩
    refine (notify_heard_iff hcur hl).mpr ?_
    cases hr : ((m.instances i).fds j).ready with
    | true => exact .inl (((hex i).ready hl.2.2.2.1).mp hr)
    | false => exact .inr ⟨rfl, hok i j hl hr⟩
  · intro hreach
    have hcur := current_of_reach hreach
    exact ⟨neverStale_of_current hcur, fun fd events i j hl => notify_heard_iff hcur hl⟩

/-- A descriptor that is registered and notified. -/
theorem epoll_sound_notify :
    ∃ m, run step epollInit [.create, .ctl 0 .add 3 (some ⟨1, 7⟩)] = some m ∧ Fine m (.notify 3 1) ∧
      Listens m 0 0 3 1 ∧ Heard (epollNotify m 3 1) 0 3 := by
  obtain ⟨m₁, h₁⟩ : ∃ m₁, step epollInit .create = some m₁ := ⟨_, rfl⟩
  obtain ⟨m, h₂⟩ : ∃ m, step m₁ (.ctl 0 .add 3 (some ⟨1, 7⟩)) = some m := ⟨_, rfl⟩
  have hreach : Reach step Fine epollInit m := (Reach.start.step .create trivial h₁).step (.ctl 0 .add 3 (some ⟨1, 7⟩)) trivial h₂
  have hrun : run step epollInit [.create, .ctl 0 .add 3 (some ⟨1, 7⟩)] = some m := by
    rw [run_cons h₁, run_cons h₂, run_nil]
  have heval : (run step epollInit [.create, .ctl 0 .add 3 (some ⟨1, 7⟩)]).map (fun m =>
      ((m.instances 0).active, ((m.instances 0).fds 0).registered, ((m.instances 0).fds 0).fd,
        ((m.instances 0).fds 0).event)) = some (true, true, 3, ⟨1, 7⟩) := by
    decide +kernel
  rw [hrun, Option.map_some, Option.some.injEq, Prod.mk.injEq, Prod.mk.injEq, Prod.mk.injEq] at heval
  obtain ⟨hact, hreg, hfd, hevent⟩ := heval
  have hlisten : Listens m 0 0 3 1 :=
    ⟨by decide, by decide, hact, ⟨by decide, hreg, hfd⟩, by rw [matched, hevent]; decide⟩
  have hfine : Fine m (.notify 3 1) := by
    intro i j _ _
    have hempty (k : ℕ) : rqEmpty ((epollCreate epollInit).2.instances k) = true :=
      create_instances (P := fun inst => rqEmpty inst = true) (fun _ => rfl) rfl k
    have hcur := current_of_reach (hreach.mono fun _ _ => Fine.untouched) i
    have hblank : rqEmpty (m.instances i) = true := by
      obtain rfl := Option.some.inj h₁
      obtain rfl := Option.some.inj h₂
      refine ctl_instances (P := fun inst => rqEmpty inst = true) hempty (fun k _ => ?_) i
      simp only [ctl]
      rw [ctlAdd_rqEmpty]
      exact hempty k
    exact rqFull_of_empty hcur.ring hblank
  exact ⟨m, hrun, hfine, hlisten, ((epoll_sound m).1 hreach).2.2 3 1 hfine 0 0 hlisten⟩

/-- After its event was taken a descriptor stays ready with nothing queued, and the next notification is lost. -/
theorem second_notification_lost :
    ∃ m, run step epollInit [.create, .ctl 0 .add 3 (some ⟨1, 7⟩), .notify 3 1, .wait 0 true 64] = some m ∧
      Listens m 0 0 3 1 ∧ ¬ ReadyExact m ∧ ¬ Heard (epollNotify m 3 1) 0 3 := by
  obtain ⟨m₁, h₁⟩ : ∃ m₁, step epollInit .create = some m₁ := ⟨_, rfl⟩
  obtain ⟨m₂, h₂⟩ : ∃ m₂, step m₁ (.ctl 0 .add 3 (some ⟨1, 7⟩)) = some m₂ := ⟨_, rfl⟩
  obtain ⟨m₃, h₃⟩ : ∃ m₃, step m₂ (.notify 3 1) = some m₃ := ⟨_, rfl⟩
  obtain ⟨m, h₄⟩ : ∃ m, step m₃ (.wait 0 true 64) = some m := ⟨_, rfl⟩
  have hreach : Reach step Untouched epollInit m :=
    (((Reach.start.step .create trivial h₁).step (.ctl 0 .add 3 (some ⟨1, 7⟩)) trivial h₂).step (.notify 3 1) trivial
      h₃).step (.wait 0 true 64) trivial h₄
  have hrun : run step epollInit [.create, .ctl 0 .add 3 (some ⟨1, 7⟩), .notify 3 1, .wait 0 true 64] = some m := by
    rw [run_cons h₁, run_cons h₂, run_cons h₃, run_cons h₄, run_nil]
  have heval : (run step epollInit [.create, .ctl 0 .add 3 (some ⟨1, 7⟩), .notify 3 1, .wait 0 true 64]).map (fun m =>
      ((m.instances 0).active, ((m.instances 0).fds 0).registered, ((m.instances 0).fds 0).fd,
        ((m.instances 0).fds 0).event, ((m.instances 0).fds 0).ready, rqEmpty (m.instances 0))) =
      some (true, true, 3, ⟨1, 7⟩, true, true) := by
    decide +kernel
  rw [hrun, Option.map_some, Option.some.injEq] at heval
  simp only [Prod.mk.injEq] at heval
  obtain ⟨hact, hreg, hfd, hevent, hready, hempty⟩ := heval
  have hholds : Holds (m.instances 0) 0 3 := ⟨by decide, hreg, hfd⟩
  have hlisten : Listens m 0 0 3 1 := ⟨by decide, by decide, hact, hholds, by rw [matched, hevent]; decide⟩
  have hcur := current_of_reach hreach
  have hnil : (m.instances 0).queue = [] := (queue_eq_nil_iff (hcur 0).ring).mpr hempty
  refine ⟨m, hrun, hlisten, fun hexact => ?_, fun hheard => ?_⟩
  · have hiff := hexact 0 3 0 hholds
    rw [hready, hnil] at hiff
    simp at hiff
  · have hiff := (notify_heard_iff hcur hlisten).mp hheard
    rw [Queued, hnil, hready] at hiff
    simp at hiff

end Epoll
