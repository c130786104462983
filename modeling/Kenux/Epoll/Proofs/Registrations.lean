import Kenux.Epoll.Model

/-!
# Registrations and queued entries (`kernel/epoll.c`)

`Current` ties every queued entry to the registration it was made for; `Exact` ties the ready flags to the entries.
-/

/-!
## The ready queue of an instance (`kernel/epoll.c`)
-/

namespace Epoll

open RingBuf

/-- The positions are in the ring. -/
def RingOk (inst : Instance) : Prop := inst.rqHead < readyQueueSize ∧ inst.rqTail < readyQueueSize

variable {inst : Instance}

theorem queue_eq_nil_iff (h : RingOk inst) : inst.queue = [] ↔ rqEmpty inst = true := by
  obtain ⟨hhead, htail⟩ := h
  unfold readyQueueSize at *
  rw [← List.length_eq_zero_iff, Instance.queue, length_cells, rqEmpty, decide_eq_true_eq]
  unfold readyQueueSize
  omega

theorem rqFull_of_empty (h : RingOk inst) (he : rqEmpty inst = true) : rqFull inst = false := by
  obtain ⟨-, htail⟩ := h
  unfold readyQueueSize at htail
  rw [rqEmpty, decide_eq_true_eq] at he
  rw [rqFull, decide_eq_false_iff_not, he]
  unfold readyQueueSize
  omega

/-- A queue that is not full takes the entry at its end. -/
theorem queue_push (h : RingOk inst) (hf : rqFull inst = false) (fd : ℤ) (events : UInt32) (data : UInt64) :
    (rqPush inst fd events data).queue = inst.queue ++ [⟨fd, events, data, true⟩] ∧
      RingOk (rqPush inst fd events data) := by
  obtain ⟨hhead, htail⟩ := h
  have hfull : (inst.rqTail + 1) % 256 ≠ inst.rqHead := of_decide_eq_false hf
  unfold readyQueueSize at hhead htail
  -- the entry goes to the cell behind the contents
  have hcell : inst.rqTail = (inst.rqHead + (inst.rqTail + 256 - inst.rqHead) % 256) % 256 := by omega
  have hlen : ((inst.rqTail + 1) % 256 + 256 - inst.rqHead) % 256 = (inst.rqTail + 256 - inst.rqHead) % 256 + 1 := by
    omega
  constructor
  · have hcells : cells 256 (Function.update inst.readyQueue
        ((inst.rqHead + (inst.rqTail + 256 - inst.rqHead) % 256) % 256) ⟨fd, events, data, true⟩) inst.rqHead
        ((inst.rqTail + 256 - inst.rqHead) % 256 + 1) = inst.queue ++ [⟨fd, events, data, true⟩] :=
      cells_update (by omega) _
    rw [← hcell, ← hlen] at hcells
    simpa only [rqPush, hf, Bool.false_eq_true, if_false, Instance.queue, readyQueueSize] using hcells
  · simp only [rqPush, hf, Bool.false_eq_true, if_false, RingOk, readyQueueSize]
    exact ⟨hhead, by omega⟩

theorem push_full (hf : rqFull inst = true) (fd : ℤ) (events : UInt32) (data : UInt64) :
    rqPush inst fd events data = inst := by
  simp [rqPush, hf]

/-- The registrations are no part of the ring. -/
theorem rqPush_fds (fd : ℤ) (events : UInt32) (data : UInt64) :
    (rqPush inst fd events data).fds = inst.fds ∧ (rqPush inst fd events data).active = inst.active := by
  unfold rqPush
  split <;> exact ⟨rfl, rfl⟩

/-- The oldest entry is taken. -/
theorem queue_pop (h : RingOk inst) (he : rqEmpty inst = false) :
    inst.queue = inst.readyQueue inst.rqHead :: (rqPop inst).queue ∧ RingOk (rqPop inst) := by
  obtain ⟨hhead, htail⟩ := h
  have hne : inst.rqHead ≠ inst.rqTail := by simpa [rqEmpty] using he
  unfold readyQueueSize at hhead htail
  obtain ⟨n, hn⟩ : ∃ n, (inst.rqTail + 256 - inst.rqHead) % 256 = n + 1 := Nat.exists_eq_succ_of_ne_zero (by omega)
  have hn' : (inst.rqTail + 256 - (inst.rqHead + 1) % 256) % 256 = n := by omega
  have hself : inst.rqHead % 256 = inst.rqHead := Nat.mod_eq_of_lt hhead
  constructor
  · simp only [Instance.queue, rqPop, readyQueueSize, hn, hn']
    have hbefore : cells 256 (Function.update inst.readyQueue (inst.rqHead % 256)
        { inst.readyQueue inst.rqHead with valid := false }) (inst.rqHead + 1) n =
        cells 256 inst.readyQueue (inst.rqHead + 1) n := cells_update_before (by omega) _
    rw [hself] at hbefore
    rw [cells_succ', hself, cells_congr (Nat.mod_mod (inst.rqHead + 1) 256), hbefore]
  · simp only [rqPop, RingOk, readyQueueSize]
    exact ⟨by omega, htail⟩

/-- What the loop of `epoll_wait` takes is the front of the queue. -/
theorem waitLoop_spec (n : ℕ) (h : RingOk inst) :
    inst.queue = (waitLoop n inst).1 ++ (waitLoop n inst).2.queue ∧ RingOk (waitLoop n inst).2 ∧
      (waitLoop n inst).2.fds = inst.fds ∧ (waitLoop n inst).2.active = inst.active ∧
      (waitLoop n inst).1.length = min n inst.queue.length := by
  induction n generalizing inst with
  | zero => simp [waitLoop, h]
  | succ n ih =>
    cases he : rqEmpty inst with
    | true =>
      have hnil := (queue_eq_nil_iff h).mpr he
      simp [waitLoop, he, h, hnil]
    | false =>
      obtain ⟨hq, hok⟩ := queue_pop h he
      obtain ⟨hsplit, hring, hfds, hact, hlen⟩ := ih hok
      have heq : waitLoop (n + 1) inst =
          (inst.readyQueue inst.rqHead :: (waitLoop n (rqPop inst)).1, (waitLoop n (rqPop inst)).2) := by
        simp [waitLoop, he]
      rw [heq]
      refine ⟨?_, hring, hfds, hact, ?_⟩
      · rw [hq, List.cons_append, ← hsplit]
      · rw [List.length_cons, hlen, hq, List.length_cons]
        omega

end Epoll

namespace Epoll

/-- Slot `j` holds the registration of `fd`. -/
def Holds (inst : Instance) (j : ℕ) (fd : ℤ) : Prop :=
  j < maxFds ∧ (inst.fds j).registered = true ∧ (inst.fds j).fd = fd

/-- An entry for the descriptor is queued. -/
def Queued (inst : Instance) (fd : ℤ) : Prop := fd ∈ inst.queue.map ReadyEntry.fd

/-- A descriptor is registered once, and a queued entry has the data of its descriptor's registration. -/
structure Current (inst : Instance) : Prop where
  ring : RingOk inst
  once : ∀ {i j fd}, Holds inst i fd → Holds inst j fd → i = j
  data : ∀ x ∈ inst.queue, ∃ j, Holds inst j x.fd ∧ (inst.fds j).event.data = x.data

/-- A descriptor has at most one entry, and has one exactly if it is ready. -/
structure Exact (inst : Instance) : Prop where
  nodup : (inst.queue.map ReadyEntry.fd).Nodup
  ready : ∀ {j fd}, Holds inst j fd → ((inst.fds j).ready = true ↔ Queued inst fd)

variable {inst : Instance} {fd fd' : ℤ} {j slot : ℕ} {events : UInt32} {ev : Event}

theorem epollFindFd_some (h : epollFindFd inst fd = some j) : Holds inst j fd := by
  have hmem := List.mem_of_find?_eq_some h
  have hp := List.find?_some h
  simp only [Bool.and_eq_true, decide_eq_true_eq] at hp
  exact ⟨List.mem_range.mp hmem, hp⟩

theorem epollFindFd_none (h : epollFindFd inst fd = none) (j : ℕ) : ¬ Holds inst j fd := by
  intro ⟨hlt, hreg, hfd⟩
  have hno := List.find?_eq_none.mp h j (List.mem_range.mpr hlt)
  simp [hreg, hfd] at hno

theorem epollFindFd_of_holds (hc : Current inst) (h : Holds inst j fd) : epollFindFd inst fd = some j := by
  cases hf : epollFindFd inst fd with
  | none => exact (epollFindFd_none hf j h).elim
  | some i => rw [hc.once (epollFindFd_some hf) h]

theorem epollFindFreeSlot_some (h : epollFindFreeSlot inst = some slot) :
    slot < maxFds ∧ (inst.fds slot).registered = false := by
  have hmem := List.mem_of_find?_eq_some h
  have hp := List.find?_some h
  simp only [Bool.not_eq_true'] at hp
  exact ⟨List.mem_range.mp hmem, hp⟩

/-- A queued entry belongs to a registered descriptor. -/
theorem Current.holds_of_queued (h : Current inst) (hq : Queued inst fd) : ∃ j, Holds inst j fd := by
  obtain ⟨x, hx, rfl⟩ := List.mem_map.mp hq
  obtain ⟨j, hj, -⟩ := h.data x hx
  exact ⟨j, hj⟩

/-- A slot of the table is changed; the ring is not. -/
structure SetFd (inst inst' : Instance) (slot : ℕ) (x : EpollFd) : Prop where
  fds : inst'.fds = Function.update inst.fds slot x
  queue : inst'.queue = inst.queue
  ring : RingOk inst → RingOk inst'

theorem setFd_setFd (x : EpollFd) : SetFd inst (inst.setFd slot x) slot x := ⟨rfl, rfl, id⟩

variable {inst' : Instance} {x : EpollFd}

theorem SetFd.self (h : SetFd inst inst' slot x) : inst'.fds slot = x := by rw [h.fds, Function.update_self]

theorem SetFd.ne (h : SetFd inst inst' slot x) (hj : j ≠ slot) : inst'.fds j = inst.fds j := by
  rw [h.fds, Function.update_of_ne hj]

theorem SetFd.queued (h : SetFd inst inst' slot x) : Queued inst' fd ↔ Queued inst fd := by
  simp only [Queued, h.queue]

/-- A slot whose registration stays. -/
theorem SetFd.holds (h : SetFd inst inst' slot x)
    (hx : x.registered = (inst.fds slot).registered ∧ x.fd = (inst.fds slot).fd) :
    Holds inst' j fd ↔ Holds inst j fd := by
  simp only [Holds]
  by_cases hj : j = slot
  · rw [hj, h.self, hx.1, hx.2]
  · rw [h.ne hj]

/-- The registrations after a descriptor was put in the slot. -/
theorem SetFd.holds_new (h : SetFd inst inst' slot ⟨fd, ev, true, false⟩) (hj : Holds inst' j fd') :
    (j = slot ∧ fd' = fd) ∨ (j ≠ slot ∧ Holds inst j fd') := by
  simp only [Holds] at hj ⊢
  by_cases hjs : j = slot
  · rw [hjs, h.self] at hj
    exact .inl ⟨hjs, hj.2.2.symm⟩
  · rw [h.ne hjs] at hj
    exact .inr ⟨hjs, hj⟩

/-- The registrations after the change, when the slot holds none any more. -/
theorem SetFd.holds_old (h : SetFd inst inst' slot x) (hx : x.registered = false) (hj : Holds inst' j fd) :
    j ≠ slot ∧ Holds inst j fd := by
  simp only [Holds] at hj ⊢
  have hjs : j ≠ slot := by
    intro heq
    rw [heq, h.self, hx] at hj
    exact absurd hj.2.1 (by simp)
  rw [h.ne hjs] at hj
  exact ⟨hjs, hj⟩

/-- A change of a slot that keeps its registration and the data of what is queued. -/
theorem Current.setFd (h : Current inst) (hs : SetFd inst inst' slot x)
    (hx : x.registered = (inst.fds slot).registered ∧ x.fd = (inst.fds slot).fd)
    (hd : ∀ e ∈ inst.queue, Holds inst slot e.fd → x.event.data = e.data) : Current inst' := by
  refine ⟨hs.ring h.ring, fun hi hj => h.once ((hs.holds hx).mp hi) ((hs.holds hx).mp hj), fun e he => ?_⟩
  rw [hs.queue] at he
  obtain ⟨j, hj, hdata⟩ := h.data e he
  refine ⟨j, (hs.holds hx).mpr hj, ?_⟩
  by_cases hjs : j = slot
  · rw [hjs, hs.self]
    exact hd e he (hjs ▸ hj)
  · rw [hs.ne hjs]
    exact hdata

/-- A change of a slot that keeps its registration and its data. -/
theorem Current.setFd_data (h : Current inst) (hs : SetFd inst inst' slot x)
    (hx : x.registered = (inst.fds slot).registered ∧ x.fd = (inst.fds slot).fd)
    (hd : x.event = (inst.fds slot).event) : Current inst' := by
  refine h.setFd hs hx fun e he hj => ?_
  obtain ⟨i, hi, hdata⟩ := h.data e he
  rw [hd, h.once hj hi]
  exact hdata

/-- A change of a slot that keeps its registration and its ready flag. -/
theorem Exact.setFd (h : Exact inst) (hs : SetFd inst inst' slot x)
    (hx : x.registered = (inst.fds slot).registered ∧ x.fd = (inst.fds slot).fd)
    (hr : x.ready = (inst.fds slot).ready) : Exact inst' := by
  refine ⟨by rw [hs.queue]; exact h.nodup, fun {j fd} hj => ?_⟩
  have hj := (hs.holds hx).mp hj
  rw [hs.queued, ← h.ready hj]
  by_cases hjs : j = slot
  · rw [hjs, hs.self, hr]
  · rw [hs.ne hjs]

/-! ## `epoll_ctl` -/

theorem ctlAdd_cases (inst : Instance) (fd : ℤ) (event : Option Event) :
    (ctlAdd inst fd event).2 = inst ∨
      ∃ slot ev, (∀ j, ¬ Holds inst j fd) ∧ slot < maxFds ∧ (inst.fds slot).registered = false ∧
        SetFd inst (ctlAdd inst fd event).2 slot ⟨fd, ev, true, false⟩ := by
  unfold ctlAdd
  split
  case isTrue => exact .inl rfl
  case isFalse hf =>
    have hno : epollFindFd inst fd = none := by simpa using hf
    split
    case isTrue => exact .inl rfl
    case isFalse =>
      split
      case h_1 ev slot hs =>
        obtain ⟨hlt, hfree⟩ := epollFindFreeSlot_some hs
        exact .inr ⟨slot, ev, epollFindFd_none hno, hlt, hfree, ⟨rfl, rfl, id⟩⟩
      case h_2 => exact .inl rfl

theorem ctlMod_cases (inst : Instance) (fd : ℤ) (event : Option Event) :
    (ctlMod inst fd event).2 = inst ∨
      ∃ slot ev, event = some ev ∧ Holds inst slot fd ∧
        SetFd inst (ctlMod inst fd event).2 slot { inst.fds slot with event := ev } := by
  unfold ctlMod
  split
  case h_1 slot ev hf => exact .inr ⟨slot, ev, rfl, epollFindFd_some hf, setFd_setFd _⟩
  case h_2 => exact .inl rfl

theorem ctlDel_cases (inst : Instance) (fd : ℤ) :
    (ctlDel inst fd).2 = inst ∨
      ∃ slot, Holds inst slot fd ∧ SetFd inst (ctlDel inst fd).2 slot ⟨-1, ⟨0, 0⟩, false, false⟩ := by
  unfold ctlDel
  split
  case h_1 slot hf => exact .inr ⟨slot, epollFindFd_some hf, ⟨rfl, rfl, id⟩⟩
  case h_2 => exact .inl rfl

theorem ctlAdd_rqEmpty (inst : Instance) (fd : ℤ) (event : Option Event) :
    rqEmpty (ctlAdd inst fd event).2 = rqEmpty inst := by
  unfold ctlAdd
  split
  · rfl
  · split
    · rfl
    · split <;> rfl

theorem ctlAdd_current (h : Current inst) (event : Option Event) : Current (ctlAdd inst fd event).2 := by
  rcases ctlAdd_cases inst fd event with heq | ⟨slot, ev, hno, -, hfree, hs⟩
  · rwa [heq]
  refine ⟨hs.ring h.ring, fun {i j fd'} hi hj => ?_, fun e he => ?_⟩
  · rcases hs.holds_new hi with ⟨rfl, rfl⟩ | ⟨-, hold⟩
    · rcases hs.holds_new hj with ⟨rfl, -⟩ | ⟨-, hj⟩
      · rfl
      · exact (hno j hj).elim
    · rcases hs.holds_new hj with ⟨rfl, rfl⟩ | ⟨-, hj⟩
      · exact (hno i hold).elim
      · exact h.once hold hj
  · rw [hs.queue] at he
    obtain ⟨j, hj, hdata⟩ := h.data e he
    have hne : j ≠ slot := by
      rintro rfl
      exact absurd hj.2.1 (by simp [hfree])
    refine ⟨j, ?_, by rw [hs.ne hne]; exact hdata⟩
    simp only [Holds, hs.ne hne]
    exact hj

/-- The new registration is not ready, and nothing is queued for it. -/
theorem ctlAdd_exact (hc : Current inst) (h : Exact inst) (event : Option Event) :
    Exact (ctlAdd inst fd event).2 := by
  rcases ctlAdd_cases inst fd event with heq | ⟨slot, ev, hno, -, hfree, hs⟩
  · rwa [heq]
  refine ⟨by rw [hs.queue]; exact h.nodup, fun {j fd'} hj => ?_⟩
  rw [hs.queued]
  rcases hs.holds_new hj with ⟨rfl, rfl⟩ | ⟨hne, hj⟩
  · rw [hs.self]
    refine ⟨fun hr => absurd hr (by simp), fun hq => ?_⟩
    obtain ⟨i, hi⟩ := hc.holds_of_queued hq
    exact (hno i hi).elim
  · rw [hs.ne hne]
    exact h.ready hj

theorem ctlMod_current (h : Current inst) {event : Option Event}
    (hd : ∀ ev ∈ event, ∀ e ∈ inst.queue, e.fd = fd → ev.data = e.data) : Current (ctlMod inst fd event).2 := by
  rcases ctlMod_cases inst fd event with heq | ⟨slot, ev, hev, hslot, hs⟩
  · rwa [heq]
  · refine h.setFd hs ⟨rfl, rfl⟩ fun e he hj => ?_
    exact hd ev hev e he (hj.2.2.symm.trans hslot.2.2)

theorem ctlMod_exact (h : Exact inst) (event : Option Event) : Exact (ctlMod inst fd event).2 := by
  rcases ctlMod_cases inst fd event with heq | ⟨slot, ev, -, -, hs⟩
  · rwa [heq]
  · exact h.setFd hs ⟨rfl, rfl⟩ rfl

theorem ctlDel_current (h : Current inst) (hq : ¬ Queued inst fd) : Current (ctlDel inst fd).2 := by
  rcases ctlDel_cases inst fd with heq | ⟨slot, hslot, hs⟩
  · rwa [heq]
  refine ⟨hs.ring h.ring, fun hi hj => h.once (hs.holds_old rfl hi).2 (hs.holds_old rfl hj).2, fun e he => ?_⟩
  rw [hs.queue] at he
  obtain ⟨j, hj, hdata⟩ := h.data e he
  -- the entry is not one of the deleted descriptor
  have hne : j ≠ slot := by
    rintro rfl
    have hfd : fd = e.fd := hslot.2.2.symm.trans hj.2.2
    exact hq (hfd ▸ List.mem_map_of_mem he)
  refine ⟨j, ?_, by rw [hs.ne hne]; exact hdata⟩
  simp only [Holds, hs.ne hne]
  exact hj

theorem ctlDel_exact (h : Exact inst) : Exact (ctlDel inst fd).2 := by
  rcases ctlDel_cases inst fd with heq | ⟨slot, -, hs⟩
  · rwa [heq]
  refine ⟨by rw [hs.queue]; exact h.nodup, fun hj => ?_⟩
  obtain ⟨hne, hj⟩ := hs.holds_old rfl hj
  rw [hs.queued, hs.ne hne]
  exact h.ready hj

/-! ## `epoll_notify_clear_ready`, `epoll_wait` -/

theorem clearReady_cases (inst : Instance) (fd : ℤ) :
    clearReadyInstance inst fd = inst ∨
      ∃ slot, Holds inst slot fd ∧
        SetFd inst (clearReadyInstance inst fd) slot { inst.fds slot with ready := false } := by
  unfold clearReadyInstance
  split
  case h_1 slot hf => exact .inr ⟨slot, epollFindFd_some hf, setFd_setFd _⟩
  case h_2 => exact .inl rfl

theorem clearReady_current (h : Current inst) : Current (clearReadyInstance inst fd) := by
  rcases clearReady_cases inst fd with heq | ⟨slot, -, hs⟩
  · rwa [heq]
  · exact h.setFd_data hs ⟨rfl, rfl⟩ rfl

theorem clearReady_exact (h : Exact inst) (hq : ¬ Queued inst fd) : Exact (clearReadyInstance inst fd) := by
  rcases clearReady_cases inst fd with heq | ⟨slot, hslot, hs⟩
  · rwa [heq]
  have hready : (inst.fds slot).ready = false := by
    have hiff := h.ready hslot
    simpa [hq] using hiff
  exact h.setFd hs ⟨rfl, rfl⟩ hready.symm

theorem waitLoop_current (h : Current inst) (n : ℕ) : Current (waitLoop n inst).2 := by
  obtain ⟨hsplit, hring, hfds, -, -⟩ := waitLoop_spec n h.ring
  have hholds {j : ℕ} {fd : ℤ} : Holds (waitLoop n inst).2 j fd ↔ Holds inst j fd := by
    simp only [Holds, hfds]
  refine ⟨hring, fun hi hj => h.once (hholds.mp hi) (hholds.mp hj), fun e he => ?_⟩
  obtain ⟨j, hj, hdata⟩ := h.data e (by rw [hsplit]; exact List.mem_append_right _ he)
  exact ⟨j, hholds.mpr hj, by rw [hfds]; exact hdata⟩

/-! ## `epoll_notify` -/

/-- The descriptor is registered for one of the events. -/
def Wanted (inst : Instance) (fd : ℤ) (events : UInt32) (j : ℕ) : Prop :=
  Holds inst j fd ∧ matched (inst.fds j) events ≠ 0

/-- What a notification does with an instance: nothing, or the first entry for the descriptor is pushed. -/
theorem notifyInstance_cases (inst : Instance) (fd : ℤ) (events : UInt32) :
    (notifyInstance inst fd events = inst ∧ ∀ j, ¬ Wanted inst fd events j) ∨
      ∃ j, Wanted inst fd events j ∧
        ((inst.fds j).ready = true ∧ notifyInstance inst fd events = inst ∨
          (inst.fds j).ready = false ∧
            notifyInstance inst fd events = rqPush (inst.setFd j { inst.fds j with ready := true }) fd
              (matched (inst.fds j) events) (inst.fds j).event.data) := by
  unfold notifyInstance
  split
  case h_1 hf =>
    refine .inl ⟨rfl, fun j ⟨⟨hlt, hreg, hfd⟩, hm⟩ => ?_⟩
    have hno := List.find?_eq_none.mp hf j (List.mem_range.mpr hlt)
    simp [hreg, hfd, hm] at hno
  case h_2 j hf =>
    have hmem := List.mem_of_find?_eq_some hf
    have hp := List.find?_some hf
    simp only [Bool.and_eq_true, decide_eq_true_eq] at hp
    refine .inr ⟨j, ⟨⟨List.mem_range.mp hmem, hp.1⟩, hp.2⟩, ?_⟩
    -- the two triggers do the same
    rw [ite_self]
    cases (inst.fds j).ready with
    | true => exact .inl ⟨rfl, rfl⟩
    | false => exact .inr ⟨rfl, rfl⟩

theorem notify_active : (notifyInstance inst fd events).active = inst.active := by
  rcases notifyInstance_cases inst fd events with ⟨heq, -⟩ | ⟨j, -, ⟨-, heq⟩ | ⟨-, heq⟩⟩
  · rw [heq]
  · rw [heq]
  · rw [heq]
    obtain ⟨-, hact⟩ : (rqPush (inst.setFd j { inst.fds j with ready := true }) fd (matched (inst.fds j) events)
      (inst.fds j).event.data).fds = _ ∧ _ := rqPush_fds fd _ _
    exact hact

/-- An entry for a registered descriptor is pushed. -/
theorem Current.push (h : Current inst) (hj : Holds inst j fd) (events : UInt32) :
    Current (rqPush inst fd events (inst.fds j).event.data) := by
  cases hfull : rqFull inst with
  | true => rwa [push_full hfull]
  | false =>
    obtain ⟨hq, hring⟩ := queue_push h.ring hfull fd events (inst.fds j).event.data
    obtain ⟨hfds, -⟩ : _ ∧ (rqPush inst fd events (inst.fds j).event.data).active = _ := rqPush_fds fd events _
    have hholds {k : ℕ} {fd' : ℤ} :
        Holds (rqPush inst fd events (inst.fds j).event.data) k fd' ↔ Holds inst k fd' := by
      simp only [Holds, hfds]
    refine ⟨hring, fun hi hk => h.once (hholds.mp hi) (hholds.mp hk), fun e he => ?_⟩
    rw [hq, List.mem_append, List.mem_singleton] at he
    rcases he with he | rfl
    · obtain ⟨k, hk, hd⟩ := h.data e he
      exact ⟨k, hholds.mpr hk, by rw [hfds]; exact hd⟩
    · exact ⟨j, hholds.mpr hj, by rw [hfds]⟩

theorem notify_current (h : Current inst) : Current (notifyInstance inst fd events) := by
  rcases notifyInstance_cases inst fd events with ⟨heq, -⟩ | ⟨j, hw, ⟨-, heq⟩ | ⟨-, heq⟩⟩
  · rwa [heq]
  · rwa [heq]
  rw [heq]
  generalize hset : inst.setFd j { inst.fds j with ready := true } = inst'
  have hs : SetFd inst inst' j { inst.fds j with ready := true } := by
    rw [← hset]
    exact setFd_setFd _
  have hpush := (h.setFd_data hs ⟨rfl, rfl⟩ rfl).push ((hs.holds ⟨rfl, rfl⟩).mpr hw.1) (matched (inst.fds j) events)
  rwa [hs.self] at hpush

/-- A notification of a descriptor that is not ready needs room in the queue. -/
theorem notify_exact (hc : Current inst) (h : Exact inst)
    (hroom : ∀ j, Wanted inst fd events j → (inst.fds j).ready = false → rqFull inst = false) :
    Exact (notifyInstance inst fd events) := by
  rcases notifyInstance_cases inst fd events with ⟨heq, -⟩ | ⟨j, hw, ⟨-, heq⟩ | ⟨hready, heq⟩⟩
  · rwa [heq]
  · rwa [heq]
  have hfull := hroom j hw hready
  rw [heq]
  generalize hset : inst.setFd j { inst.fds j with ready := true } = inst'
  have hs : SetFd inst inst' j { inst.fds j with ready := true } := by
    rw [← hset]
    exact setFd_setFd _
  have hfull' : rqFull inst' = false := by
    rw [← hset]
    exact hfull
  obtain ⟨hq, -⟩ := queue_push (hs.ring hc.ring) hfull' fd (matched (inst.fds j) events) (inst.fds j).event.data
  obtain ⟨hfds, -⟩ : _ ∧ (rqPush inst' fd (matched (inst.fds j) events) (inst.fds j).event.data).active = _ :=
    rqPush_fds fd _ _
  have hno : fd ∉ inst.queue.map ReadyEntry.fd := by
    have hiff := h.ready hw.1
    rw [hready] at hiff
    simpa [Queued] using hiff
  refine ⟨?_, fun {k fd'} hk => ?_⟩
  · rw [hq, hs.queue, List.map_append, List.nodup_append]
    refine ⟨h.nodup, by simp, fun a ha b hb hab => ?_⟩
    obtain rfl : b = fd := by simpa using hb
    exact hno (hab ▸ ha)
  · have hk : Holds inst' k fd' := by
      simp only [Holds, hfds] at hk
      exact hk
    have hk₀ := (hs.holds ⟨rfl, rfl⟩).mp hk
    rw [hfds, Queued, hq, hs.queue, List.map_append, List.mem_append, List.map_singleton, List.mem_singleton]
    by_cases hkj : k = j
    · subst hkj
      rw [hs.self]
      simp [← hk₀.2.2, hw.1.2.2]
    · have hne : fd' ≠ fd := by
        rintro rfl
        exact hkj (hc.once hk₀ hw.1)
      rw [hs.ne hkj, h.ready hk₀]
      simp [hne, Queued]

/-- After a notification that was wanted an entry for the descriptor is queued, if one was before or there was room. -/
theorem notify_queued_iff (hc : Current inst) (hw : Wanted inst fd events j) :
    Queued (notifyInstance inst fd events) fd ↔
      Queued inst fd ∨ ((inst.fds j).ready = false ∧ rqFull inst = false) := by
  rcases notifyInstance_cases inst fd events with ⟨-, hno⟩ | ⟨i, hi, ⟨hready, heq⟩ | ⟨hready, heq⟩⟩
  · exact (hno j hw).elim
  · rw [heq, hc.once hw.1 hi.1, hready]
    simp
  rw [heq, hc.once hw.1 hi.1, hready]
  generalize hset : inst.setFd i { inst.fds i with ready := true } = inst'
  have hs : SetFd inst inst' i { inst.fds i with ready := true } := by
    rw [← hset]
    exact setFd_setFd _
  have hfull : rqFull inst' = rqFull inst := by
    rw [← hset]
    rfl
  cases hf : rqFull inst with
  | true =>
    rw [push_full (hfull.trans hf), hs.queued]
    simp
  | false =>
    obtain ⟨hq, -⟩ :=
      queue_push (hs.ring hc.ring) (hfull.trans hf) fd (matched (inst.fds i) events) (inst.fds i).event.data
    rw [Queued, hq]
    simp

end Epoll
