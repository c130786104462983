import Kenux.Lib.RingBuf
import Kenux.Lib.Run
import Mathlib.Data.UInt

/-!
# Event polling (`kernel/epoll.c`)

Calls are taken one after the other, each under its locks. `epoll_wait` is called with timeout 0, so it never sleeps.
-/

namespace Epoll

/-- `epoll_event_t`. -/
structure Event where
  events : UInt32
  data : UInt64
  deriving DecidableEq

/-- `epoll_fd_t`. -/
structure EpollFd where
  fd : ℤ
  event : Event
  registered : Bool
  ready : Bool

/-- `epoll_ready_entry_t`. -/
structure ReadyEntry where
  fd : ℤ
  events : UInt32
  data : UInt64
  valid : Bool

def maxInstances : ℕ := 128

def maxFds : ℕ := 1024

def maxEvents : ℤ := 64

def readyQueueSize : ℕ := 256

/-- `EPOLLET`. -/
def epollet : UInt32 := 0x80000000

/-- `epoll_instance_t`, less its lock and wait queue. -/
structure Instance where
  active : Bool
  fdCount : ℕ
  fds : ℕ → EpollFd
  readyQueue : ℕ → ReadyEntry
  rqHead : ℕ
  rqTail : ℕ

/-- An instance of zeros, as `memset` leaves it. -/
def Instance.zero : Instance :=
  { active := false
    fdCount := 0
    fds := fun _ => ⟨0, ⟨0, 0⟩, false, false⟩
    readyQueue := fun _ => ⟨0, 0, 0, false⟩
    rqHead := 0
    rqTail := 0 }

/-- `epoll_manager_t`. -/
structure Manager where
  instances : ℕ → Instance
  activeCount : ℕ

/-- `epoll_init`. -/
def epollInit : Manager := ⟨fun _ => .zero, 0⟩

/-- `rq_empty`. -/
def rqEmpty (inst : Instance) : Bool := inst.rqHead = inst.rqTail

/-- `rq_full`. -/
def rqFull (inst : Instance) : Bool := (inst.rqTail + 1) % readyQueueSize = inst.rqHead

/-- `rq_push`; a full queue takes nothing. -/
def rqPush (inst : Instance) (fd : ℤ) (events : UInt32) (data : UInt64) : Instance :=
  if rqFull inst then inst
  else
    { inst with
      readyQueue := Function.update inst.readyQueue inst.rqTail ⟨fd, events, data, true⟩
      rqTail := (inst.rqTail + 1) % readyQueueSize }

/-- `rq_pop`, of a queue that is not empty. -/
def rqPop (inst : Instance) : Instance :=
  { inst with
    readyQueue := Function.update inst.readyQueue inst.rqHead { inst.readyQueue inst.rqHead with valid := false }
    rqHead := (inst.rqHead + 1) % readyQueueSize }

/-- `epoll_find_fd`. -/
def epollFindFd (inst : Instance) (fd : ℤ) : Option ℕ :=
  (List.range maxFds).find? fun i => (inst.fds i).registered && (inst.fds i).fd = fd

/-- `epoll_find_free_slot`. -/
def epollFindFreeSlot (inst : Instance) : Option ℕ :=
  (List.range maxFds).find? fun i => !(inst.fds i).registered

def Instance.setFd (inst : Instance) (slot : ℕ) (x : EpollFd) : Instance :=
  { inst with fds := Function.update inst.fds slot x }

/-- `EPOLL_CTL_ADD`. -/
def ctlAdd (inst : Instance) (fd : ℤ) (event : Option Event) : ℤ × Instance :=
  if (epollFindFd inst fd).isSome then (-1, inst)
  else if maxFds ≤ inst.fdCount then (-1, inst)
  else
    match event, epollFindFreeSlot inst with
    | some event, some slot =>
      (0, { inst.setFd slot ⟨fd, event, true, false⟩ with fdCount := inst.fdCount + 1 })
    | _, _ => (-1, inst)

/-- `EPOLL_CTL_MOD`. -/
def ctlMod (inst : Instance) (fd : ℤ) (event : Option Event) : ℤ × Instance :=
  match epollFindFd inst fd, event with
  | some slot, some event => (0, inst.setFd slot { inst.fds slot with event := event })
  | _, _ => (-1, inst)

/-- `EPOLL_CTL_DEL`. -/
def ctlDel (inst : Instance) (fd : ℤ) : ℤ × Instance :=
  match epollFindFd inst fd with
  | some slot => (0, { inst.setFd slot ⟨-1, ⟨0, 0⟩, false, false⟩ with fdCount := inst.fdCount - 1 })
  | none => (-1, inst)

inductive Op where
  | add | mod | del | other
  deriving DecidableEq

/-- The operations of `epoll_ctl` on an instance. -/
def ctl (inst : Instance) (op : Op) (fd : ℤ) (event : Option Event) : ℤ × Instance :=
  match op with
  | .add => ctlAdd inst fd event
  | .mod => ctlMod inst fd event
  | .del => ctlDel inst fd
  | .other => (-1, inst)

/-- The loop of `epoll_wait`: at most `n` entries are taken. -/
def waitLoop : ℕ → Instance → List ReadyEntry × Instance
  | 0, inst => ([], inst)
  | n + 1, inst =>
    if rqEmpty inst then ([], inst)
    else
      let rest := waitLoop n (rqPop inst)
      (inst.readyQueue inst.rqHead :: rest.1, rest.2)

/-- The events of a notification that the registration asks for. -/
def matched (efd : EpollFd) (events : UInt32) : UInt32 := events &&& (efd.event.events &&& ~~~epollet)

/-- `epoll_notify` on one instance. Level and edge triggered descriptors are treated alike. -/
def notifyInstance (inst : Instance) (fd : ℤ) (events : UInt32) : Instance :=
  match (List.range maxFds).find? fun j =>
      (inst.fds j).registered && (inst.fds j).fd = fd && matched (inst.fds j) events ≠ 0 with
  | none => inst
  | some j =>
    let efd := inst.fds j
    if efd.event.events &&& epollet = 0 then
      if efd.ready then inst
      else rqPush (inst.setFd j { efd with ready := true }) fd (matched efd events) efd.event.data
    else
      if efd.ready then inst
      else rqPush (inst.setFd j { efd with ready := true }) fd (matched efd events) efd.event.data

/-- `epoll_notify_clear_ready` on one instance. -/
def clearReadyInstance (inst : Instance) (fd : ℤ) : Instance :=
  match epollFindFd inst fd with
  | some slot => inst.setFd slot { inst.fds slot with ready := false }
  | none => inst

/-- `epoll_get_instance`. -/
def epollGetInstance (m : Manager) (epfd : ℤ) : Option ℕ :=
  if epfd < 0 ∨ (maxInstances : ℤ) ≤ epfd then none
  else if (m.instances epfd.toNat).active then some epfd.toNat else none

def Manager.setInstance (m : Manager) (i : ℕ) (inst : Instance) : Manager :=
  { m with instances := Function.update m.instances i inst }

/-- `epoll_create`, through `epoll_alloc_instance`. -/
def epollCreate (m : Manager) : ℤ × Manager :=
  if maxInstances ≤ m.activeCount then (-1, m)
  else
    match (List.range maxInstances).find? fun i => !(m.instances i).active with
    | some i => (i, { m.setInstance i { Instance.zero with active := true } with activeCount := m.activeCount + 1 })
    | none => (-1, m)

/-- `epoll_ctl`. -/
def epollCtl (m : Manager) (epfd : ℤ) (op : Op) (fd : ℤ) (event : Option Event) : ℤ × Manager :=
  if fd < 0 then (-1, m)
  else
    match epollGetInstance m epfd with
    | none => (-1, m)
    | some i =>
      let r := ctl (m.instances i) op fd event
      (r.1, m.setInstance i r.2)

/-- The number of entries that `epoll_wait` may take, if its arguments are valid. -/
def waitRoom (hasEvents : Bool) (maxevents : ℤ) : Option ℕ :=
  if hasEvents = false ∨ maxevents ≤ 0 ∨ maxEvents < maxevents then none else some maxevents.toNat

/-- `epoll_wait` with timeout 0 and the entries whose events it stores; `hasEvents` says that `events` is not null. -/
def epollWait (m : Manager) (epfd : ℤ) (hasEvents : Bool) (maxevents : ℤ) : List ReadyEntry × Manager :=
  match waitRoom hasEvents maxevents, epollGetInstance m epfd with
  | some room, some i =>
    let r := waitLoop room (m.instances i)
    (r.1, m.setInstance i r.2)
  | _, _ => ([], m)

/-- A change of all active instances. -/
def Manager.eachActive (m : Manager) (f : Instance → Instance) : Manager :=
  { m with instances := fun i => if i < maxInstances ∧ (m.instances i).active then f (m.instances i) else m.instances i }

/-- `epoll_notify`. -/
def epollNotify (m : Manager) (fd : ℤ) (events : UInt32) : Manager :=
  if fd < 0 then m else m.eachActive fun inst => notifyInstance inst fd events

/-- `epoll_notify_clear_ready`. -/
def epollNotifyClearReady (m : Manager) (fd : ℤ) : Manager := m.eachActive fun inst => clearReadyInstance inst fd

/-- What `epoll_close` leaves of an instance. -/
def closedInstance (inst : Instance) : Instance :=
  { active := false
    fdCount := 0
    fds := fun j => if j < maxFds then ⟨-1, ⟨0, 0⟩, false, false⟩ else inst.fds j
    readyQueue := fun j => if j < readyQueueSize then { inst.readyQueue j with valid := false } else inst.readyQueue j
    rqHead := 0
    rqTail := 0 }

/-- `epoll_close`. -/
def epollClose (m : Manager) (epfd : ℤ) : ℤ × Manager :=
  match epollGetInstance m epfd with
  | none => (-1, m)
  | some i => (0, { m.setInstance i (closedInstance (m.instances i)) with activeCount := m.activeCount - 1 })

inductive Call where
  | create
  | ctl (epfd : ℤ) (op : Op) (fd : ℤ) (event : Option Event)
  | notify (fd : ℤ) (events : UInt32)
  | clearReady (fd : ℤ)
  | wait (epfd : ℤ) (hasEvents : Bool) (maxevents : ℤ)
  | close (epfd : ℤ)

/-- Every call returns. -/
def step (m : Manager) : Call → Option Manager
  | .create => some (epollCreate m).2
  | .ctl epfd op fd event => some (epollCtl m epfd op fd event).2
  | .notify fd events => some (epollNotify m fd events)
  | .clearReady fd => some (epollNotifyClearReady m fd)
  | .wait epfd hasEvents maxevents => some (epollWait m epfd hasEvents maxevents).2
  | .close epfd => some (epollClose m epfd).2

/-- The entries of the ready queue, the oldest first. -/
def Instance.queue (inst : Instance) : List ReadyEntry :=
  RingBuf.cells readyQueueSize inst.readyQueue inst.rqHead
    ((inst.rqTail + readyQueueSize - inst.rqHead) % readyQueueSize)

/-- The registration of a descriptor. -/
def Instance.registration (inst : Instance) (fd : ℤ) : Option EpollFd := (epollFindFd inst fd).map inst.fds

end Epoll
