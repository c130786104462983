import Kenux.Unixsock.Threads

/-!
# The locks of pipes and sockets
-/

namespace Unixsock

open Threads

/-- The locks that a thread should hold at a place in the code of a pipe. -/
def fifoHeld : Fifo.Pc → List Lock
  | .readTop p _ _ | .readQueue p _ _ | .readDrop p _ _ | .readCopy p _ _ | .readAdvance p _ _ _ | .readUnlock p _ |
    .writeTop p _ _ | .writeQueue p _ _ | .writeDrop p _ _ | .writeCopy p _ _ | .writeAdvance p _ _ _ |
    .writeUnlock p _ _ _ | .closeFlag p _ | .closeUnlock p _ => [.pipe p]
  | .readEnter .. | .readAsleep .. | .writeEnter .. | .writeAsleep .. | .closeEnter .. | .closeDrop .. | .ret _ => []

/-- The locks that a thread should hold at a place in the code of a socket. -/
def sockHeld : SockPc → List Lock
  | .acceptCheck l | .acceptTop l | .acceptQueue l | .acceptDrop l | .acceptFail l | .acceptUnlock l _ => [.sock l]
  | .createRegister .. | .createUnlock .. | .createFull _ | .connectFind .. | .connectFound .. => [.table]
  | .acceptLockClient a _ | .acceptUnlockNew a => [.sock a]
  | .acceptJoin a c | .acceptUnlockClient a c => [.sock a, .sock c]
  | .connectCheck _ v | .connectRefuse v | .connectSet _ v | .connectWake _ v | .connectUnlock _ v => [.sock v]
  | .connectTop s _ | .connectQueue s _ | .connectWait s _ | .connectGone s | .connectUnlockSelf s _ |
    .dgramJoin s _ | .dgramUnlock s => [.sock s]
  | .sendCheck _ v _ _ | .sendQueue _ v _ _ | .sendDrop _ v _ _ | .sendUnlock _ v _ _ | .sendGone _ v _ |
    .dsendCheck v _ | .dsendUnlock v _ => [.sock v]
  | .sendGoneSet s _ | .sendGoneUnlock s _ => [.sock s]
  | .recvTop s _ | .recvQueue s _ | .recvDrop s _ | .recvUnlock s _ => [.sock s]
  | .acceptEnter _ | .acceptAsleep _ | .acceptCreate _ | .createTable .. | .createFree _ | .acceptLockNew .. |
    .connectEnter .. | .connectType .. | .connectLock .. | .connectDrop _ | .connectLockSelf .. | .connectAsleep .. |
    .connectEnd .. | .dgramLock .. | .sendEnter .. | .sendTop .. | .sendAsleep .. | .sendGoneLock .. | .dsendLock .. |
    .recvEnter .. | .recvLock .. | .recvAsleep .. | .ret _ => []

def held : Pc → List Lock
  | .fifo c => fifoHeld c
  | .unix c => sockHeld c

/-- No thread goes on in `fifo_read`, `fifo_write`, `unix_socket_recv`, `unix_socket_accept` or `unix_socket_connect`
after `wait_queue_wait`, and a stream socket connects only to itself and does not get connected. -/
def Steady : Pc → Prop
  | .fifo (.readAsleep ..) | .fifo (.writeAsleep ..) => False
  | .unix (.recvAsleep ..) | .unix (.acceptAsleep _) | .unix (.connectAsleep ..) | .unix (.connectEnd ..) => False
  | .unix (.connectSet s v) => s = v
  | _ => True

/-- The condition says exactly where a step keeps to the locks. -/
theorem fine_iff (t : ℕ) (c : Pc) : Fine code held t c ↔ Steady c := by
  cases c with
  | fifo c =>
    cases c with
    | readAsleep p n got => exact iff_of_false (fun h => nomatch h _ List.mem_cons_self) id
    | writeAsleep p buf done => exact iff_of_false (fun h => nomatch h _ List.mem_cons_self) id
    | _ =>
      refine iff_of_true ?_ trivial
      first
        | exact trivial
        | exact List.mem_cons_self
        | exact fun _ h => h
        | exact fun _ h => absurd h List.not_mem_nil
  | unix c =>
    cases c with
    | acceptAsleep l => exact iff_of_false (fun h => nomatch h _ List.mem_cons_self) id
    | connectAsleep s v => exact iff_of_false (fun h => nomatch h _ List.mem_cons_self) id
    | connectEnd s v => exact iff_of_false (fun h => nomatch h _ List.mem_cons_self) id
    | recvAsleep s n => exact iff_of_false (fun h => nomatch h _ List.mem_cons_self) id
    | connectSet s v =>
      constructor
      · intro h
        exact Lock.sock.inj (List.mem_singleton.mp (h _ List.mem_cons_self))
      · rintro rfl
        exact fun _ h => h
    | sendTop s v buf written =>
      refine iff_of_true ?_ trivial
      unfold Fine
      simp only [code, sockInstr]
      by_cases hrem : Fifo.remaining buf written > 0
      · rw [if_pos hrem]
        trivial
      · rw [if_neg hrem]
        exact fun _ h => absurd h List.not_mem_nil
    | _ =>
      refine iff_of_true ?_ trivial
      first
        | exact trivial
        | exact List.mem_cons_self
        | exact List.mem_cons_of_mem _ List.mem_cons_self
        | exact fun _ h => h
        | exact fun _ h => absurd h List.not_mem_nil

section

variable {i : Option ℕ} {k k' : Kernel} {c : Pc} {p a : ℕ} {locks : List Lock}

theorem onPipe_held {f : (ℕ → Bool) → Fifo.Pipe → Fifo.Result} (hf : ∀ w x, fifoHeld (f w x).2.2 = locks)
    (h : onPipe p f i k = some (k', c)) : held c = locks := by
  unfold onPipe at h
  cases hx : k.pipe p with
  | none =>
    rw [hx] at h
    cases h
  | some x =>
    rw [hx] at h
    obtain ⟨-, rfl⟩ := Prod.mk.inj (Option.some.inj h)
    exact hf _ _

theorem onSock_held {f : (ℕ → Bool) → Sock → (ℕ → Bool) × Sock × SockPc} (hf : ∀ w x, sockHeld (f w x).2.2 = locks)
    (h : onSock a f i k = some (k', c)) : held c = locks := by
  unfold onSock at h
  cases hx : k.unix.sock a with
  | none =>
    rw [hx] at h
    cases h
  | some x =>
    rw [hx] at h
    obtain ⟨-, rfl⟩ := Prod.mk.inj (Option.some.inj h)
    exact hf _ _

theorem onSockets_held {f : Option ℕ → Sockets → Option (Sockets × SockPc)}
    (hf : ∀ x y c, f i x = some (y, c) → sockHeld c = locks) (h : onSockets f i k = some (k', c)) :
    held c = locks := by
  obtain ⟨⟨y, c'⟩, hy, heq⟩ := Option.map_eq_some_iff.mp h
  obtain ⟨-, rfl⟩ := Prod.mk.inj heq
  exact hf _ _ _ hy

end

/-! ## What each instruction does to the locks of its thread -/

theorem acquire_held (t : ℕ) (c : Pc) (l : Lock) (k : Pc) (h : code.instr t c = .acquire l k) :
    (held k).Perm (l :: held c) := by
  cases c with
  | fifo c => cases c <;> cases h <;> exact .refl _
  | unix c =>
    cases c with
    | acceptLockClient a c =>
      cases h
      exact .swap _ _ _
    | sendTop s v buf written =>
      simp only [code, sockInstr] at h
      by_cases hrem : Fifo.remaining buf written > 0
      · rw [if_pos hrem] at h
        cases h
        exact .refl _
      · rw [if_neg hrem] at h
        cases h
    | _ => cases h <;> exact .refl _

theorem release_held (t : ℕ) (c : Pc) (l : Lock) (k : Pc) (h : code.instr t c = .release l k) :
    (held k).Perm ((held c).erase l) := by
  cases c with
  | fifo c => cases c <;> cases h <;> simp [held, fifoHeld]
  | unix c =>
    cases c with
    | sendTop s v buf written =>
      simp only [code, sockInstr] at h
      by_cases hrem : Fifo.remaining buf written > 0
      · rw [if_pos hrem] at h
        cases h
      · rw [if_neg hrem] at h
        cases h
    | acceptUnlockClient a c =>
      cases h
      by_cases hac : a = c <;> simp [held, sockHeld, hac]
    | _ => cases h <;> simp [held, sockHeld]

theorem readTop_held (p n : ℕ) (got : List UInt8) (w : ℕ → Bool) (x : Fifo.Pipe) :
    fifoHeld (Fifo.readTop p n got w x).2.2 = [.pipe p] := by
  unfold Fifo.readTop
  generalize Fifo.int64 n = count
  dsimp only
  by_cases hmore : (got.length : ℤ) < count
  · rw [if_pos hmore]
    by_cases hempty : x.ring.bytes = 0
    · rw [if_pos hempty]
      by_cases hclosed : x.writerClosed = true
      · rw [if_pos hclosed]
        rfl
      · rw [if_neg hclosed]
        rfl
    · rw [if_neg hempty]
      rfl
  · rw [if_neg hmore]
    rfl

theorem writeTop_held (p : ℕ) (buf : List UInt8) (done : ℕ) (w : ℕ → Bool) (x : Fifo.Pipe) :
    fifoHeld (Fifo.writeTop p buf done w x).2.2 = [.pipe p] := by
  unfold Fifo.writeTop
  by_cases hmore : Fifo.remaining buf done > 0
  · by_cases hclosed : x.readerClosed = true
    · simp [hmore, hclosed, fifoHeld]
    · by_cases hfull : Fifo.fifoPipeSize - x.ring.bytes = 0 <;> simp [hmore, hclosed, hfull, fifoHeld]
  · simp [hmore, fifoHeld]

theorem closeFlag_held (p : ℕ) (e : Fifo.End) (w : ℕ → Bool) (x : Fifo.Pipe) :
    fifoHeld (Fifo.closeFlag p e w x).2.2 = [.pipe p] := by
  cases e <;> rfl

theorem acceptCheck_held (l : ℕ) (w : ℕ → Bool) (x : Sock) : sockHeld (acceptCheck l w x).2.2 = [.sock l] := by
  unfold acceptCheck
  by_cases hstate : x.state ≠ .listening <;> simp [hstate, sockHeld]

theorem acceptTop_held (l : ℕ) (w : ℕ → Bool) (x : Sock) : sockHeld (acceptTop l w x).2.2 = [.sock l] := by
  unfold acceptTop
  cases x.pending with
  | nil => by_cases hclosed : x.state = .closed <;> simp [hclosed, sockHeld]
  | cons c rest => rfl

theorem acceptCreate_held {c : ℕ} {i : Option ℕ} (x y : Sockets) (k : SockPc)
    (h : acceptCreate c i x = some (y, k)) : sockHeld k = [] := by
  unfold acceptCreate at h
  cases i with
  | none =>
    cases h
    rfl
  | some a =>
    dsimp only at h
    cases hx : x.sock a with
    | none =>
      rw [hx] at h
      cases h
      rfl
    | some _ =>
      rw [hx] at h
      cases h

theorem createRegister_held {a c : ℕ} {i : Option ℕ} (x y : Sockets) (k : SockPc)
    (h : createRegister a c i x = some (y, k)) : sockHeld k = [.table] := by
  unfold createRegister at h
  cases hx : registerSocket a x with
  | none =>
    rw [hx] at h
    cases h
    rfl
  | some z =>
    rw [hx] at h
    cases h
    rfl

theorem acceptJoin_held {a c : ℕ} {i : Option ℕ} (x y : Sockets) (k : SockPc)
    (h : acceptJoin a c i x = some (y, k)) : sockHeld k = [.sock a, .sock c] := by
  unfold acceptJoin at h
  cases ha : x.sock a with
  | none =>
    rw [ha] at h
    cases h
  | some n =>
    cases hc : x.sock c with
    | none =>
      rw [ha, hc] at h
      cases h
    | some client =>
      rw [ha, hc] at h
      cases h
      rfl

theorem connectFind_held {s : ℕ} {path : List UInt8} {i : Option ℕ} (x y : Sockets) (k : SockPc)
    (h : connectFind s path i x = some (y, k)) : sockHeld k = [.table] := by
  unfold connectFind at h
  cases hfind : findBoundSocket path x with
  | none =>
    rw [hfind] at h
    cases h
    rfl
  | some v =>
    rw [hfind] at h
    obtain ⟨_, -, heq⟩ := Option.map_eq_some_iff.mp h
    cases heq
    rfl

theorem connectType_held {s : ℕ} {v : Option ℕ} {i : Option ℕ} (x y : Sockets) (k : SockPc)
    (h : connectType s v i x = some (y, k)) : sockHeld k = [] := by
  unfold connectType at h
  cases v with
  | none =>
    cases h
    rfl
  | some v =>
    dsimp only at h
    cases hs : x.sock s with
    | none =>
      rw [hs] at h
      cases h
    | some m =>
      cases hv : x.sock v with
      | none =>
        rw [hs, hv] at h
        cases h
      | some server =>
        rw [hs, hv] at h
        dsimp only at h
        by_cases htype : server.type ≠ m.type
        · rw [if_pos htype] at h
          cases h
          rfl
        · rw [if_neg htype] at h
          cases hm : m.type with
          | stream =>
            rw [hm] at h
            cases h
            rfl
          | dgram =>
            rw [hm] at h
            cases h
            rfl

theorem connectCheck_held {s v : ℕ} {i : Option ℕ} (x y : Sockets) (k : SockPc)
    (h : connectCheck s v i x = some (y, k)) : sockHeld k = [.sock v] := by
  obtain ⟨server, -, heq⟩ := Option.map_eq_some_iff.mp h
  by_cases hstate : server.state ≠ .listening
  · rw [if_pos hstate] at heq
    cases heq
    rfl
  · rw [if_neg hstate] at heq
    by_cases hfull : server.pendingCount ≥ server.backlog
    · rw [if_pos hfull] at heq
      cases heq
      rfl
    · rw [if_neg hfull] at heq
      cases i with
      | none =>
        cases heq
        rfl
      | some _ =>
        cases heq
        rfl

theorem connectDrop_held {v : ℕ} {i : Option ℕ} (x y : Sockets) (k : SockPc)
    (h : connectDrop v i x = some (y, k)) : sockHeld k = [] := by
  obtain ⟨_, -, heq⟩ := Option.map_eq_some_iff.mp h
  cases heq
  rfl

theorem connectTop_held (s v : ℕ) (w : ℕ → Bool) (x : Sock) : sockHeld (connectTop s v w x).2.2 = [.sock s] := by
  unfold connectTop
  by_cases hstate : x.state = .connecting
  · by_cases hclosed : x.flags.peerClosed = true <;> simp [hstate, hclosed, sockHeld]
  · simp [hstate, sockHeld]

theorem sendEnter_held (s : ℕ) (buf : List UInt8) (w : ℕ → Bool) (x : Sock) :
    sockHeld (sendEnter s buf w x).2.2 = [] := by
  unfold sendEnter
  cases x.peer with
  | none => rfl
  | some v =>
    by_cases hshut : x.flags.shutWr = true
    · simp [hshut, sockHeld]
    · cases htype : x.type <;> simp [hshut, sockHeld]

theorem sendCheck_held (s v : ℕ) (buf : List UInt8) (written : ℕ) (w : ℕ → Bool) (x : Sock) :
    sockHeld (sendCheck s v buf written w x).2.2 = [.sock v] := by
  unfold sendCheck
  by_cases hclosed : x.flags.peerClosed = true ∨ x.flags.shutRd = true
  · rw [if_pos hclosed]
    rfl
  · rw [if_neg hclosed]
    by_cases hfull : unixSockRecvBuf - x.recv.bytes = 0
    · rw [if_pos hfull]
      rfl
    · rw [if_neg hfull]
      rfl

theorem dsendCheck_held (v : ℕ) (buf : List UInt8) (w : ℕ → Bool) (x : Sock) :
    sockHeld (dsendCheck v buf w x).2.2 = [.sock v] := by
  unfold dsendCheck
  by_cases hfull : unixSockRecvBuf - x.recv.bytes < buf.length % 2 ^ 32
  · rw [if_pos hfull]
    rfl
  · rw [if_neg hfull]
    rfl

theorem recvEnter_held (s n : ℕ) (w : ℕ → Bool) (x : Sock) : sockHeld (recvEnter s n w x).2.2 = [] := by
  unfold recvEnter
  by_cases hshut : x.flags.shutRd = true <;> simp [hshut, sockHeld]

theorem recvTop_held (s n : ℕ) (w : ℕ → Bool) (x : Sock) : sockHeld (recvTop s n w x).2.2 = [.sock s] := by
  unfold recvTop
  by_cases hempty : x.recv.bytes = 0
  · by_cases hclosed : x.flags.peerClosed = true <;> simp [hempty, hclosed, sockHeld]
  · rw [if_neg hempty]
    rfl

section

variable {t : ℕ} {guards : List Lock} {f : Option ℕ → Kernel → Option (Kernel × Pc)} {i : Option ℕ}
  {x y : Kernel} {k : Pc}

theorem fifo_act_held (c : Fifo.Pc) (h : fifoInstr t c = .act guards f) (hg : ∀ l ∈ guards, l ∈ fifoHeld c)
    (hf : f i x = some (y, k)) : held k = fifoHeld c := by
  cases c with
  | readTop p n got =>
    cases h
    exact onPipe_held (readTop_held p n got) hf
  | readAsleep p n got =>
    cases h
    cases hg _ List.mem_cons_self
  | writeTop p buf done =>
    cases h
    exact onPipe_held (writeTop_held p buf done) hf
  | writeAsleep p buf done =>
    cases h
    cases hg _ List.mem_cons_self
  | closeFlag p e =>
    cases h
    exact onPipe_held (closeFlag_held p e) hf
  | ret v =>
    cases h
    cases hf
  | _ =>
    cases h <;>
    exact onPipe_held (fun _ _ => rfl) hf

theorem sock_act_held (c : SockPc) (h : sockInstr t c = .act guards f) (hg : ∀ l ∈ guards, l ∈ sockHeld c)
    (hf : f i x = some (y, k)) : held k = sockHeld c := by
  cases c with
  | acceptCheck l =>
    cases h
    exact onSock_held (acceptCheck_held l) hf
  | acceptTop l =>
    cases h
    exact onSock_held (acceptTop_held l) hf
  | acceptAsleep l =>
    cases h
    cases hg _ List.mem_cons_self
  | acceptCreate c =>
    cases h
    exact onSockets_held acceptCreate_held hf
  | createRegister a c =>
    cases h
    exact onSockets_held createRegister_held hf
  | createFree a =>
    cases h
    cases hf
    rfl
  | acceptJoin a c =>
    cases h
    exact onSockets_held acceptJoin_held hf
  | connectFind s path =>
    cases h
    exact onSockets_held connectFind_held hf
  | connectType s v =>
    cases h
    exact onSockets_held connectType_held hf
  | connectCheck s v =>
    cases h
    exact onSockets_held connectCheck_held hf
  | connectDrop v =>
    cases h
    exact onSockets_held connectDrop_held hf
  | connectTop s v =>
    cases h
    exact onSock_held (connectTop_held s v) hf
  | connectAsleep s v =>
    cases h
    cases hg _ List.mem_cons_self
  | connectEnd s v =>
    cases h
    cases hg _ List.mem_cons_self
  | sendEnter s buf =>
    cases h
    exact onSock_held (sendEnter_held s buf) hf
  | sendTop s v buf written =>
    simp only [sockInstr] at h
    by_cases hrem : Fifo.remaining buf written > 0
    · rw [if_pos hrem] at h
      cases h
    · rw [if_neg hrem] at h
      cases h
      cases hf
      rfl
  | sendCheck s v buf written =>
    cases h
    exact onSock_held (sendCheck_held s v buf written) hf
  | sendAsleep s v buf written =>
    cases h
    cases hf
    rfl
  | dsendCheck v buf =>
    cases h
    exact onSock_held (dsendCheck_held v buf) hf
  | recvEnter s n =>
    cases h
    exact onSock_held (recvEnter_held s n) hf
  | recvTop s n =>
    cases h
    exact onSock_held (recvTop_held s n) hf
  | recvAsleep s n =>
    cases h
    cases hg _ List.mem_cons_self
  | ret v =>
    cases h
    cases hf
  | _ =>
    cases h <;>
    exact onSock_held (fun _ _ => rfl) hf

end

theorem idle_held (c : Pc) (h : idle c = true) : held c = [] := by
  cases c with
  | fifo c =>
    cases c with
    | ret v => rfl
    | _ => cases h
  | unix c =>
    cases c with
    | ret v => rfl
    | _ => cases h

theorem entry_held (c : Call) : held (entry c) = [] := by
  cases c with
  | read p n => by_cases hn : n = 0 <;> simp [entry, hn, held, fifoHeld]
  | write p buf => by_cases hbuf : buf = [] <;> simp [entry, hbuf, held, fifoHeld]
  | send s buf => by_cases hbuf : buf = [] <;> simp [entry, hbuf, held, sockHeld]
  | recv s n => by_cases hn : n = 0 <;> simp [entry, hn, held, sockHeld]
  | _ => rfl

/-- The places and the code agree about the locks. -/
theorem code_typed : Typed code held where
  acquire := acquire_held
  release t c l k h _ := release_held t c l k h
  act t c guards f i x y k h hg hf := by
    cases c with
    | fifo c => exact fifo_act_held c h hg hf
    | unix c => exact sock_act_held c h hg hf
  entry := entry_held
  idle := idle_held

theorem lockInv_start (unix : Sockets) : LockInv held (start unix) := by
  refine ⟨fun _ => List.nodup_nil, fun l t => iff_of_false nofun fun h => absurd h List.not_mem_nil⟩

end Unixsock
