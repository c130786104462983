import Kenux.Lib.RingBuf
import Mathlib.Data.UInt

/-!
# Pipes (`kernel/fifo.c`)

Where a thread is in the code of a pipe, and what it does to the pipe there. A pass through the loop of `fifo_read` or
`fifo_write` copies first and moves the position and the count after.
-/

/-!
## The ring of a pipe or a socket

`kernel/fifo.c` and `kernel/unixsock.c` copy into and out of a ring in at most two pieces. A position may stand behind
the last byte; the next copy then begins with an empty first piece.
-/

namespace Fifo

open RingBuf

structure Ring where
  data : ℕ → UInt8
  readPos : ℕ
  writePos : ℕ
  bytes : ℕ

/-- `memcpy` to offset `i`. -/
def memcpy (data : ℕ → UInt8) (i : ℕ) (bs : List UInt8) : ℕ → UInt8 := fun j =>
  if i ≤ j ∧ j < i + bs.length then bs.getD (j - i) 0 else data j

/-- The `n` bytes from offset `i` on. -/
def bytesAt (data : ℕ → UInt8) (i n : ℕ) : List UInt8 := (List.range n).map fun j => data (i + j)

/-- Where a position is after `n` bytes. -/
def advance (size pos n : ℕ) : ℕ :=
  let contiguous := size - pos
  if contiguous ≥ n then pos + n else n - contiguous

/-- Copies bytes to the write position. -/
def Ring.copyIn (size : ℕ) (r : Ring) (bs : List UInt8) : Ring :=
  let contiguous := size - r.writePos
  if contiguous ≥ bs.length then { r with data := memcpy r.data r.writePos bs }
  else { r with data := memcpy (memcpy r.data r.writePos (bs.take contiguous)) 0 (bs.drop contiguous) }

/-- The `n` bytes at the read position. -/
def Ring.copyOut (size : ℕ) (r : Ring) (n : ℕ) : List UInt8 :=
  let contiguous := size - r.readPos
  if contiguous ≥ n then bytesAt r.data r.readPos n
  else bytesAt r.data r.readPos contiguous ++ bytesAt r.data 0 (n - contiguous)

def Ring.contents (size : ℕ) (r : Ring) : List UInt8 := cells size r.data r.readPos r.bytes

/-- The positions are in the ring or behind its end, and the contents end at the write position. -/
structure Ring.Ok (size : ℕ) (r : Ring) : Prop where
  readPos : r.readPos ≤ size
  writePos : r.writePos ≤ size
  bytes : r.bytes ≤ size
  ends : r.writePos % size = (r.readPos + r.bytes) % size

variable {size i pos n : ℕ} {data : ℕ → UInt8} {r : Ring} {bs : List UInt8}

theorem advance_le (hpos : pos ≤ size) (hn : n ≤ size) : advance size pos n ≤ size := by
  unfold advance
  by_cases h : size - pos ≥ n
  · rw [if_pos h]
    omega
  · rw [if_neg h]
    omega

theorem advance_mod (hpos : pos ≤ size) : advance size pos n % size = (pos + n) % size := by
  unfold advance
  by_cases h : size - pos ≥ n
  · rw [if_pos h]
  · rw [if_neg h]
    have hsum : pos + n = n - (size - pos) + size := by omega
    rw [hsum, Nat.add_mod_right]

theorem bytesAt_eq_cells (size : ℕ) (h : i + n ≤ size) : bytesAt data i n = cells size data i n := by
  unfold bytesAt cells
  apply List.map_congr_left
  intro j hj
  have hj := List.mem_range.mp hj
  rw [Nat.mod_eq_of_lt (by omega)]

/-- What is copied out are the next cells, around the end. -/
theorem Ring.copyOut_eq (hpos : r.readPos ≤ size) (hn : n ≤ size) :
    r.copyOut size n = cells size r.data r.readPos n := by
  unfold Ring.copyOut
  by_cases h : size - r.readPos ≥ n
  · rw [if_pos h]
    exact bytesAt_eq_cells size (by omega)
  · rw [if_neg h, bytesAt_eq_cells size (by omega), bytesAt_eq_cells size (by omega)]
    have hsplit : n = (size - r.readPos) + (n - (size - r.readPos)) := by omega
    conv => rhs; rw [hsplit, cells_add]
    congr 1
    apply cells_congr
    have hend : r.readPos + (size - r.readPos) = size := by omega
    rw [hend, Nat.mod_self, Nat.zero_mod]

theorem memcpy_nil : memcpy data i [] = data := by
  funext j
  unfold memcpy
  rw [if_neg]
  simp

theorem memcpy_cons (b : UInt8) : memcpy data i (b :: bs) = memcpy (Function.update data i b) (i + 1) bs := by
  funext j
  unfold memcpy
  rw [List.length_cons]
  by_cases hj : j = i
  · subst hj
    rw [if_pos (by omega), if_neg (by omega), Function.update_self, Nat.sub_self, List.getD_cons_zero]
  · by_cases hin : i + 1 ≤ j ∧ j < i + 1 + bs.length
    · rw [if_pos (by omega), if_pos hin]
      have hsub : j - i = j - (i + 1) + 1 := by omega
      rw [hsub, List.getD_cons_succ]
    · rw [if_neg (by omega), if_neg hin, Function.update_of_ne hj]

theorem memcpy_eq_fill (size : ℕ) (h : i + bs.length ≤ size) : memcpy data i bs = fill size data i bs := by
  induction bs generalizing data i with
  | nil => exact memcpy_nil
  | cons b bs ih =>
    rw [List.length_cons] at h
    unfold fill
    rw [memcpy_cons, ih (by omega), Nat.mod_eq_of_lt (by omega)]

/-- Copying in fills the next cells, around the end. -/
theorem Ring.copyIn_eq (hpos : r.writePos ≤ size) (hn : bs.length ≤ size) :
    r.copyIn size bs = { r with data := fill size r.data r.writePos bs } := by
  unfold Ring.copyIn
  by_cases h : size - r.writePos ≥ bs.length
  · rw [if_pos h, memcpy_eq_fill size (by omega)]
  · rw [if_neg h]
    have hfirst : (bs.take (size - r.writePos)).length = size - r.writePos := by
      rw [List.length_take]
      omega
    have hsecond : (bs.drop (size - r.writePos)).length = bs.length - (size - r.writePos) := List.length_drop
    congr 1
    rw [memcpy_eq_fill (i := r.writePos) size (by omega), memcpy_eq_fill (i := 0) size (by omega)]
    conv => rhs; rw [← List.take_append_drop (size - r.writePos) bs, fill_append, hfirst]
    apply fill_congr
    have hend : r.writePos + (size - r.writePos) = size := by omega
    rw [hend, Nat.mod_self, Nat.zero_mod]

end Fifo

/-!
## Wait queues (`kernel/wait.c`)

A queue lists the processes of its nodes, first come first; `waiting` says which processes are in `PROCESS_WAITING`.
-/

namespace Fifo

/-- `wait_queue_wait` up to where it releases the caller's lock: the process goes to the end of the queue. -/
def waitQueueAdd (t : ℕ) (queue : List ℕ) (waiting : ℕ → Bool) : List ℕ × (ℕ → Bool) :=
  (queue ++ [t], Function.update waiting t true)

/-- `wait_queue_wake_one`. -/
def waitQueueWakeOne : List ℕ → (ℕ → Bool) → List ℕ × (ℕ → Bool)
  | [], waiting => ([], waiting)
  | t :: queue, waiting =>
    if waiting t then (queue, Function.update waiting t false)
    else
      let r := waitQueueWakeOne queue waiting
      (t :: r.1, r.2)

/-- `wait_queue_wake_all`. -/
def waitQueueWakeAll : List ℕ → (ℕ → Bool) → List ℕ × (ℕ → Bool)
  | [], waiting => ([], waiting)
  | t :: queue, waiting =>
    if waiting t then waitQueueWakeAll queue (Function.update waiting t false)
    else
      let r := waitQueueWakeAll queue waiting
      (t :: r.1, r.2)

def fifoPipeSize : ℕ := 4096

/-- `fifo_pipe_t`; `written` and `taken` are all bytes that were ever put in and taken out. -/
structure Pipe where
  ring : Ring
  readWaiters : List ℕ
  writeWaiters : List ℕ
  refCount : ℕ
  readerClosed : Bool
  writerClosed : Bool
  written : List UInt8
  taken : List UInt8

/-- `fifo_create`. -/
def fifoCreate : Pipe := ⟨⟨fun _ => 0, 0, 0, 0⟩, [], [], 2, false, false, [], []⟩

inductive End where
  | reader
  | writer

/-- The places in the code. `got` are the bytes read so far, `done` counts the bytes of `buf` written so far. An
`Asleep` place is in `process_yield`, called from `wait_queue_wait`. -/
inductive Pc where
  | readEnter (p n : ℕ)
  | readTop (p n : ℕ) (got : List UInt8)
  | readQueue (p n : ℕ) (got : List UInt8)
  | readDrop (p n : ℕ) (got : List UInt8)
  | readAsleep (p n : ℕ) (got : List UInt8)
  | readCopy (p n : ℕ) (got : List UInt8)
  | readAdvance (p n : ℕ) (got chunk : List UInt8)
  | readUnlock (p : ℕ) (got : List UInt8)
  | writeEnter (p : ℕ) (buf : List UInt8)
  | writeTop (p : ℕ) (buf : List UInt8) (done : ℕ)
  | writeQueue (p : ℕ) (buf : List UInt8) (done : ℕ)
  | writeDrop (p : ℕ) (buf : List UInt8) (done : ℕ)
  | writeAsleep (p : ℕ) (buf : List UInt8) (done : ℕ)
  | writeCopy (p : ℕ) (buf : List UInt8) (done : ℕ)
  | writeAdvance (p : ℕ) (buf : List UInt8) (done n : ℕ)
  | writeUnlock (p : ℕ) (buf : List UInt8) (done : ℕ) (closed : Bool)
  | closeEnter (p : ℕ) (e : End)
  | closeFlag (p : ℕ) (e : End)
  | closeUnlock (p : ℕ) (e : End)
  | closeDrop (p : ℕ) (e : End)
  | ret (v : ℤ)

/-- The processes that wait, the pipe (`none` once it is destroyed), and where the thread goes. -/
abbrev Result := (ℕ → Bool) × Option Pipe × Pc

/-- A `uint64_t` read as `int64_t`. -/
def int64 (n : ℕ) : ℤ := (n : ℤ).bmod (2 ^ 64)

/-- The conditions of the loop of `fifo_read`. -/
def readTop (p n : ℕ) (got : List UInt8) (waiting : ℕ → Bool) (x : Pipe) : Result :=
  (waiting, some x,
    if (got.length : ℤ) < int64 n then
      if x.ring.bytes = 0 then if x.writerClosed then .readUnlock p got else .readQueue p n got
      else .readCopy p n got
    else .readUnlock p got)

/-- `to_copy` in `fifo_read`. -/
def readCount (n total bytes : ℕ) : ℕ := min ((n % 2 ^ 32 + 2 ^ 32 - total % 2 ^ 32) % 2 ^ 32) bytes

def readCopy (p n : ℕ) (got : List UInt8) (waiting : ℕ → Bool) (x : Pipe) : Result :=
  (waiting, some x, .readAdvance p n got (x.ring.copyOut fifoPipeSize (readCount n got.length x.ring.bytes)))

def readAdvance (p n : ℕ) (got chunk : List UInt8) (waiting : ℕ → Bool) (x : Pipe) : Result :=
  let wasFull := x.ring.bytes = fifoPipeSize
  let woken := if wasFull then waitQueueWakeAll x.writeWaiters waiting else (x.writeWaiters, waiting)
  (woken.2,
    some { x with
      ring := { x.ring with
        readPos := advance fifoPipeSize x.ring.readPos chunk.length
        bytes := x.ring.bytes - chunk.length }
      writeWaiters := woken.1
      taken := x.taken ++ chunk },
    .readTop p n (got ++ chunk))

def readQueue (t p n : ℕ) (got : List UInt8) (waiting : ℕ → Bool) (x : Pipe) : Result :=
  let r := waitQueueAdd t x.readWaiters waiting
  (r.2, some { x with readWaiters := r.1 }, .readDrop p n got)

/-- `remaining` in `fifo_write`. -/
def remaining (buf : List UInt8) (done : ℕ) : ℕ := buf.length % 2 ^ 32 - done

/-- The conditions of the loop of `fifo_write`. -/
def writeTop (p : ℕ) (buf : List UInt8) (done : ℕ) (waiting : ℕ → Bool) (x : Pipe) : Result :=
  (waiting, some x,
    if remaining buf done > 0 then
      if x.readerClosed then .writeUnlock p buf done true
      else if fifoPipeSize - x.ring.bytes = 0 then .writeQueue p buf done
      else .writeCopy p buf done
    else .writeUnlock p buf done false)

def writeCopy (p : ℕ) (buf : List UInt8) (done : ℕ) (waiting : ℕ → Bool) (x : Pipe) : Result :=
  let n := min (remaining buf done) (fifoPipeSize - x.ring.bytes)
  (waiting, some { x with ring := x.ring.copyIn fifoPipeSize ((buf.drop done).take n) }, .writeAdvance p buf done n)

def writeAdvance (p : ℕ) (buf : List UInt8) (done n : ℕ) (waiting : ℕ → Bool) (x : Pipe) : Result :=
  let wasEmpty := x.ring.bytes = 0
  let woken := if wasEmpty then waitQueueWakeAll x.readWaiters waiting else (x.readWaiters, waiting)
  (woken.2,
    some { x with
      ring := { x.ring with
        writePos := advance fifoPipeSize x.ring.writePos n
        bytes := x.ring.bytes + n }
      readWaiters := woken.1
      written := x.written ++ (buf.drop done).take n },
    .writeTop p buf (done + n))

def writeQueue (t p : ℕ) (buf : List UInt8) (done : ℕ) (waiting : ℕ → Bool) (x : Pipe) : Result :=
  let r := waitQueueAdd t x.writeWaiters waiting
  (r.2, some { x with writeWaiters := r.1 }, .writeDrop p buf done)

/-- What `fifo_write` returns. -/
def writeResult (done : ℕ) (closed : Bool) : ℤ := if closed then if done > 0 then done else -1 else done

/-- `fifo_close_reader` and `fifo_close_writer` under the lock. -/
def closeFlag (p : ℕ) (e : End) (waiting : ℕ → Bool) (x : Pipe) : Result :=
  match e with
  | .reader =>
    let r := waitQueueWakeAll x.writeWaiters waiting
    (r.2, some { x with readerClosed := true, writeWaiters := r.1 }, .closeUnlock p e)
  | .writer =>
    let r := waitQueueWakeAll x.readWaiters waiting
    (r.2, some { x with writerClosed := true, readWaiters := r.1 }, .closeUnlock p e)

/-- The last reference destroys the pipe. -/
def closeDrop (waiting : ℕ → Bool) (x : Pipe) : Result :=
  let refCount := (x.refCount + 2 ^ 32 - 1) % 2 ^ 32
  (waiting, if refCount = 0 then none else some { x with refCount := refCount }, .ret 0)

/-!
## The byte stream of a pipe

What a thread that holds the lock of a pipe may rely on at each place, and that it leaves the pipe in order: all bytes
ever written are those that were taken out, followed by the contents.
-/

open RingBuf

/-- A pipe in order. -/
structure Good (x : Pipe) : Prop where
  ring : x.ring.Ok fifoPipeSize
  stream : x.written = x.taken ++ x.ring.contents fifoPipeSize

/-- What holds at a place, for the thread that holds the lock there: its call has just moved the bytes that it says it
moved, and those that it copied, but did not count yet, are in the ring. -/
def At (x : Pipe) : Pc → Prop
  | .readTop _ _ got | .readQueue _ _ got | .readDrop _ _ got | .readCopy _ _ got | .readUnlock _ got => got <:+ x.taken
  | .readAdvance _ _ got chunk =>
    got <:+ x.taken ∧ chunk.length ≤ x.ring.bytes ∧
      chunk = cells fifoPipeSize x.ring.data x.ring.readPos chunk.length
  | .writeTop _ buf done | .writeQueue _ buf done | .writeDrop _ buf done | .writeCopy _ buf done |
    .writeUnlock _ buf done _ => buf.take done <:+ x.written
  | .writeAdvance _ buf done n =>
    buf.take done <:+ x.written ∧ x.ring.bytes + n ≤ fifoPipeSize ∧
      (buf.drop done).take n = cells fifoPipeSize x.ring.data x.ring.writePos n
  | _ => True

variable {x y : Pipe} {p n done t : ℕ} {got chunk buf : List UInt8} {w : ℕ → Bool} {c : Pc}

theorem good_create : Good fifoCreate := ⟨⟨Nat.zero_le _, Nat.zero_le _, Nat.zero_le _, rfl⟩, rfl⟩

theorem suffix_append (h : got <:+ buf) : got ++ chunk <:+ buf ++ chunk := by
  obtain ⟨pre, rfl⟩ := h
  exact ⟨pre, (List.append_assoc _ _ _).symm⟩

/-- Only the ring and the history count. -/
theorem At.congr (hsame : y.ring = x.ring ∧ y.written = x.written ∧ y.taken = x.taken) (h : At x c) : At y c := by
  obtain ⟨hring, hwritten, htaken⟩ := hsame
  cases c <;> simp only [At, hring, hwritten, htaken] at h ⊢ <;> exact h

/-- The result of an action leaves the pipe in order, and the thread at a place where it may be. -/
def Keeps (r : Result) : Prop := ∃ y, r.2.1 = some y ∧ Good y ∧ At y r.2.2

/-! ## `fifo_read` -/

theorem readTop_keeps (hgood : Good x) (hat : got <:+ x.taken) : Keeps (readTop p n got w x) := by
  refine ⟨x, rfl, hgood, ?_⟩
  unfold readTop
  generalize int64 n = count
  dsimp only
  by_cases hmore : (got.length : ℤ) < count
  · rw [if_pos hmore]
    by_cases hempty : x.ring.bytes = 0
    · rw [if_pos hempty]
      by_cases hclosed : x.writerClosed = true
      · rw [if_pos hclosed]
        exact hat
      · rw [if_neg hclosed]
        exact hat
    · rw [if_neg hempty]
      exact hat
  · rw [if_neg hmore]
    exact hat

theorem readQueue_keeps (hgood : Good x) (hat : got <:+ x.taken) : Keeps (readQueue t p n got w x) :=
  ⟨_, rfl, ⟨hgood.ring, hgood.stream⟩, hat⟩

theorem readCopy_keeps (hgood : Good x) (hat : got <:+ x.taken) : Keeps (readCopy p n got w x) := by
  have hle : readCount n got.length x.ring.bytes ≤ x.ring.bytes := Nat.min_le_right _ _
  have hchunk := Ring.copyOut_eq hgood.ring.readPos (hle.trans hgood.ring.bytes)
  refine ⟨x, rfl, hgood, hat, ?_, ?_⟩
  · rw [hchunk, length_cells]
    exact hle
  · rw [hchunk, length_cells]

/-- The bytes that were copied out leave the ring. -/
theorem readAdvance_keeps (hgood : Good x) (hat : At x (.readAdvance p n got chunk)) :
    Keeps (readAdvance p n got chunk w x) := by
  obtain ⟨hgot, hlen, hchunk⟩ := hat
  obtain ⟨⟨hread, hwrite, hbytes, hends⟩, hstream⟩ := hgood
  have hmod : advance fifoPipeSize x.ring.readPos chunk.length % fifoPipeSize = _ := advance_mod hread
  have hsplit : x.ring.bytes = chunk.length + (x.ring.bytes - chunk.length) := by omega
  refine ⟨_, rfl, ⟨⟨advance_le hread (hlen.trans hbytes), hwrite, (Nat.sub_le _ _).trans hbytes, ?_⟩, ?_⟩,
    suffix_append hgot⟩
  · refine hends.trans ?_
    dsimp only
    rw [add_mod_congr hmod, Nat.add_assoc, ← hsplit]
  · dsimp only [Ring.contents]
    rw [hstream, List.append_assoc, Ring.contents, cells_congr hmod]
    conv => lhs; rw [hsplit, cells_add, ← hchunk]

/-! ## `fifo_write` -/

theorem writeTop_keeps (hgood : Good x) (hat : buf.take done <:+ x.written) : Keeps (writeTop p buf done w x) := by
  refine ⟨x, rfl, hgood, ?_⟩
  unfold writeTop
  dsimp only
  by_cases hmore : remaining buf done > 0
  · rw [if_pos hmore]
    by_cases hclosed : x.readerClosed = true
    · rw [if_pos hclosed]
      exact hat
    · rw [if_neg hclosed]
      by_cases hfull : fifoPipeSize - x.ring.bytes = 0
      · rw [if_pos hfull]
        exact hat
      · rw [if_neg hfull]
        exact hat
  · rw [if_neg hmore]
    exact hat

theorem writeQueue_keeps (hgood : Good x) (hat : buf.take done <:+ x.written) : Keeps (writeQueue t p buf done w x) :=
  ⟨_, rfl, ⟨hgood.ring, hgood.stream⟩, hat⟩

/-- The bytes that are copied in stand behind the contents, which stay as they are. -/
theorem writeCopy_keeps (hgood : Good x) (hat : buf.take done <:+ x.written) : Keeps (writeCopy p buf done w x) := by
  obtain ⟨⟨hread, hwrite, hbytes, hends⟩, hstream⟩ := hgood
  obtain ⟨n, hn⟩ : ∃ n, n = min (remaining buf done) (fifoPipeSize - x.ring.bytes) := ⟨_, rfl⟩
  have hspace : n ≤ fifoPipeSize - x.ring.bytes := hn ▸ Nat.min_le_right _ _
  have hrem : n ≤ buf.length % 2 ^ 32 - done := hn ▸ Nat.min_le_left _ _
  have hlen : ((buf.drop done).take n).length = n := by
    rw [List.length_take, List.length_drop]
    omega
  obtain ⟨bs, hbs⟩ : ∃ bs, bs = (buf.drop done).take n := ⟨_, rfl⟩
  rw [← hbs] at hlen
  have hfit : x.ring.bytes + bs.length ≤ fifoPipeSize := by omega
  have hcopy : x.ring.copyIn fifoPipeSize bs =
      { x.ring with data := fill fifoPipeSize x.ring.data (x.ring.readPos + x.ring.bytes) bs } := by
    rw [Ring.copyIn_eq hwrite (by omega), fill_congr hends]
  unfold writeCopy
  dsimp only
  rw [← hn, ← hbs, hcopy]
  refine ⟨_, rfl, ⟨⟨hread, hwrite, hbytes, hends⟩, ?_⟩, hat, ?_, ?_⟩
  · dsimp only [Ring.contents]
    rw [hstream, Ring.contents, cells_fill_before hfit]
  · dsimp only
    omega
  · dsimp only
    rw [← hbs, cells_congr hends, ← hlen, cells_fill_new hfit]

/-- The bytes that were copied in become contents. -/
theorem writeAdvance_keeps (hgood : Good x) (hat : At x (.writeAdvance p buf done n)) :
    Keeps (writeAdvance p buf done n w x) := by
  obtain ⟨hdone, hfit, hchunk⟩ := hat
  obtain ⟨⟨hread, hwrite, hbytes, hends⟩, hstream⟩ := hgood
  have hmod : advance fifoPipeSize x.ring.writePos n % fifoPipeSize = _ := advance_mod hwrite
  refine ⟨_, rfl, ⟨⟨hread, advance_le hwrite (by omega), hfit, ?_⟩, ?_⟩, ?_⟩
  · refine hmod.trans ?_
    dsimp only
    rw [add_mod_congr hends, Nat.add_assoc]
  · dsimp only [Ring.contents]
    rw [hstream, Ring.contents, List.append_assoc, cells_add, hchunk, cells_congr hends]
  · unfold writeAdvance
    dsimp only [At]
    rw [List.take_add]
    exact suffix_append hdone

/-! ## Closing -/

theorem closeFlag_keeps (hgood : Good x) (e : End) : Keeps (closeFlag p e w x) := by
  cases e with
  | reader => exact ⟨_, rfl, ⟨hgood.ring, hgood.stream⟩, trivial⟩
  | writer => exact ⟨_, rfl, ⟨hgood.ring, hgood.stream⟩, trivial⟩

/-- Dropping a reference destroys the pipe or leaves its bytes as they are. -/
theorem closeDrop_same (h : (closeDrop w x).2.1 = some y) :
    y.ring = x.ring ∧ y.written = x.written ∧ y.taken = x.taken := by
  unfold closeDrop at h
  dsimp only at h
  by_cases hzero : (x.refCount + 2 ^ 32 - 1) % 2 ^ 32 = 0
  · rw [if_pos hzero] at h
    exact nomatch h
  · rw [if_neg hzero] at h
    obtain rfl := Option.some.inj h
    exact ⟨rfl, rfl, rfl⟩

end Fifo
