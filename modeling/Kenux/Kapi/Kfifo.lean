import Kenux.Fifo.Pipe
import Kenux.Lib.Run
import Mathlib.Data.Nat.Bitwise
import Mathlib.Data.Nat.Factorization.Basic

/-!
# Byte queues of the kernel API (`api/kapi_kfifo.c`)

The counters run freely in 32 bits, and a mask makes an offset of them. That is their remainder if the size is a power
of two; for no other size is the buffer a queue. `none` is an access outside the buffer.
-/

namespace Kfifo

open Fifo RingBuf Run

/-- `kapi_kfifo_t`; the counters are `in` and `out`. -/
structure KapiKfifo where
  buffer : ℕ → UInt8
  size : ℕ
  written : ℕ
  read : ℕ

/-- `memcpy` into the buffer. -/
def putIn (size : ℕ) (buffer : ℕ → UInt8) (i : ℕ) (bs : List UInt8) : Option (ℕ → UInt8) :=
  if i + bs.length ≤ size then some (memcpy buffer i bs) else none

/-- `memcpy` out of the buffer. -/
def takeFrom (size : ℕ) (buffer : ℕ → UInt8) (i n : ℕ) : Option (List UInt8) :=
  if i + n ≤ size then some (bytesAt buffer i n) else none

/-- `kapi_kfifo_init`, with the memory that is allocated. -/
def kapiKfifoInit (buffer : ℕ → UInt8) (size : ℕ) : Option KapiKfifo :=
  if size = 0 then none else some ⟨buffer, size, 0, 0⟩

def kapiKfifoLen (fifo : KapiKfifo) : ℕ := (2 ^ 32 + fifo.written - fifo.read) % 2 ^ 32

def kapiKfifoAvail (fifo : KapiKfifo) : ℕ := (2 ^ 32 + fifo.size - kapiKfifoLen fifo) % 2 ^ 32

def kapiKfifoIn (fifo : KapiKfifo) (buf : ℕ → UInt8) (len : ℕ) : Option (ℕ × KapiKfifo) :=
  let avail := kapiKfifoAvail fifo
  let l := if len > avail then avail else len
  let off := fifo.written &&& (fifo.size - 1)
  let copied :=
    if (off + l) % 2 ^ 32 > fifo.size then
      (putIn fifo.size fifo.buffer off (bytesAt buf 0 (fifo.size - off))).bind fun buffer =>
        putIn fifo.size buffer 0 (bytesAt buf (fifo.size - off) (l - (fifo.size - off)))
    else putIn fifo.size fifo.buffer off (bytesAt buf 0 l)
  copied.map fun buffer => (l, { fifo with buffer := buffer, written := (fifo.written + l) % 2 ^ 32 })

def kapiKfifoOut (fifo : KapiKfifo) (len : ℕ) : Option (List UInt8 × KapiKfifo) :=
  let used := kapiKfifoLen fifo
  let l := if len > used then used else len
  let off := fifo.read &&& (fifo.size - 1)
  let copied :=
    if (off + l) % 2 ^ 32 > fifo.size then
      (takeFrom fifo.size fifo.buffer off (fifo.size - off)).bind fun first =>
        (takeFrom fifo.size fifo.buffer 0 (l - (fifo.size - off))).map fun second => first ++ second
    else takeFrom fifo.size fifo.buffer off l
  copied.map fun bytes => (bytes, { fifo with read := (fifo.read + l) % 2 ^ 32 })

def kapiKfifoReset (fifo : KapiKfifo) : KapiKfifo := { fifo with written := 0, read := 0 }

/-! ## Calls -/

inductive Op where
  | put (buf : ℕ → UInt8) (len : UInt32)
  | take (len : UInt32)
  | reset

/-- The return value and the bytes of a call, and what is left by it. -/
def step (fifo : KapiKfifo) : Op → Option ((ℕ × List UInt8) × KapiKfifo)
  | .put buf len => (kapiKfifoIn fifo buf len.toNat).map fun r => ((r.1, []), r.2)
  | .take len => (kapiKfifoOut fifo len.toNat).map fun r => ((r.1.length, r.1), r.2)
  | .reset => some ((0, []), kapiKfifoReset fifo)

/-- The same of a queue for `size` bytes. -/
def queueStep (size : ℕ) (q : List UInt8) : Op → (ℕ × List UInt8) × List UInt8
  | .put buf len =>
    let n := min len.toNat (size - q.length)
    ((n, []), q ++ bytesAt buf 0 n)
  | .take len =>
    let n := min len.toNat q.length
    ((n, q.take n), q.drop n)
  | .reset => ((0, []), [])

/-- A fifo and a queue that get the same calls. -/
def pairStep (size : ℕ) (s : KapiKfifo × List UInt8) (op : Op) : Option (KapiKfifo × List UInt8) :=
  (step s.1 op).map fun r => (r.2, (queueStep size s.2 op).2)

/-- After all calls the next one stays in the buffer and gives what the queue gives. -/
def IsQueue (size : ℕ) : Prop :=
  ∀ buffer fifo, kapiKfifoInit buffer size = some fifo → ∀ s, Reach (pairStep size) (fun _ _ => True) (fifo, []) s →
    ∀ op, ∃ next, step s.1 op = some ((queueStep size s.2 op).1, next)

variable {size k n i : ℕ} {fifo : KapiKfifo} {buffer buf : ℕ → UInt8} {q bs : List UInt8}

/-! ## Powers of two -/

/-- The fifo holds the bytes of the queue, around the end. -/
structure Holds (k : ℕ) (fifo : KapiKfifo) (q : List UInt8) : Prop where
  size : fifo.size = 2 ^ k
  small : k < 32
  fits : q.length ≤ 2 ^ k
  read : fifo.read < 2 ^ 32
  written : fifo.written = (fifo.read + q.length) % 2 ^ 32
  bytes : cells (2 ^ k) fifo.buffer fifo.read q.length = q

theorem length_bytesAt : (bytesAt buf i n).length = n := by
  unfold bytesAt
  rw [List.length_map, List.length_range]

theorem bytesAt_append {m : ℕ} : bytesAt buf 0 m ++ bytesAt buf m n = bytesAt buf 0 (m + n) := by
  unfold bytesAt
  rw [List.range_add, List.map_append, List.map_map]
  congr 1
  apply List.map_congr_left
  intro i _
  rw [Function.comp_apply, Nat.zero_add]

theorem Holds.size_le (h : Holds k fifo q) : 2 ^ k ≤ 2 ^ 31 :=
  Nat.pow_le_pow_right (by decide) (Nat.le_of_lt_succ h.small)

theorem mod_mod_size (h : k < 32) (n : ℕ) : n % 2 ^ 32 % 2 ^ k = n % 2 ^ k :=
  Nat.mod_mod_of_dvd n (Nat.pow_dvd_pow 2 h.le)

theorem Holds.len (h : Holds k fifo q) : kapiKfifoLen fifo = q.length := by
  have hsize := h.size_le
  have hfits := h.fits
  have hread := h.read
  unfold kapiKfifoLen
  rw [h.written]
  omega

theorem Holds.avail (h : Holds k fifo q) : kapiKfifoAvail fifo = 2 ^ k - q.length := by
  have hsize := h.size_le
  have hfits := h.fits
  unfold kapiKfifoAvail
  rw [h.len, h.size]
  omega

/-- The two pieces of a write fill the next cells. -/
theorem putIn_pieces (buffer buf : ℕ → UInt8) {off l : ℕ} (hoff : off < size) (hl : l ≤ size) (hsize : size ≤ 2 ^ 31) :
    (if (off + l) % 2 ^ 32 > size then
      (putIn size buffer off (bytesAt buf 0 (size - off))).bind fun buffer =>
        putIn size buffer 0 (bytesAt buf (size - off) (l - (size - off)))
    else putIn size buffer off (bytesAt buf 0 l)) = some (fill size buffer off (bytesAt buf 0 l)) := by
  have hsum : (off + l) % 2 ^ 32 = off + l := Nat.mod_eq_of_lt (by omega)
  rw [hsum]
  unfold putIn
  simp only [length_bytesAt]
  by_cases hround : off + l > size
  · have hfirst : off + (bytesAt buf 0 (size - off)).length ≤ size := by
      rw [length_bytesAt]
      omega
    have hsecond : 0 + (bytesAt buf (size - off) (l - (size - off))).length ≤ size := by
      rw [length_bytesAt]
      omega
    have hall : bytesAt buf 0 l = bytesAt buf 0 (size - off) ++ bytesAt buf (size - off) (l - (size - off)) := by
      rw [bytesAt_append, Nat.add_sub_cancel' (by omega)]
    have hend : (off + (bytesAt buf 0 (size - off)).length) % size = 0 % size := by
      rw [length_bytesAt, Nat.add_sub_cancel' (by omega), Nat.mod_self, Nat.zero_mod]
    rw [if_pos hround, if_pos (by omega), Option.bind_some, if_pos (by omega), memcpy_eq_fill size hfirst,
      memcpy_eq_fill size hsecond, hall, fill_append, fill_congr hend]
  · have hin : off + (bytesAt buf 0 l).length ≤ size := by
      rw [length_bytesAt]
      omega
    rw [if_neg hround, if_pos (by omega), memcpy_eq_fill size hin]

/-- The two pieces of a read are the next cells. -/
theorem takeFrom_pieces (buffer : ℕ → UInt8) {off l : ℕ} (hoff : off < size) (hl : l ≤ size) (hsize : size ≤ 2 ^ 31) :
    (if (off + l) % 2 ^ 32 > size then
      (takeFrom size buffer off (size - off)).bind fun first =>
        (takeFrom size buffer 0 (l - (size - off))).map fun second => first ++ second
    else takeFrom size buffer off l) = some (cells size buffer off l) := by
  have hsum : (off + l) % 2 ^ 32 = off + l := Nat.mod_eq_of_lt (by omega)
  rw [hsum]
  unfold takeFrom
  by_cases hround : off + l > size
  · have hall : l = size - off + (l - (size - off)) := by omega
    have hend : (off + (size - off)) % size = 0 % size := by
      rw [Nat.add_sub_cancel' (by omega), Nat.mod_self, Nat.zero_mod]
    rw [if_pos hround, if_pos (by omega), Option.bind_some, if_pos (by omega), Option.map_some,
      bytesAt_eq_cells size (by omega), bytesAt_eq_cells size (by omega)]
    conv => rhs; rw [hall, cells_add, cells_congr hend]
  · rw [if_neg hround, if_pos (by omega), bytesAt_eq_cells size (by omega)]

theorem Holds.put (h : Holds k fifo q) (buf : ℕ → UInt8) (len : UInt32) : ∃ next,
    step fifo (.put buf len) = some ((queueStep (2 ^ k) q (.put buf len)).1, next) ∧
      Holds k next (queueStep (2 ^ k) q (.put buf len)).2 := by
  have hpos : 0 < 2 ^ k := Nat.two_pow_pos k
  have hfits := h.fits
  have hmin : (if len.toNat > 2 ^ k - q.length then 2 ^ k - q.length else len.toNat) =
      min len.toNat (2 ^ k - q.length) := by
    split_ifs <;> omega
  have hoff : fifo.written &&& (2 ^ k - 1) = fifo.written % 2 ^ k := Nat.and_two_pow_sub_one_eq_mod _ k
  have hplace : fifo.written % 2 ^ k = (fifo.read + q.length) % 2 ^ k := by rw [h.written, mod_mod_size h.small]
  unfold queueStep
  dsimp only
  generalize hl : min len.toNat (2 ^ k - q.length) = l at hmin
  have hroom : q.length + l ≤ 2 ^ k := by omega
  have hcopied := putIn_pieces fifo.buffer buf (Nat.mod_lt fifo.written hpos) (show l ≤ 2 ^ k by omega) h.size_le
  have hrun : step fifo (.put buf len) = some ((l, []), { fifo with
      buffer := fill (2 ^ k) fifo.buffer (fifo.written % 2 ^ k) (bytesAt buf 0 l)
      written := (fifo.written + l) % 2 ^ 32 }) := by
    unfold step kapiKfifoIn
    dsimp only
    rw [h.avail, h.size, hmin, hoff, hcopied]
    rfl
  refine ⟨_, hrun, h.size, h.small, ?_, h.read, ?_, ?_⟩
  · rw [List.length_append, length_bytesAt]
    exact hroom
  · rw [List.length_append, length_bytesAt]
    show (fifo.written + l) % 2 ^ 32 = (fifo.read + (q.length + l)) % 2 ^ 32
    rw [h.written]
    omega
  · have hdata : q.length + (bytesAt buf 0 l).length ≤ 2 ^ k := by
      rw [length_bytesAt]
      exact hroom
    have hcells : cells (2 ^ k) (fill (2 ^ k) fifo.buffer (fifo.read + q.length) (bytesAt buf 0 l)) fifo.read
        (q.length + (bytesAt buf 0 l).length) = cells (2 ^ k) fifo.buffer fifo.read q.length ++ bytesAt buf 0 l :=
      cells_fill hdata
    have hcongr : fill (2 ^ k) fifo.buffer (fifo.written % 2 ^ k) (bytesAt buf 0 l) =
        fill (2 ^ k) fifo.buffer (fifo.read + q.length) (bytesAt buf 0 l) := by
      apply fill_congr
      rw [Nat.mod_mod, hplace]
    rw [h.bytes] at hcells
    rw [List.length_append]
    dsimp only
    rw [hcongr]
    exact hcells

theorem Holds.take (h : Holds k fifo q) (len : UInt32) : ∃ next,
    step fifo (.take len) = some ((queueStep (2 ^ k) q (.take len)).1, next) ∧
      Holds k next (queueStep (2 ^ k) q (.take len)).2 := by
  have hpos : 0 < 2 ^ k := Nat.two_pow_pos k
  have hfits := h.fits
  have hmin : (if len.toNat > q.length then q.length else len.toNat) = min len.toNat q.length := by
    split_ifs <;> omega
  have hoff : fifo.read &&& (2 ^ k - 1) = fifo.read % 2 ^ k := Nat.and_two_pow_sub_one_eq_mod _ k
  unfold queueStep
  dsimp only
  generalize hl : min len.toNat q.length = l at hmin
  have hlen : l ≤ q.length := by omega
  have hcopied := takeFrom_pieces fifo.buffer (Nat.mod_lt fifo.read hpos) (show l ≤ 2 ^ k by omega) h.size_le
  have hbytes : cells (2 ^ k) fifo.buffer (fifo.read % 2 ^ k) l = q.take l := by
    rw [cells_congr (Nat.mod_mod fifo.read (2 ^ k)), ← take_cells hlen, h.bytes]
  have hlength : (q.take l).length = l := by
    rw [List.length_take]
    omega
  have hrun : step fifo (.take len) = some ((l, q.take l), { fifo with read := (fifo.read + l) % 2 ^ 32 }) := by
    unfold step kapiKfifoOut
    dsimp only
    rw [h.len, h.size, hmin, hoff, hcopied, hbytes, Option.map_some, Option.map_some, hlength]
  refine ⟨_, hrun, h.size, h.small, ?_, Nat.mod_lt _ (by decide), ?_, ?_⟩
  · rw [List.length_drop]
    omega
  · rw [List.length_drop]
    show fifo.written = ((fifo.read + l) % 2 ^ 32 + (q.length - l)) % 2 ^ 32
    rw [h.written]
    omega
  · have hstart : (fifo.read + l) % 2 ^ 32 % 2 ^ k = (fifo.read + l) % 2 ^ k := mod_mod_size h.small _
    rw [List.length_drop]
    dsimp only
    rw [cells_congr hstart, ← drop_cells hlen, h.bytes]

/-- Every call keeps the fifo a queue. -/
theorem Holds.step (h : Holds k fifo q) (op : Op) : ∃ next,
    step fifo op = some ((queueStep (2 ^ k) q op).1, next) ∧ Holds k next (queueStep (2 ^ k) q op).2 := by
  cases op with
  | put buf len => exact h.put buf len
  | take len => exact h.take len
  | reset => exact ⟨kapiKfifoReset fifo, rfl, h.size, h.small, Nat.zero_le _, Nat.two_pow_pos 32, rfl, rfl⟩

theorem isQueue_two_pow (hk : k < 32) : IsQueue (2 ^ k) := by
  intro buffer fifo hinit s hreach op
  have hstart : Holds k fifo [] := by
    unfold kapiKfifoInit at hinit
    split_ifs at hinit with hzero
    obtain rfl := Option.some.inj hinit
    exact ⟨rfl, hk, Nat.zero_le _, Nat.two_pow_pos 32, rfl, rfl⟩
  have hholds : Holds k s.1 s.2 := by
    refine hreach.invariant (I := fun s => Holds k s.1 s.2) hstart ?_
    rintro ⟨fifo, q⟩ op t h - hst
    obtain ⟨next, hrun, hnext⟩ := Holds.step h op
    unfold pairStep at hst
    rw [hrun] at hst
    obtain rfl := Option.some.inj hst
    exact hnext
  obtain ⟨next, hrun, -⟩ := hholds.step op
  exact ⟨next, hrun⟩

/-! ## Other sizes -/

/-- A size that is no power of two is greater than a power of two that its mask does not see. -/
theorem exists_unseen (hpos : 0 < size) (hsize : ∀ k, size ≠ 2 ^ k) : ∃ k, 2 ^ k < size ∧ 2 ^ k &&& (size - 1) = 0 := by
  obtain ⟨k, m, ⟨j, rfl⟩, rfl⟩ := Nat.exists_eq_two_pow_mul_odd (Nat.ne_of_gt hpos)
  have hk : 0 < 2 ^ k := Nat.two_pow_pos k
  have hj : 0 < j := by
    refine Nat.pos_of_ne_zero ?_
    rintro rfl
    exact hsize k (by rw [Nat.mul_zero, Nat.zero_add, Nat.mul_one])
  have hmul : 2 ^ k * (2 * j + 1) = 2 ^ k * (2 * j) + 2 ^ k := Nat.mul_succ _ _
  have hless : 2 ^ k * 1 ≤ 2 ^ k * (2 * j) := Nat.mul_le_mul_left _ (by omega)
  refine ⟨k, by omega, ?_⟩
  have hmask : 2 ^ k * (2 * j + 1) - 1 = 2 ^ k * (2 * j) + (2 ^ k - 1) := by omega
  rw [hmask, Nat.two_pow_and, Nat.testBit_two_pow_mul_add _ (by omega), if_neg (Nat.lt_irrefl k), Nat.sub_self,
    Nat.testBit_zero, Nat.mul_mod_right]
  rfl

/-- Puts one byte. -/
def putOne (b : UInt8) : Op := .put (fun _ => b) 1

theorem putOne_step (b : UInt8) (hn : n < size) (hsize : size < 2 ^ 32) (hq : q.length = n) :
    pairStep size (⟨buffer, size, n, 0⟩, q) (putOne b) =
      some (⟨memcpy buffer (n &&& (size - 1)) [b], size, n + 1, 0⟩, q ++ [b]) := by
  have havail : kapiKfifoAvail ⟨buffer, size, n, 0⟩ = size - n := by
    unfold kapiKfifoAvail kapiKfifoLen
    dsimp only
    omega
  have hoff : n &&& (size - 1) < size := by
    have := Nat.and_le_left (n := n) (m := size - 1)
    omega
  have hlen : (if (1 : ℕ) > size - n then size - n else 1) = 1 := if_neg (by omega)
  have hfits : ¬((n &&& (size - 1)) + 1) % 2 ^ 32 > size := by
    rw [Nat.mod_eq_of_lt (by omega)]
    omega
  have hcopied : putIn size buffer (n &&& (size - 1)) (bytesAt (fun _ => b) 0 1) =
      some (memcpy buffer (n &&& (size - 1)) [b]) := if_pos (by rw [length_bytesAt]; omega)
  have hone : (1 : UInt32).toNat = 1 := rfl
  have hmin : min 1 (size - n) = 1 := by omega
  unfold pairStep step queueStep putOne kapiKfifoIn
  dsimp only
  rw [hone, havail, hlen, if_neg hfits, hcopied, hq, hmin, Nat.mod_eq_of_lt (by omega)]
  rfl

/-- As many bytes as fit can be put one by one. -/
theorem puts_reach (hsize : size < 2 ^ 32) (hn : n < size) (buffer : ℕ → UInt8) :
    ∃ buffer', Reach (pairStep size) (fun _ _ => True) (⟨buffer, size, 0, 0⟩, [])
      (⟨buffer', size, n + 1, 0⟩, 1 :: List.replicate n 0) := by
  induction n with
  | zero => exact ⟨_, .step (putOne 1) .start trivial (putOne_step 1 hn hsize rfl)⟩
  | succ n ih =>
    obtain ⟨buffer', hreach⟩ := ih (by omega)
    have hlength : (1 :: List.replicate n (0 : UInt8)).length = n + 1 := by
      rw [List.length_cons, List.length_replicate]
    have hq : 1 :: List.replicate (n + 1) (0 : UInt8) = (1 :: List.replicate n 0) ++ [0] := by
      rw [List.cons_append, ← List.replicate_succ']
    rw [hq]
    exact ⟨_, .step (putOne 0) hreach trivial (putOne_step 0 hn hsize hlength)⟩

/-- The byte of another place is given instead of the first one. -/
theorem not_isQueue (hpos : 0 < size) (hsize : size < 2 ^ 32) (hk : 2 ^ k < size) (hunseen : 2 ^ k &&& (size - 1) = 0) :
    ¬IsQueue size := by
  intro h
  have hinit : kapiKfifoInit (fun _ => 0) size = some ⟨fun _ => 0, size, 0, 0⟩ := if_neg (by omega)
  obtain ⟨j, hj⟩ := Nat.exists_eq_succ_of_ne_zero (Nat.ne_of_gt (Nat.two_pow_pos k))
  obtain ⟨buffer, hreach⟩ := puts_reach hsize (show j < size by omega) fun _ => 0
  have hlength : (1 :: List.replicate j (0 : UInt8)).length = 2 ^ k := by
    rw [List.length_cons, List.length_replicate, hj]
  rw [← Nat.succ_eq_add_one, ← hj] at hreach
  have hlast : pairStep size (⟨buffer, size, 2 ^ k, 0⟩, 1 :: List.replicate j 0) (putOne 0) = _ :=
    putOne_step 0 hk hsize hlength
  obtain ⟨next, htake⟩ := h _ _ hinit _ (.step (putOne 0) hreach trivial hlast) (.take 1)
  rw [hunseen] at htake
  have hused : kapiKfifoLen ⟨memcpy buffer 0 [0], size, 2 ^ k + 1, 0⟩ = 2 ^ k + 1 := by
    unfold kapiKfifoLen
    dsimp only
    omega
  have hlen : (if (1 : ℕ) > 2 ^ k + 1 then 2 ^ k + 1 else 1) = 1 := if_neg (by omega)
  have hfits : ¬(0 + 1) % 2 ^ 32 > size := by
    rw [Nat.mod_eq_of_lt (by omega)]
    omega
  have hbyte : takeFrom size (memcpy buffer 0 [0]) 0 1 = some [0] := if_pos (by omega)
  have hone : (1 : UInt32).toNat = 1 := rfl
  unfold step queueStep kapiKfifoOut at htake
  dsimp only at htake
  rw [hone, hused, hlen, Nat.zero_and, if_neg hfits, hbyte] at htake
  have hbytes : [0] = (1 :: List.replicate j (0 : UInt8) ++ [0]).take
      (min 1 (1 :: List.replicate j (0 : UInt8) ++ [0]).length) :=
    congrArg (fun r => r.1.2) (Option.some.inj htake)
  rw [List.cons_append, List.length_cons, Nat.min_eq_left (by omega), List.take_succ_cons] at hbytes
  cases hbytes

/-- The buffer is a queue exactly if its size is a power of two. -/
theorem isQueue_iff (size : ℕ) (hpos : 0 < size) (hsize : size < 2 ^ 32) : IsQueue size ↔ ∃ k, size = 2 ^ k := by
  constructor
  · intro h
    by_contra hno
    obtain ⟨k, hk, hunseen⟩ := exists_unseen hpos fun k hk => hno ⟨k, hk⟩
    exact not_isQueue hpos hsize hk hunseen h
  · rintro ⟨k, rfl⟩
    exact isQueue_two_pow ((Nat.pow_lt_pow_iff_right (by decide)).mp hsize)

theorem isQueue_eight : IsQueue 8 := (isQueue_iff 8 (by decide) (by decide)).mpr ⟨3, rfl⟩

theorem isQueue_three_fails : ¬∀ size, 0 < size → size < 2 ^ 32 → IsQueue size :=
  fun h => not_isQueue (k := 0) (by decide) (by decide) (by decide) (by decide) (h 3 (by decide) (by decide))

end Kfifo
