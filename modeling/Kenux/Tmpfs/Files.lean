import Kenux.Lib.Run
import Kenux.Lib.Word

/-!
# Files of the temporary file system (`arch/x86_64/tmpfs.c`)

The node repeats the size and is left out. The loop that doubles a capacity has fuel; `none` is a call that does not
return within it.
-/

namespace Tmpfs

open Memory

def tmpfsBlockSize : UInt64 := 4096

/-- `tmpfs_data_t`; a buffer that was never allocated is `none`. -/
structure File where
  data : Option Mem := none
  size : UInt64 := 0
  capacity : UInt64 := 0

/-- Bytes of a buffer of some capacity that a call reads or writes. -/
structure Access where
  start : ℕ
  len : ℕ
  capacity : ℕ

/-- What a call leaves, returns and gives to a reader, and which bytes of the buffers it touches. -/
structure Result where
  file : File
  ret : Int32
  bytes : List UInt8 := []
  touched : List Access := []

def memcpy (dst : Mem) (o : ℕ) (src : Mem) (n : ℕ) : Mem :=
  fun i => if o ≤ i ∧ i < o + n then src (i - o) else dst i

def tmpfsRead (d : File) (offset size : UInt64) : Result :=
  match d.data with
  | none => { file := d, ret := 0 }
  | some data =>
    if offset ≥ d.size then { file := d, ret := 0 }
    else
      let size := if offset + size > d.size then d.size - offset else size
      { file := d
        ret := Int32.ofNat size.toNat
        bytes := (List.range size.toNat).map fun i => data (offset.toNat + i)
        touched := [⟨offset.toNat, size.toNat, d.capacity.toNat⟩] }

/-- The loop that doubles the capacity. -/
def grow (need : UInt64) : ℕ → UInt64 → Option UInt64
  | 0, _ => none
  | fuel + 1, newCap => if newCap < need then grow need fuel (newCap * 2) else some newCap

/-- The part of `tmpfs_write` that makes room; `fresh` is the new buffer with whatever it holds, and the inner `none`
is a failed allocation. -/
def reserve (fuel : ℕ) (d : File) (need : UInt64) (fresh : Option Mem) : Option (Option (File × List Access)) :=
  if need > d.capacity then do
    let newCap ← grow need fuel (if d.capacity ≠ 0 then d.capacity * 2 else tmpfsBlockSize)
    match fresh with
    | none => pure none
    | some newData =>
      match d.data with
      | none => pure (some ({ d with data := some newData, capacity := newCap }, []))
      | some data =>
        pure (some ({ d with data := some (memcpy newData 0 data d.size.toNat), capacity := newCap },
          [⟨0, d.size.toNat, d.capacity.toNat⟩, ⟨0, d.size.toNat, newCap.toNat⟩]))
  else pure (some (d, []))

def tmpfsWrite (fuel : ℕ) (d : File) (offset : UInt64) (buf : Mem) (size : UInt64) (fresh : Option Mem) :
    Option Result := do
  let need := offset + size
  match ← reserve fuel d need fresh with
  | none => pure { file := d, ret := -1 }
  | some (d, touched) =>
    let data := d.data.map fun data => memcpy data offset.toNat buf size.toNat
    pure {
      file := { d with data := data, size := if need > d.size then need else d.size }
      ret := Int32.ofNat size.toNat
      touched := touched ++ [⟨offset.toNat, size.toNat, d.capacity.toNat⟩] }

/-! ## The byte array -/

/-- What a file stands for. -/
structure Content where
  bytes : ℕ → UInt8
  size : ℕ

/-- The bytes behind the old end are zeros. -/
def Content.write (c : Content) (offset : ℕ) (buf : Mem) (size : ℕ) : Content :=
  ⟨memcpy (fun i => if i < c.size then c.bytes i else 0) offset buf size, max c.size (offset + size)⟩

def Content.count (c : Content) (offset size : ℕ) : ℕ := min size (c.size - offset)

def Content.read (c : Content) (offset size : ℕ) : List UInt8 :=
  (List.range (c.count offset size)).map fun i => c.bytes (offset + i)

structure Represents (d : File) (c : Content) : Prop where
  size : d.size.toNat = c.size
  bytes : ∀ i < c.size, ∃ data ∈ d.data, data i = c.bytes i

/-! ## Runs -/

inductive Call where
  | read (offset size : UInt64)
  | write (offset : UInt64) (buf : Mem) (size : UInt64) (fresh : Option Mem)

def call (fuel : ℕ) (d : File) : Call → Option Result
  | .read offset size => some (tmpfsRead d offset size)
  | .write offset buf size fresh => tmpfsWrite fuel d offset buf size fresh

structure Traced where
  file : File := {}
  content : Content := ⟨fun _ => 0, 0⟩

/-- A call that fails changes nothing. -/
def Content.after (c : Content) (r : Result) : Call → Content
  | .read _ _ => c
  | .write offset buf size _ => if r.ret < 0 then c else c.write offset.toNat buf size.toNat

def step (fuel : ℕ) (t : Traced) (input : Call) : Option Traced :=
  (call fuel t.file input).map fun r => ⟨r.file, t.content.after r input⟩

/-- A call stays inside the buffers and does what it would do to the byte array, or fails and does nothing. -/
def ResultOk (d : File) (c : Content) (r : Result) (input : Call) : Prop :=
  (∀ a ∈ r.touched, a.start + a.len ≤ a.capacity) ∧
    match input with
    | .read offset size => r.file = d ∧ r.ret.toInt = c.count offset.toNat size.toNat ∧
        r.bytes = c.read offset.toNat size.toNat
    | .write offset buf size _ => r.ret = -1 ∧ r.file = d ∨
        r.ret.toInt = size.toNat ∧ Represents r.file (c.write offset.toNat buf size.toNat)

/-- The buffer that a write goes to. -/
def target (d : File) (need : ℕ) (fresh : Option Mem) : Option Mem := if d.capacity.toNat < need then fresh else d.data

/-- The end of a read does not overflow, nor does what is there overflow an `int`; a write ends at 2^63 at most, and
unless the allocation fails an `int` holds its size, and the buffer has zeros where it leaves a gap. -/
def CallOk (d : File) : Call → Prop
  | .read offset size => d.size.toNat ≤ offset.toNat ∨ offset.toNat + size.toNat < 2 ^ 64 ∧
      min size.toNat (d.size.toNat - offset.toNat) < 2 ^ 31
  | .write offset _ size fresh => offset.toNat + size.toNat ≤ 2 ^ 63 ∧
      (d.capacity.toNat < offset.toNat + size.toNat ∧ fresh = none ∨ size.toNat < 2 ^ 31 ∧
        ∀ data ∈ target d (offset.toNat + size.toNat) fresh, ∀ i, d.size.toNat ≤ i → i < offset.toNat → data i = 0)

/-!
## Reads and writes

A capacity is a block doubled some times, so doubling it comes to 2^63 at last and never gets past that.
-/

variable {d : File} {c : Content} {fuel : ℕ} {offset size need : UInt64} {buf : Mem} {fresh : Option Mem}

section Capacities

/-- A block doubled at most 51 times. -/
def Doubled (cap : UInt64) : Prop := ∃ k ≤ 51, cap.toNat = 4096 * 2 ^ k

theorem toNat_twice {cap : UInt64} (hlt : cap.toNat < 2 ^ 63) : (cap * 2).toNat = cap.toNat * 2 := by
  have htwo : (2 : UInt64).toNat = 2 := rfl
  rw [UInt64.toNat_mul, htwo, Nat.mod_eq_of_lt (by omega)]

/-- Below the largest capacity there is room to double once more. -/
theorem Doubled.twice {cap : UInt64} {k : ℕ} (hk : k ≤ 51) (hcap : cap.toNat = 4096 * 2 ^ k)
    (hlt : cap.toNat < 2 ^ 63) : k + 1 ≤ 51 ∧ (cap * 2).toNat = 4096 * 2 ^ (k + 1) := by
  have hk' : k < 51 := by
    refine Nat.lt_of_le_of_ne hk fun heq => ?_
    rw [hcap, heq] at hlt
    exact absurd hlt (by decide)
  exact ⟨hk', by rw [toNat_twice hlt, hcap, Nat.pow_succ, Nat.mul_assoc]⟩

/-- The rounds that are left are enough to come to the largest capacity. -/
theorem grow_spec {cap : UInt64} {k : ℕ} (hk : k ≤ 51) (hcap : cap.toNat = 4096 * 2 ^ k)
    (hneed : need.toNat ≤ 2 ^ 63) (hfuel : 51 < fuel + k) :
    ∃ newCap, grow need fuel cap = some newCap ∧ Doubled newCap ∧ need.toNat ≤ newCap.toNat := by
  induction fuel generalizing cap k with
  | zero => omega
  | succ fuel ih =>
    unfold grow
    split_ifs with hlt
    · have hlt := UInt64.lt_iff_toNat_lt.mp hlt
      obtain ⟨hk', hcap'⟩ := Doubled.twice hk hcap (by omega)
      exact ih hk' hcap' (by omega)
    · exact ⟨cap, rfl, ⟨k, hk, hcap⟩, UInt64.le_iff_toNat_le.mp (UInt64.not_lt.mp hlt)⟩

end Capacities

section Calls

/-- The file stands for the byte array, and its buffer is as large as its capacity says. -/
structure Inv (d : File) (c : Content) : Prop where
  represents : Represents d c
  fits : d.size.toNat ≤ d.capacity.toNat
  allocated : d.data = none ∧ d.capacity = 0 ∨ d.data.isSome ∧ Doubled d.capacity

theorem read_ok (h : Inv d c) (hok : CallOk d (.read offset size)) :
    ResultOk d c (tmpfsRead d offset size) (.read offset size) := by
  have hsize := h.represents.size
  have hnothing : d.size.toNat ≤ offset.toNat → ∀ r, r = (⟨d, 0, [], []⟩ : Result) →
      ResultOk d c r (.read offset size) := by
    rintro hbehind r rfl
    have hcount : c.count offset.toNat size.toNat = 0 := by
      unfold Content.count
      omega
    refine ⟨fun a ha => absurd ha List.not_mem_nil, rfl, ?_, ?_⟩
    · rw [hcount]
      rfl
    · unfold Content.read
      rw [hcount]
      rfl
  unfold tmpfsRead
  cases hdata : d.data with
  | none =>
    refine hnothing ?_ _ rfl
    have hzero : d.capacity = 0 := by
      rcases h.allocated with ⟨-, hzero⟩ | ⟨hsome, -⟩
      · exact hzero
      · rw [hdata] at hsome
        cases hsome
    have hfits := h.fits
    rw [hzero, UInt64.toNat_zero] at hfits
    omega
  | some data =>
    dsimp only
    by_cases hge : offset ≥ d.size
    · rw [if_pos hge]
      exact hnothing (UInt64.le_iff_toNat_le.mp hge) _ rfl
    · rw [if_neg hge]
      have hlt : offset.toNat < d.size.toNat := UInt64.lt_iff_toNat_lt.mp (UInt64.not_le.mp hge)
      obtain ⟨hover, hint⟩ := hok.resolve_left (Nat.not_le.mpr hlt)
      have hclip : (if offset + size > d.size then d.size - offset else size).toNat =
          c.count offset.toNat size.toNat := by
        have hadd : (offset + size).toNat = offset.toNat + size.toNat := by
          rw [UInt64.toNat_add, Nat.mod_eq_of_lt hover]
        unfold Content.count
        split_ifs with hgt
        · have hgt := UInt64.lt_iff_toNat_lt.mp hgt
          rw [UInt64.toNat_sub_of_le _ _ (UInt64.le_of_lt (UInt64.not_le.mp hge))]
          omega
        · have hle := UInt64.le_iff_toNat_le.mp (UInt64.not_lt.mp hgt)
          omega
      have hcount : c.count offset.toNat size.toNat < 2 ^ 31 := by
        unfold Content.count
        rwa [← hsize]
      refine ⟨?_, rfl, ?_, ?_⟩
      · rintro a ha
        rw [List.mem_singleton.mp ha]
        dsimp only
        rw [hclip]
        have hfits := h.fits
        unfold Content.count
        omega
      · dsimp only
        rw [hclip]
        exact Word.toInt_ofNat hcount
      · dsimp only
        rw [hclip]
        unfold Content.read
        refine List.map_congr_left fun i hi => ?_
        have hi := List.mem_range.mp hi
        unfold Content.count at hi
        obtain ⟨data', hdata', hbyte⟩ := h.represents.bytes (offset.toNat + i) (by omega)
        rw [hdata] at hdata'
        obtain rfl := Option.mem_some_iff.mp hdata'
        exact hbyte

/-- The loop of a write that needs more than there is. -/
theorem Inv.grow (hfuel : 64 ≤ fuel) (h : Inv d c) (hneed : need.toNat ≤ 2 ^ 63)
    (hlt : d.capacity.toNat < need.toNat) :
    ∃ newCap, Tmpfs.grow need fuel (if d.capacity ≠ 0 then d.capacity * 2 else tmpfsBlockSize) = some newCap ∧
      Doubled newCap ∧ need.toNat ≤ newCap.toNat := by
  rcases h.allocated with ⟨-, hzero⟩ | ⟨-, k, hk, hcap⟩
  · rw [if_neg (not_not.mpr hzero)]
    exact grow_spec (Nat.zero_le 51) rfl hneed (by omega)
  · have hne : d.capacity ≠ 0 := by
      intro hzero
      rw [hzero, UInt64.toNat_zero] at hcap
      exact absurd hcap (Nat.mul_pos (by decide) (Nat.two_pow_pos k)).ne
    obtain ⟨hk', hcap'⟩ := Doubled.twice hk hcap (by omega)
    rw [if_pos hne]
    exact grow_spec hk' hcap' hneed (by omega)

theorem reserve_fails (hfuel : 64 ≤ fuel) (h : Inv d c) (hneed : need.toNat ≤ 2 ^ 63)
    (hlt : d.capacity.toNat < need.toNat) : reserve fuel d need none = some none := by
  obtain ⟨newCap, hgrow, -⟩ := h.grow hfuel hneed hlt
  unfold reserve
  rw [if_pos (UInt64.lt_iff_toNat_lt.mpr hlt), hgrow]
  rfl

/-- Room is made with what the file holds in front and what the new buffer held behind it. -/
theorem reserve_room (hfuel : 64 ≤ fuel) (h : Inv d c) (hneed : need.toNat ≤ 2 ^ 63)
    (hroom : ¬(d.capacity.toNat < need.toNat ∧ fresh = none)) :
    ∃ d' touched, reserve fuel d need fresh = some (some (d', touched)) ∧ Inv d' c ∧
      need.toNat ≤ d'.capacity.toNat ∧ (∀ a ∈ touched, a.start + a.len ≤ a.capacity) ∧
        ∀ data ∈ d'.data, ∀ i, d.size.toNat ≤ i → ∃ m ∈ target d need.toNat fresh, data i = m i := by
  have hsize := h.represents.size
  have hfits := h.fits
  unfold target
  by_cases hlt : d.capacity.toNat < need.toNat
  · obtain ⟨newData, rfl⟩ := Option.ne_none_iff_exists'.mp fun hnone => hroom ⟨hlt, hnone⟩
    obtain ⟨newCap, hgrow, hdoubled, hle⟩ := h.grow hfuel hneed hlt
    have hinv : ∀ data, (∀ i < c.size, data i = c.bytes i) →
        Inv { d with data := some data, capacity := newCap } c := fun data hbytes =>
      ⟨⟨hsize, fun i hi => ⟨data, rfl, hbytes i hi⟩⟩, by dsimp only; omega, Or.inr ⟨rfl, hdoubled⟩⟩
    unfold reserve
    rw [if_pos (UInt64.lt_iff_toNat_lt.mpr hlt), hgrow, if_pos hlt, Option.bind_eq_bind, Option.bind_some]
    dsimp only
    cases hdata : d.data with
    | none =>
      refine ⟨_, _, rfl, hinv newData fun i hi => ?_, hle, fun a ha => absurd ha List.not_mem_nil, ?_⟩
      · obtain ⟨data, hsome, -⟩ := h.represents.bytes i hi
        rw [hdata] at hsome
        cases hsome
      · intro data hnew i _
        exact ⟨data, hnew, rfl⟩
    | some data =>
      refine ⟨_, _, rfl, hinv _ fun i hi => ?_, hle, fun a ha => ?_, ?_⟩
      · obtain ⟨data', hsome, hbyte⟩ := h.represents.bytes i hi
        rw [hdata] at hsome
        obtain rfl := Option.mem_some_iff.mp hsome
        unfold memcpy
        rw [if_pos ⟨Nat.zero_le i, by omega⟩]
        exact hbyte
      · rcases List.mem_cons.mp ha with rfl | ha
        · dsimp only
          omega
        · rw [List.mem_singleton.mp ha]
          dsimp only
          omega
      · intro data' hnew i hi
        obtain rfl := Option.mem_some_iff.mp hnew
        refine ⟨newData, rfl, ?_⟩
        unfold memcpy
        rw [if_neg fun hand => by omega]
  · have hle := Nat.not_lt.mp hlt
    unfold reserve
    rw [if_neg (UInt64.not_lt.mpr (UInt64.le_iff_toNat_le.mpr hle)), if_neg hlt]
    exact ⟨d, [], rfl, h, hle, fun a ha => absurd ha List.not_mem_nil, fun data hdata i _ => ⟨data, hdata, rfl⟩⟩

/-- The bytes are copied to where there is room, and the gap in front of them is zero. -/
theorem Inv.copy (h : Inv d c) (hend : offset.toNat + size.toNat ≤ d.capacity.toNat)
    (hneed : (offset + size).toNat = offset.toNat + size.toNat)
    (hgap : ∀ data ∈ d.data, ∀ i, c.size ≤ i → i < offset.toNat → data i = 0) :
    Inv { d with
      data := d.data.map fun data => memcpy data offset.toNat buf size.toNat
      size := if offset + size > d.size then offset + size else d.size }
      (c.write offset.toNat buf size.toNat) := by
  have hsize := h.represents.size
  have hfits := h.fits
  have hmax : (if offset + size > d.size then offset + size else d.size).toNat =
      max c.size (offset.toNat + size.toNat) := by
    split_ifs with hgt
    · have hgt := UInt64.lt_iff_toNat_lt.mp hgt
      omega
    · have hle := UInt64.le_iff_toNat_le.mp (UInt64.not_lt.mp hgt)
      omega
  refine ⟨⟨hmax, fun i hi => ?_⟩, ?_, ?_⟩
  · have hi : i < max c.size (offset.toNat + size.toNat) := hi
    obtain ⟨data, hdata⟩ : ∃ data, d.data = some data := by
      rcases h.allocated with ⟨-, hzero⟩ | ⟨hsome, -⟩
      · rw [hzero, UInt64.toNat_zero] at hend hfits
        omega
      · exact Option.isSome_iff_exists.mp hsome
    refine ⟨_, Option.mem_map_of_mem _ hdata, ?_⟩
    unfold Content.write memcpy
    dsimp only
    split_ifs with hin hold
    · rfl
    · obtain ⟨data', hdata', hbyte⟩ := h.represents.bytes i hold
      rw [hdata] at hdata'
      obtain rfl := Option.mem_some_iff.mp hdata'
      exact hbyte
    · exact hgap data hdata i (Nat.not_lt.mp hold) (by omega)
  · dsimp only
    rw [hmax]
    omega
  · refine h.allocated.imp (fun ⟨hnone, hzero⟩ => ⟨?_, hzero⟩) fun ⟨hsome, hdoubled⟩ => ⟨?_, hdoubled⟩
    · dsimp only
      rw [hnone]
      rfl
    · dsimp only
      rw [Option.isSome_map]
      exact hsome

theorem write_ok (hfuel : 64 ≤ fuel) (h : Inv d c) (hok : CallOk d (.write offset buf size fresh)) :
    ∃ r, tmpfsWrite fuel d offset buf size fresh = some r ∧ ResultOk d c r (.write offset buf size fresh) ∧
      Inv r.file (c.after r (.write offset buf size fresh)) := by
  obtain ⟨hend, hrest⟩ := hok
  have hneed : (offset + size).toNat = offset.toNat + size.toNat := by
    rw [UInt64.toNat_add, Nat.mod_eq_of_lt (by omega)]
  rw [← hneed] at hrest hend
  unfold tmpfsWrite
  dsimp only
  by_cases hfail : d.capacity.toNat < (offset + size).toNat ∧ fresh = none
  · obtain ⟨hlt, rfl⟩ := hfail
    rw [Option.bind_eq_bind, reserve_fails hfuel h hend hlt]
    exact ⟨_, rfl, ⟨fun a ha => absurd ha List.not_mem_nil, Or.inl ⟨rfl, rfl⟩⟩, h⟩
  · obtain ⟨hint, hgap⟩ := hrest.resolve_left hfail
    obtain ⟨d', touched, hreserve, hinv, hroom, htouched, hbehind⟩ := reserve_room hfuel h hend hfail
    have hret : (Int32.ofNat size.toNat).toInt = size.toNat := Word.toInt_ofNat hint
    have hsize := h.represents.size
    have hzero : ∀ data ∈ d'.data, ∀ i, c.size ≤ i → i < offset.toNat → data i = 0 := by
      intro data hdata i hle hlt
      obtain ⟨m, hm, heq⟩ := hbehind data hdata i (by omega)
      rw [heq]
      exact hgap m hm i (by omega) hlt
    have hcopy : Inv _ (c.write offset.toNat buf size.toNat) := hinv.copy (hneed ▸ hroom) hneed hzero
    rw [Option.bind_eq_bind, hreserve]
    refine ⟨_, rfl, ⟨fun a ha => ?_, Or.inr ⟨hret, hcopy.represents⟩⟩, ?_⟩
    · rcases List.mem_append.mp ha with ha | ha
      · exact htouched a ha
      · rw [List.mem_singleton.mp ha]
        dsimp only
        omega
    · have hpos : ¬Int32.ofNat size.toNat < 0 := by
        rw [Int32.lt_iff_toInt_lt, hret, Int32.toInt_zero]
        omega
      unfold Content.after
      dsimp only
      rw [if_neg hpos]
      exact hcopy

end Calls

section Results

theorem Inv.call (hfuel : 64 ≤ fuel) {t : Traced} (h : Inv t.file t.content) {input : Call}
    (hok : CallOk t.file input) :
    ∃ r, Tmpfs.call fuel t.file input = some r ∧ ResultOk t.file t.content r input ∧
      Inv r.file (t.content.after r input) := by
  cases input with
  | read offset size =>
    have hread := read_ok h hok
    refine ⟨_, rfl, hread, ?_⟩
    rw [hread.2.1]
    exact h
  | write offset buf size fresh => exact write_ok hfuel h hok

/-- As long as the calls keep to their bounds, the file is the byte array that they make of it, and a call that keeps
to them returns and does what it should. -/
theorem tmpfs_byte_array (hfuel : 64 ≤ fuel) {t : Traced}
    (h : Run.Reach (step fuel) (fun t input => CallOk t.file input) {} t) :
    Represents t.file t.content ∧ ∀ input, CallOk t.file input →
      ∃ r, call fuel t.file input = some r ∧ ResultOk t.file t.content r input := by
  have hinv : Inv t.file t.content := by
    refine h.invariant (I := fun t => Inv t.file t.content) ?_ fun s input s' hs hok hst => ?_
    · exact ⟨⟨rfl, fun i hi => absurd hi (Nat.not_lt_zero i)⟩, Nat.le_refl _, Or.inl ⟨rfl, rfl⟩⟩
    · obtain ⟨r, hcall, -, hafter⟩ := hs.call hfuel hok
      unfold step at hst
      rw [hcall] at hst
      obtain rfl := Option.some.inj hst
      exact hafter
  refine ⟨hinv.represents, fun input hok => ?_⟩
  obtain ⟨r, hcall, hresult, -⟩ := hinv.call hfuel hok
  exact ⟨r, hcall, hresult⟩

/-- Three bytes are written, and two of them read. -/
theorem tmpfs_byte_array_three : ∃ t, Run.run (step 64) {}
      [.write 0 (fun i => UInt8.ofNat i) 3 (some fun _ => 0xff), .read 1 2] = some t ∧
    Represents t.file t.content ∧ ∀ input, CallOk t.file input →
      ∃ r, call 64 t.file input = some r ∧ ResultOk t.file t.content r input := by
  have hreach : Run.Reach (step 64) (fun t input => CallOk t.file input) {} _ :=
    (Run.Reach.start.step (.write 0 (fun i => UInt8.ofNat i) 3 (some fun _ => 0xff)) ?_ rfl).step (.read 1 2) ?_ rfl
  · exact ⟨_, rfl, tmpfs_byte_array (Nat.le_refl 64) hreach⟩
  · exact ⟨by decide, Or.inr ⟨by decide, fun _ _ i _ hi => absurd hi (Nat.not_lt_zero i)⟩⟩
  · exact Or.inr ⟨by decide, by decide⟩

/-- The byte in front of what is written to an empty file is what the new buffer held. -/
theorem gap_not_cleared : ¬∀ t, Run.Reach (step 64) (fun _ _ => True) {} t → Represents t.file t.content := by
  intro hall
  obtain ⟨t, hrun⟩ : ∃ t, Run.run (step 64) {} [.write 1 (fun _ => 7) 1 (some fun _ => 0xff)] = some t := ⟨_, rfl⟩
  have hgap : (Run.run (step 64) {} [.write 1 (fun _ => 7) 1 (some fun _ => 0xff)]).map
      (fun t => (t.file.data.map fun data => data 0, t.content.size, t.content.bytes 0)) = some (some 0xff, 2, 0) := by
    decide +kernel
  rw [hrun] at hgap
  obtain ⟨hdata, hrest⟩ := Prod.mk.inj (Option.some.inj hgap)
  obtain ⟨hsize, hbyte⟩ := Prod.mk.inj hrest
  obtain ⟨data, hmem, heq⟩ := (hall t (.of_run .start hrun)).bytes 0 (by omega)
  rw [Option.mem_def.mp hmem] at hdata
  have hff : data 0 = 0xff := Option.some.inj hdata
  rw [hff, hbyte] at heq
  exact absurd heq (by decide)

end Results

end Tmpfs
