import Kenux.Lib.Memory
import Kenux.Lib.Scan

/-!
# Array maps do not know their bound

The number of entries is in the map, but the operations get its data only. So a key is taken whatever it is.
-/

/-!
## Array maps

Model of the maps of the array types in `kernel/arch/x86_64/bpf.c`, as the functions `bpf_map_*` reach them through
the table of operations. A key is the number at its address.
-/

namespace Bpf

section Table

/-- `bpf_map_ops_t`; an element that is found is the place of its first byte. -/
structure MapOps (D : Type) where
  mapLookup : D → UInt32 → Option ℕ
  mapUpdate : D → UInt32 → Memory.Mem → UInt64 → ℤ × D
  mapDelete : D → UInt32 → ℤ × D
  mapGetNextKey : D → Option UInt32 → Option UInt32

/-- `bpf_map_t` -/
structure BpfMap (D : Type) where
  mapType : UInt32
  keySize : UInt32
  valueSize : UInt32
  maxEntries : UInt32
  ops : MapOps D
  data : D

variable {D : Type} (map : BpfMap D)

def bpfMapLookupElem (key : UInt32) : Option ℕ := map.ops.mapLookup map.data key

def bpfMapUpdateElem (key : UInt32) (value : Memory.Mem) (flags : UInt64) : ℤ × BpfMap D :=
  let r := map.ops.mapUpdate map.data key value flags
  (r.1, { map with data := r.2 })

def bpfMapDeleteElem (key : UInt32) : ℤ × BpfMap D :=
  let r := map.ops.mapDelete map.data key
  (r.1, { map with data := r.2 })

def bpfMapGetNextKey (key : Option UInt32) : Option UInt32 := map.ops.mapGetNextKey map.data key

end Table

section Array

/-- `bpf_array_data_t`. The bytes are counted from the start of the block; what is behind it is other memory. -/
structure ArrayData where
  data : Memory.Mem
  elemSize : UInt32

/-- `array_map_alloc`; the flags say whether each `kzalloc` succeeds. -/
def arrayMapAlloc (valueSize maxEntries : UInt32) (zdata zblock : Bool) (mem : Memory.Mem) : Option ArrayData :=
  if ¬zdata then none
  else if ¬zblock then none
  else
    let size := valueSize.toUInt64 * maxEntries.toUInt64
    some { data := fun i => if i < size.toNat then 0 else mem i, elemSize := valueSize }

/-- `(u64)idx * adata->elem_size` -/
def elemOffset (a : ArrayData) (idx : UInt32) : UInt64 := idx.toUInt64 * a.elemSize.toUInt64

/-- `memcpy` or `memset` to some bytes. -/
def fill (mem : Memory.Mem) (off size : ℕ) (src : Memory.Mem) : Memory.Mem := fun i =>
  if off ≤ i ∧ i < off + size then src (i - off) else mem i

def arrayMapLookup (a : ArrayData) (idx : UInt32) : Option ℕ := some (elemOffset a idx).toNat

def arrayMapUpdate (a : ArrayData) (idx : UInt32) (value : Memory.Mem) (_flags : UInt64) : ℤ × ArrayData :=
  (0, { a with data := fill a.data (elemOffset a idx).toNat a.elemSize.toNat value })

def arrayMapDelete (a : ArrayData) (idx : UInt32) : ℤ × ArrayData :=
  (0, { a with data := fill a.data (elemOffset a idx).toNat a.elemSize.toNat fun _ => 0 })

def arrayMapGetNextKey (_a : ArrayData) : Option UInt32 → Option UInt32
  | none => some 0
  | some idx => some (idx + 1)

def bpfArrayMapOps : MapOps ArrayData where
  mapLookup := arrayMapLookup
  mapUpdate := arrayMapUpdate
  mapDelete := arrayMapDelete
  mapGetNextKey := arrayMapGetNextKey

def bpfMapTypeArray : UInt32 := 2
def bpfMapTypeProgArray : UInt32 := 3
def bpfMapTypePercpuArray : UInt32 := 6
def bpfMapTypeCgroupArray : UInt32 := 8

/-- The types for which `get_map_ops` gives the operations of arrays. -/
def isArray (mapType : UInt32) : Bool :=
  mapType = bpfMapTypeArray || mapType = bpfMapTypePercpuArray || mapType = bpfMapTypeProgArray ||
    mapType = bpfMapTypeCgroupArray

/-- `bpf_map_create` for the array types. -/
def bpfMapCreate (mapType keySize valueSize maxEntries : UInt32) (zmap zdata zblock : Bool) (mem : Memory.Mem) :
    Option (BpfMap ArrayData) :=
  if ¬isArray mapType then none
  else if ¬zmap then none
  else
    (arrayMapAlloc valueSize maxEntries zdata zblock mem).map fun data =>
      { mapType, keySize, valueSize, maxEntries, ops := bpfArrayMapOps, data }

end Array

section Calls

inductive ElemCall
  | update (key : UInt32) (value : Memory.Mem) (flags : UInt64)
  | delete (key : UInt32)

variable {D : Type}

/-- The map after a call. -/
def BpfMap.after (map : BpfMap D) : ElemCall → BpfMap D
  | .update key value flags => (bpfMapUpdateElem map key value flags).2
  | .delete key => (bpfMapDeleteElem map key).2

def BpfMap.afterAll (map : BpfMap D) (calls : List ElemCall) : BpfMap D := calls.foldl BpfMap.after map

end Calls

/-! ## What is claimed -/

/-- The `size` bytes of an element are in a block of `n` elements. -/
def InBlock (n size off : ℕ) : Prop := off + size ≤ n * size

structure LookupOk (map : BpfMap ArrayData) (key : UInt32) : Prop where
  inside : key < map.maxEntries → ∃ off, bpfMapLookupElem map key = some off ∧
    InBlock map.maxEntries.toNat map.valueSize.toNat off
  outside : map.maxEntries ≤ key → bpfMapLookupElem map key = none

/-- An update or delete of a key changes no byte behind the block; it fails if the map has no such key. -/
structure StoreOk (map : BpfMap ArrayData) (key : UInt32) (r : ℤ × BpfMap ArrayData) : Prop where
  inside : key < map.maxEntries → r.1 = 0 ∧
    ∀ i, map.maxEntries.toNat * map.valueSize.toNat ≤ i → r.2.data.data i = map.data.data i
  outside : map.maxEntries ≤ key → r.1 ≠ 0 ∧ r.2 = map

/-- The keys are visited from zero on, and then there is an error. -/
def IterationOk (map : BpfMap ArrayData) : Prop :=
  ∀ j, Cursor.visit (bpfMapGetNextKey map) j none =
    (((List.range map.maxEntries.toNat).map UInt32.ofNat).take j, decide (map.maxEntries.toNat < j))

end Bpf

namespace Bpf

variable {map map₀ : BpfMap ArrayData} {mapType keySize valueSize maxEntries key : UInt32} {mem : Memory.Mem}

/-- A map of an array type, after any calls. -/
structure IsArrayMap (map : BpfMap ArrayData) (size n : UInt32) : Prop where
  ops : map.ops = bpfArrayMapOps
  valueSize : map.valueSize = size
  maxEntries : map.maxEntries = n
  elemSize : map.data.elemSize = size

theorem isArrayMap_create
    (h : bpfMapCreate mapType keySize valueSize maxEntries true true true mem = some map) :
    IsArrayMap map valueSize maxEntries := by
  unfold bpfMapCreate at h
  rw [if_neg (show ¬¬true = true by decide)] at h
  split_ifs at h with htype
  obtain ⟨data, hdata, rfl⟩ := Option.map_eq_some_iff.mp h
  cases hdata
  exact ⟨rfl, rfl, rfl, rfl⟩

theorem IsArrayMap.after (h : IsArrayMap map valueSize maxEntries) (c : ElemCall) :
    IsArrayMap (map.after c) valueSize maxEntries := by
  obtain ⟨hops, hvs, hmax, hsize⟩ := h
  cases c with
  | update key value flags =>
    refine ⟨hops, hvs, hmax, ?_⟩
    show (map.ops.mapUpdate map.data key value flags).2.elemSize = valueSize
    rw [hops]
    exact hsize
  | delete key =>
    refine ⟨hops, hvs, hmax, ?_⟩
    show (map.ops.mapDelete map.data key).2.elemSize = valueSize
    rw [hops]
    exact hsize

theorem IsArrayMap.afterAll (h : IsArrayMap map valueSize maxEntries) (calls : List ElemCall) :
    IsArrayMap (map.afterAll calls) valueSize maxEntries := by
  induction calls generalizing map with
  | nil => exact h
  | cons c calls ih => exact ih (h.after c)

/-- The place of an element; the product does not wrap around. -/
theorem elemOffset_toNat (a : ArrayData) (idx : UInt32) : (elemOffset a idx).toNat = idx.toNat * a.elemSize.toNat := by
  have hidx := idx.toNat_lt
  have hsize := a.elemSize.toNat_lt
  have hmul : idx.toNat * a.elemSize.toNat ≤ (2 ^ 32 - 1) * (2 ^ 32 - 1) := Nat.mul_le_mul (by omega) (by omega)
  unfold elemOffset
  rw [UInt64.toNat_mul, UInt32.toNat_toUInt64, UInt32.toNat_toUInt64]
  exact Nat.mod_eq_of_lt (by omega)

/-- The element of a key below the bound is in the block. -/
theorem inBlock_of_lt {n size k : ℕ} (hk : k < n) : InBlock n size (k * size) := by
  unfold InBlock
  rw [← Nat.succ_mul]
  exact Nat.mul_le_mul_right size hk

section

variable (h : IsArrayMap map valueSize maxEntries)

include h

theorem lookupOk_iff (key : UInt32) : LookupOk map key ↔ key < maxEntries := by
  have hlookup : bpfMapLookupElem map key = some (key.toNat * valueSize.toNat) := by
    show map.ops.mapLookup map.data key = _
    rw [h.ops, ← h.elemSize, ← elemOffset_toNat]
    rfl
  constructor
  · intro hok
    by_contra hge
    have hnone := hok.outside (h.maxEntries ▸ UInt32.not_lt.mp hge)
    rw [hlookup] at hnone
    cases hnone
  · intro hlt
    refine ⟨fun _ => ⟨_, hlookup, ?_⟩, fun hge => ?_⟩
    · rw [h.maxEntries, h.valueSize]
      exact inBlock_of_lt (UInt32.lt_iff_toNat_lt.mp hlt)
    · rw [h.maxEntries] at hge
      exact absurd hlt (UInt32.not_lt.mpr hge)

/-- For an operation that puts bytes in the place of the element and succeeds. -/
theorem storeOk_iff (key : UInt32) (src : Memory.Mem) :
    StoreOk map key (0, { map with data := { map.data with
      data := fill map.data.data (elemOffset map.data key).toNat map.data.elemSize.toNat src } }) ↔
        key < maxEntries := by
  constructor
  · intro hok
    by_contra hge
    exact (hok.outside (h.maxEntries ▸ UInt32.not_lt.mp hge)).1 rfl
  · intro hlt
    refine ⟨fun _ => ⟨rfl, fun i hi => if_neg ?_⟩, fun hge => ?_⟩
    · have hblock : InBlock maxEntries.toNat valueSize.toNat (key.toNat * valueSize.toNat) :=
        inBlock_of_lt (UInt32.lt_iff_toNat_lt.mp hlt)
      unfold InBlock at hblock
      rw [h.maxEntries, h.valueSize] at hi
      rw [elemOffset_toNat, h.elemSize]
      omega
    · rw [h.maxEntries] at hge
      exact absurd hlt (UInt32.not_lt.mpr hge)

theorem updateOk_iff (key : UInt32) (value : Memory.Mem) (flags : UInt64) :
    StoreOk map key (bpfMapUpdateElem map key value flags) ↔ key < maxEntries := by
  rw [← storeOk_iff h key value]
  unfold bpfMapUpdateElem
  rw [h.ops]
  rfl

theorem deleteOk_iff (key : UInt32) : StoreOk map key (bpfMapDeleteElem map key) ↔ key < maxEntries := by
  rw [← storeOk_iff h key fun _ => 0]
  unfold bpfMapDeleteElem
  rw [h.ops]
  rfl

/-- There is always a next key. -/
theorem visit_goes_on (n : ℕ) (key : Option UInt32) : (Cursor.visit (bpfMapGetNextKey map) n key).2 = false := by
  induction n generalizing key with
  | zero => rfl
  | succ n ih =>
    have hnext : ∃ k, bpfMapGetNextKey map key = some k := by
      unfold bpfMapGetNextKey
      rw [h.ops]
      cases key with
      | none => exact ⟨0, rfl⟩
      | some idx => exact ⟨idx + 1, rfl⟩
    obtain ⟨k, hk⟩ := hnext
    unfold Cursor.visit
    rw [hk]
    exact ih (some k)

theorem iteration_not_ok : ¬IterationOk map := by
  intro hok
  have hends : (Cursor.visit (bpfMapGetNextKey map) (map.maxEntries.toNat + 1) none).2 =
      decide (map.maxEntries.toNat < map.maxEntries.toNat + 1) := congrArg Prod.snd (hok _)
  rw [visit_goes_on h, decide_eq_true (Nat.lt_succ_self _)] at hends
  cases hends

end

/-- Lookup, update and delete are right exactly for the keys below the bound; going through the keys has no end. -/
theorem array_map_ok_iff (mapType keySize valueSize maxEntries : UInt32) (mem : Memory.Mem) (map₀ : BpfMap ArrayData)
    (h : bpfMapCreate mapType keySize valueSize maxEntries true true true mem = some map₀) (calls : List ElemCall)
    (key : UInt32) (value : Memory.Mem) (flags : UInt64) :
    (LookupOk (map₀.afterAll calls) key ↔ key < maxEntries) ∧
      (StoreOk (map₀.afterAll calls) key (bpfMapUpdateElem (map₀.afterAll calls) key value flags) ↔
        key < maxEntries) ∧
      (StoreOk (map₀.afterAll calls) key (bpfMapDeleteElem (map₀.afterAll calls) key) ↔ key < maxEntries) ∧
      ¬IterationOk (map₀.afterAll calls) := by
  have hmap := (isArrayMap_create h).afterAll calls
  exact ⟨lookupOk_iff hmap key, updateOk_iff hmap key value flags, deleteOk_iff hmap key, iteration_not_ok hmap⟩

/-- A map of one entry of two bytes. -/
def oneElem : BpfMap ArrayData where
  mapType := bpfMapTypeArray
  keySize := 4
  valueSize := 2
  maxEntries := 1
  ops := bpfArrayMapOps
  data := ⟨fun i => if i < 2 then 0 else 1, 2⟩

theorem array_map_ok_iff_one :
    (LookupOk (oneElem.afterAll []) 0 ↔ (0 : UInt32) < 1) ∧
      (StoreOk (oneElem.afterAll []) 0 (bpfMapUpdateElem (oneElem.afterAll []) 0 (fun _ => 5) 0) ↔
        (0 : UInt32) < 1) ∧
      (StoreOk (oneElem.afterAll []) 0 (bpfMapDeleteElem (oneElem.afterAll []) 0) ↔ (0 : UInt32) < 1) ∧
      ¬IterationOk (oneElem.afterAll []) :=
  array_map_ok_iff bpfMapTypeArray 4 2 1 (fun _ => 1) oneElem rfl [] 0 (fun _ => 5) 0

/-- An update of key 1 in a map of one entry changes the memory behind the block. -/
theorem update_behind_block :
    (bpfMapUpdateElem oneElem 1 (fun _ => 5) 0).1 = 0 ∧
      (bpfMapUpdateElem oneElem 1 (fun _ => 5) 0).2.data.data 2 ≠ oneElem.data.data 2 ∧
      ¬StoreOk oneElem 1 (bpfMapUpdateElem oneElem 1 (fun _ => 5) 0) ∧
      bpfMapGetNextKey oneElem (some 0) = some 1 :=
  ⟨rfl, by decide, fun hok => (hok.outside (by decide)).1 rfl, rfl⟩

end Bpf
