import Kenux.Bpf.Model
import Kenux.Lib.SList
import Kenux.Lib.Scan
import Mathlib.Data.Finmap

/-!
# Hash maps

Model of the maps of type `BPF_MAP_TYPE_HASH` in `kernel/arch/x86_64/bpf.c`, as the functions
`bpf_map_lookup_elem`, `bpf_map_update_elem` and `bpf_map_delete_elem` reach them. The bucket chains are
lists, an entry is its hash and the bytes behind its header, and a key or value that is passed in is the
list of the bytes at its address.
-/

namespace Bpf

section Data

/-- `bpf_hash_entry_t`. -/
structure HashEntry where
  hash : UInt32
  data : List UInt8
  deriving DecidableEq

/-- `bpf_hash_data_t`. -/
structure HashData where
  buckets : List (List HashEntry)
  nBuckets : UInt32
  keySize : UInt32
  valueSize : UInt32
  elemCount : UInt32
  maxEntries : UInt32
  deriving DecidableEq

/-- `HASH_ENTRY_KEY`. -/
def hashEntryKey (keySize : UInt32) (e : HashEntry) : List UInt8 := e.data.take keySize.toNat

/-- `HASH_ENTRY_VALUE`. -/
def hashEntryValue (keySize : UInt32) (e : HashEntry) : List UInt8 := e.data.drop keySize.toNat

/-- `sizeof(bpf_hash_entry_t)`. -/
def entryHeader : ℕ := 16

end Data

section Operations

/-- The loop that counts the number of buckets up to a power of two. From `n` it makes at most `-n` steps
before it is at zero. -/
def roundBuckets : ℕ → UInt32 → UInt32
  | 0, n => n
  | fuel + 1, n => if n &&& (n - 1) = 0 then n else roundBuckets fuel (n + 1)

/-- `hash_map_alloc`; the flags say whether each `kzalloc` succeeds. -/
def hashMapAlloc (keySize valueSize maxEntries : UInt32) (zdata zbuckets : Bool) : Option HashData :=
  let n := if maxEntries = 0 then 1 else maxEntries
  let n := roundBuckets (-n).toNat n
  let n := if n < 4 then 4 else n
  if ¬zdata then none
  else if ¬zbuckets then none
  else some {
    buckets := List.replicate n.toNat []
    nBuckets := n
    keySize := keySize
    valueSize := valueSize
    elemCount := 0
    maxEntries := maxEntries }

def bpfHashFn (key : List UInt8) (keySize : UInt32) : UInt32 :=
  (key.take keySize.toNat).foldl (fun h b => (h ^^^ b.toUInt32) * 0x01000193) 0x811c9dc5

/-- `key_equal`. -/
def keyEqual (a b : List UInt8) (sz : UInt32) : Bool :=
  (List.range sz.toNat).all fun i => a.getD i 0 = b.getD i 0

/-- The test that the walks over a chain share. -/
def entryMatches (h : UInt32) (key : List UInt8) (keySize : UInt32) (e : HashEntry) : Bool :=
  e.hash = h && keyEqual (hashEntryKey keySize e) key keySize

def bucketIndex (m : HashData) (h : UInt32) : ℕ := (h &&& (m.nBuckets - 1)).toNat

def chainAt (m : HashData) (i : ℕ) : List HashEntry := m.buckets.getD i []

/-- `memcpy` to an offset in the bytes of an entry; `none` is a write outside the entry. -/
def memcpyAt (data : List UInt8) (off : ℕ) (src : List UInt8) : Option (List UInt8) :=
  if off + src.length ≤ data.length then
    some (data.take off ++ src ++ data.drop (off + src.length))
  else none

/-- `hash_map_lookup_impl`: the bytes at the address that it returns. -/
def hashMapLookup (m : HashData) (key : List UInt8) : Option (List UInt8) :=
  let h := bpfHashFn key m.keySize
  ((chainAt m (bucketIndex m h)).find? (entryMatches h key m.keySize)).map (hashEntryValue m.keySize)

/-- `hash_map_update_impl`. `zalloc` says whether `kzalloc` succeeds; the result is `none` if a `memcpy`
goes outside the entry. The size of a new entry has 32 bits. -/
def hashMapUpdate (m : HashData) (key value : List UInt8) (_flags : UInt64) (zalloc : Bool) :
    Option (ℤ × HashData) :=
  let h := bpfHashFn key m.keySize
  let idx := bucketIndex m h
  let chain := chainAt m idx
  let keyBytes := key.take m.keySize.toNat
  let valueBytes := value.take m.valueSize.toNat
  match chain.find? (entryMatches h key m.keySize) with
  | some e => do
    let data ← memcpyAt e.data m.keySize.toNat valueBytes
    let chain := Chain.replaceFirst (entryMatches h key m.keySize) { e with data } chain
    pure (0, { m with buckets := m.buckets.set idx chain })
  | none =>
    if m.maxEntries ≠ 0 ∧ m.elemCount ≥ m.maxEntries then some (-1, m)
    else if ¬zalloc then some (-1, m)
    else do
      let entrySz := UInt32.ofNat entryHeader + m.keySize + m.valueSize
      let data ← memcpyAt (List.replicate (entrySz.toNat - entryHeader) 0) 0 keyBytes
      let data ← memcpyAt data m.keySize.toNat valueBytes
      pure (0, { m with
        buckets := m.buckets.set idx ({ hash := h, data } :: chain)
        elemCount := m.elemCount + 1 })

/-- `hash_map_delete`. -/
def hashMapDelete (m : HashData) (key : List UInt8) : ℤ × HashData :=
  let h := bpfHashFn key m.keySize
  let idx := bucketIndex m h
  let chain := chainAt m idx
  if (chain.find? (entryMatches h key m.keySize)).isSome then
    (0, { m with
      buckets := m.buckets.set idx (chain.eraseP (entryMatches h key m.keySize))
      elemCount := m.elemCount - 1 })
  else (-1, m)

end Operations

section Calls

/-- The bytes of a key or a value. -/
abbrev Bytes (n : UInt32) := { bs : List UInt8 // bs.length = n.toNat }

inductive MapCall (keySize valueSize : UInt32) where
  | update (key : Bytes keySize) (value : Bytes valueSize) (flags : UInt64)
  | delete (key : Bytes keySize)
  | lookup (key : Bytes keySize)

inductive MapResult where
  | code (r : ℤ)
  | value (v : Option (List UInt8))
  deriving DecidableEq

variable {keySize valueSize : UInt32}

/-- One call on a hash map, allocations succeed. -/
def MapCall.call (m : HashData) : MapCall keySize valueSize → Option (MapResult × HashData)
  | .update key value flags => (hashMapUpdate m key value flags true).map fun r => (.code r.1, r.2)
  | .delete key => let r := hashMapDelete m key; some (.code r.1, r.2)
  | .lookup key => some (.value (hashMapLookup m key), m)

def runCalls (m : HashData) : List (MapCall keySize valueSize) → Option (List MapResult × HashData)
  | [] => some ([], m)
  | c :: cs => do
    let (r, m) ← c.call m
    let (rs, m) ← runCalls m cs
    pure (r :: rs, m)

end Calls

section Spec

variable {keySize valueSize : UInt32}

abbrev Contents (keySize valueSize : UInt32) := Finmap fun _ : Bytes keySize => Bytes valueSize

def bpfAny : UInt64 := 0
def bpfNoexist : UInt64 := 1
def bpfExist : UInt64 := 2

/-- A call on a finite map with room for `maxEntries` keys. -/
def MapCall.spec (maxEntries : ℕ) (f : Contents keySize valueSize) :
    MapCall keySize valueSize → MapResult × Contents keySize valueSize
  | .update key value flags =>
    if key ∈ f then
      if flags = bpfNoexist then (.code (-1), f) else (.code 0, f.insert key value)
    else if flags = bpfExist then (.code (-1), f)
    else if f.keys.card = maxEntries then (.code (-1), f)
    else (.code 0, f.insert key value)
  | .delete key => if key ∈ f then (.code 0, f.erase key) else (.code (-1), f)
  | .lookup key => (.value ((f.lookup key).map Subtype.val), f)

def specCalls (maxEntries : ℕ) (f : Contents keySize valueSize) :
    List (MapCall keySize valueSize) → List MapResult × Contents keySize valueSize
  | [] => ([], f)
  | c :: cs =>
    let r := c.spec maxEntries f
    let rest := specCalls maxEntries r.2 cs
    (r.1 :: rest.1, rest.2)

/-- The calls give the results that they give on the finite map, and the count is right. -/
def RefinesMap (m : HashData) (maxEntries : ℕ) (calls spec : List (MapCall keySize valueSize)) : Prop :=
  ∃ m', let (rs, f) := specCalls maxEntries ∅ spec
    runCalls m calls = some (rs, m') ∧ m'.elemCount.toNat = f.keys.card ∧ f.keys.card ≤ maxEntries

/-- The call with `BPF_ANY` for its flags. -/
def MapCall.anyFlags : MapCall keySize valueSize → MapCall keySize valueSize
  | .update key value _ => .update key value bpfAny
  | c => c

end Spec

end Bpf

/-!
## The next key of a hash map

Model of `hash_map_get_next_key` in `kernel/arch/x86_64/bpf.c`. The result is the bytes that are copied to `next_key`,
and nothing where the function returns -1.
-/

namespace Bpf

/-- The loop over the buckets from `i` on; `n` buckets are left. -/
def firstFrom (m : HashData) : ℕ → ℕ → Option (List UInt8)
  | 0, _ => none
  | n + 1, i =>
    match chainAt m i with
    | e :: _ => some (hashEntryKey m.keySize e)
    | [] => firstFrom m n (i + 1)

/-- The walk over a chain, with the flag `found`. -/
def nextInChain (h : UInt32) (key : List UInt8) (keySize : UInt32) : Bool → List HashEntry → Option (List UInt8)
  | _, [] => none
  | true, e :: _ => some (hashEntryKey keySize e)
  | false, e :: chain => nextInChain h key keySize (entryMatches h key keySize e) chain

def hashMapGetNextKey (m : HashData) : Option (List UInt8) → Option (List UInt8)
  | none => firstFrom m m.nBuckets.toNat 0
  | some key =>
    let h := bpfHashFn key m.keySize
    let idx := bucketIndex m h
    match nextInChain h key m.keySize false (chainAt m idx) with
    | some next => some next
    | none => firstFrom m (m.nBuckets.toNat - (idx + 1)) (idx + 1)

/-- A map as it is after some calls; `zalloc` says for each update whether `kzalloc` succeeds. -/
inductive Reached (keySize valueSize maxEntries : UInt32) : HashData → Prop
  | alloc {m : HashData} (h : hashMapAlloc keySize valueSize maxEntries true true = some m) :
      Reached keySize valueSize maxEntries m
  | update {m m' : HashData} {r : ℤ} (key : Bytes keySize) (value : Bytes valueSize) (flags : UInt64) (zalloc : Bool)
      (before : Reached keySize valueSize maxEntries m)
      (h : hashMapUpdate m key value flags zalloc = some (r, m')) : Reached keySize valueSize maxEntries m'
  | delete {m : HashData} (key : Bytes keySize) (before : Reached keySize valueSize maxEntries m) :
      Reached keySize valueSize maxEntries (hashMapDelete m key).2

end Bpf
