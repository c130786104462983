import Kenux.Bpf.HashMap
import Mathlib.Data.List.Find
import Mathlib.Data.List.GetD

/-!
# Hash maps refine finite maps

Every entry of a chain has the hash of its key and is in the bucket for it, and the keys of a chain are
distinct. What the walks find is then what the finite map holds, whatever keys share a bucket.
-/

namespace Bpf

variable {keySize valueSize : UInt32} {m m' : HashData} {k k' : Bytes keySize} {e : HashEntry}
  {chain : List HashEntry}

section Matches

theorem keyEqual_iff {a b : List UInt8} {sz : UInt32} (ha : a.length = sz.toNat)
    (hb : b.length = sz.toNat) : keyEqual a b sz = true ↔ a = b := by
  unfold keyEqual
  rw [List.all_eq_true]
  constructor
  · intro h
    refine List.ext_getElem (ha.trans hb.symm) fun i hi hi' => ?_
    have := of_decide_eq_true (h i (List.mem_range.mpr (ha ▸ hi)))
    rwa [List.getD_eq_getElem _ _ hi, List.getD_eq_getElem _ _ hi'] at this
  · rintro rfl i -
    exact decide_eq_true rfl

/-- An entry as it should be in bucket `i`. -/
structure EntryOk (m : HashData) (i : ℕ) (e : HashEntry) : Prop where
  size : e.data.length = m.keySize.toNat + m.valueSize.toNat
  hash : e.hash = bpfHashFn (hashEntryKey m.keySize e) m.keySize
  bucket : bucketIndex m e.hash = i

theorem EntryOk.key_length {i : ℕ} (h : EntryOk m i e) :
    (hashEntryKey m.keySize e).length = m.keySize.toNat := by
  unfold hashEntryKey
  rw [List.length_take, h.size]
  omega

/-- A walk looks for the entry with the key. -/
theorem entryMatches_eq {key : List UInt8} {i : ℕ} (h : EntryOk m i e)
    (hkey : key.length = m.keySize.toNat) :
    entryMatches (bpfHashFn key m.keySize) key m.keySize e = Chain.has (hashEntryKey m.keySize) key e := by
  unfold entryMatches Chain.has
  rw [Bool.eq_iff_iff, Bool.and_eq_true, decide_eq_true_iff, decide_eq_true_iff,
    keyEqual_iff h.key_length hkey]
  refine ⟨And.right, fun heq => ⟨?_, heq⟩⟩
  rw [h.hash, heq]

end Matches

section Table

/-- The buckets of a hash map. -/
structure TableOk (m : HashData) : Prop where
  size : m.buckets.length = m.nBuckets.toNat
  pos : 0 < m.nBuckets.toNat
  entry : ∀ i, ∀ e ∈ chainAt m i, EntryOk m i e
  nodup : ∀ i, ((chainAt m i).map (hashEntryKey m.keySize)).Nodup

/-- The map with another chain in a bucket and another count. -/
def setChain (m : HashData) (i : ℕ) (chain : List HashEntry) (count : UInt32) : HashData :=
  { m with buckets := m.buckets.set i chain, elemCount := count }

theorem bucketIndex_lt (h : TableOk m) (hash : UInt32) : bucketIndex m hash < m.buckets.length := by
  have hpos := h.pos
  have hsub : (m.nBuckets - 1).toNat = m.nBuckets.toNat - 1 :=
    UInt32.toNat_sub_of_le _ _ (UInt32.le_iff_toNat_le.mpr hpos)
  have hand : (hash &&& (m.nBuckets - 1)).toNat ≤ (m.nBuckets - 1).toNat := by
    rw [UInt32.toNat_and]
    exact Nat.and_le_right
  unfold bucketIndex
  rw [h.size]
  omega

theorem chainAt_setChain {i j : ℕ} {count : UInt32} (hi : i < m.buckets.length) :
    chainAt (setChain m i chain count) j = if j = i then chain else chainAt m j := by
  show (m.buckets.set i chain).getD j [] = _
  rw [List.getD_eq_getElem?_getD, List.getElem?_set]
  by_cases hj : j = i
  · rw [if_pos hj.symm, if_pos hi, if_pos hj]
    rfl
  · rw [if_neg (Ne.symm hj), if_neg hj]
    exact (List.getD_eq_getElem?_getD ..).symm

theorem TableOk.setChain {i : ℕ} {count : UInt32} (h : TableOk m) (hi : i < m.buckets.length)
    (hentry : ∀ e ∈ chain, EntryOk m i e) (hnodup : (chain.map (hashEntryKey m.keySize)).Nodup) :
    TableOk (setChain m i chain count) where
  size := (List.length_set ..).trans h.size
  pos := h.pos
  entry j e he := by
    rw [chainAt_setChain hi] at he
    by_cases hj : j = i
    · rw [if_pos hj] at he
      obtain ⟨hsize, hhash, hbucket⟩ := hentry e he
      exact ⟨hsize, hhash, hbucket.trans hj.symm⟩
    · rw [if_neg hj] at he
      obtain ⟨hsize, hhash, hbucket⟩ := h.entry j e he
      exact ⟨hsize, hhash, hbucket⟩
  nodup j := by
    rw [chainAt_setChain hi]
    by_cases hj : j = i
    · rw [if_pos hj]
      exact hnodup
    · rw [if_neg hj]
      exact h.nodup j

/-- The bucket for a key. -/
def bucketOf (m : HashData) (key : List UInt8) : ℕ := bucketIndex m (bpfHashFn key m.keySize)

variable {key : List UInt8}

theorem hashMapLookup_eq (h : TableOk m) (hkey : key.length = m.keySize.toNat) :
    hashMapLookup m key =
      ((chainAt m (bucketOf m key)).find? (Chain.has (hashEntryKey m.keySize) key)).map
        (hashEntryValue m.keySize) := by
  show ((chainAt m (bucketOf m key)).find? (entryMatches (bpfHashFn key m.keySize) key m.keySize)).map
    (hashEntryValue m.keySize) = _
  rw [List.find?_congr fun e he => entryMatches_eq (h.entry _ e he) hkey]

theorem hashMapLookup_setChain {i : ℕ} {count : UInt32} (h : TableOk m) (hi : i < m.buckets.length)
    (h' : TableOk (setChain m i chain count)) (hkey : key.length = m.keySize.toNat) :
    hashMapLookup (setChain m i chain count) key =
      if bucketOf m key = i then
        (chain.find? (Chain.has (hashEntryKey m.keySize) key)).map (hashEntryValue m.keySize)
      else hashMapLookup m key := by
  rw [hashMapLookup_eq h' hkey, chainAt_setChain hi]
  show ((if bucketOf m key = i then chain else chainAt m (bucketOf m key)).find? _).map _ = _
  by_cases hb : bucketOf m key = i
  · rw [if_pos hb, if_pos hb]
    rfl
  · rw [if_neg hb, if_neg hb, hashMapLookup_eq h hkey]
    rfl

end Table

section Operations

variable {key value : List UInt8} {flags : UInt64}

/-- What a call leaves: the map looks up `new` under `key` and what it did before under other keys. -/
structure Stored (m : HashData) (key : List UInt8) (new : Option (List UInt8)) (m' : HashData) :
    Prop where
  ok : TableOk m'
  sizes : m'.keySize = m.keySize ∧ m'.valueSize = m.valueSize ∧ m'.maxEntries = m.maxEntries
  lookup : ∀ k : List UInt8, k.length = m.keySize.toNat →
    hashMapLookup m' k = if k = key then new else hashMapLookup m k

theorem stored_setChain {new : Option (List UInt8)} {count : UInt32} (h : TableOk m)
    (hentry : ∀ e ∈ chain, EntryOk m (bucketOf m key) e)
    (hnodup : (chain.map (hashEntryKey m.keySize)).Nodup)
    (hself : (chain.find? (Chain.has (hashEntryKey m.keySize) key)).map (hashEntryValue m.keySize) = new)
    (hother : ∀ k, k ≠ key → chain.find? (Chain.has (hashEntryKey m.keySize) k) =
      (chainAt m (bucketOf m key)).find? (Chain.has (hashEntryKey m.keySize) k)) :
    Stored m key new (setChain m (bucketOf m key) chain count) := by
  have hi : bucketOf m key < m.buckets.length := bucketIndex_lt h _
  have hok : TableOk (setChain m (bucketOf m key) chain count) := h.setChain hi hentry hnodup
  refine ⟨hok, ⟨rfl, rfl, rfl⟩, fun k hk => ?_⟩
  rw [hashMapLookup_setChain h hi hok hk]
  by_cases hsame : k = key
  · rw [if_pos hsame, hsame, if_pos rfl, hself]
  · rw [if_neg hsame]
    by_cases hb : bucketOf m k = bucketOf m key
    · rw [if_pos hb, hother k hsame, ← hb, hashMapLookup_eq h hk]
    · rw [if_neg hb]

theorem memcpyAt_eq {data src : List UInt8} {off : ℕ} (h : off + src.length ≤ data.length) :
    memcpyAt data off src = some (data.take off ++ src ++ data.drop (off + src.length)) := if_pos h

/-- Copying a key and a value into a block of their size fills it. -/
theorem memcpyAt_both {a b : ℕ} (hkey : key.length = a) (hvalue : value.length = b) :
    (memcpyAt (List.replicate (a + b) 0) 0 key).bind (fun data => memcpyAt data a value) =
      some (key ++ value) := by
  rw [memcpyAt_eq (by rw [List.length_replicate]; omega), Option.bind_some, List.take_zero,
    List.nil_append, Nat.zero_add, List.drop_replicate, hkey, Nat.add_sub_cancel_left]
  rw [memcpyAt_eq (by rw [List.length_append, List.length_replicate]; omega), List.take_left' hkey,
    List.drop_eq_nil_of_le (by rw [List.length_append, List.length_replicate]; omega), List.append_nil]

/-- The entry with a key and a value. -/
def entryFor (m : HashData) (key value : List UInt8) : HashEntry := ⟨bpfHashFn key m.keySize, key ++ value⟩

section Entry

variable (hkey : key.length = m.keySize.toNat) (hvalue : value.length = m.valueSize.toNat)
include hkey

theorem entryFor_key : hashEntryKey m.keySize (entryFor m key value) = key := List.take_left' hkey

theorem entryFor_value : hashEntryValue m.keySize (entryFor m key value) = value := List.drop_left' hkey

include hvalue in
theorem entryFor_ok : EntryOk m (bucketOf m key) (entryFor m key value) where
  size := by
    show (key ++ value).length = _
    rw [List.length_append, hkey, hvalue]
  hash := by
    rw [entryFor_key hkey]
    rfl
  bucket := rfl

/-- The walk finds an entry exactly when the key is in the map. -/
theorem find?_entryMatches (h : TableOk m) :
    (chainAt m (bucketOf m key)).find? (entryMatches (bpfHashFn key m.keySize) key m.keySize) =
      (chainAt m (bucketOf m key)).find? (Chain.has (hashEntryKey m.keySize) key) :=
  List.find?_congr fun e he => entryMatches_eq (h.entry _ e he) hkey

include hvalue in
/-- An update of a key that the map has. -/
theorem hashMapUpdate_found (h : TableOk m) {old : List UInt8} (hold : hashMapLookup m key = some old) :
    ∃ m', hashMapUpdate m key value flags true = some (0, m') ∧ Stored m key (some value) m' ∧
      m'.elemCount = m.elemCount := by
  rw [hashMapLookup_eq h hkey] at hold
  obtain ⟨e, hfind, -⟩ := Option.map_eq_some_iff.mp hold
  have hmem := List.mem_of_find?_eq_some hfind
  obtain ⟨hsize, hhash, -⟩ := h.entry _ e hmem
  have hekey : hashEntryKey m.keySize e = key := Chain.key_of_find? hfind
  have hcopy : memcpyAt e.data m.keySize.toNat value = some (key ++ value) := by
    rw [memcpyAt_eq (by omega), List.drop_eq_nil_of_le (by omega), List.append_nil]
    exact congrArg (fun k => some (k ++ value)) hekey
  have hwalk : ∀ e ∈ chainAt m (bucketOf m key),
      entryMatches (bpfHashFn key m.keySize) key m.keySize e = Chain.has (hashEntryKey m.keySize) key e :=
    fun e he => entryMatches_eq (h.entry _ e he) hkey
  have hnew : ({ e with data := key ++ value } : HashEntry) = entryFor m key value := by
    unfold entryFor
    rw [hhash, hekey]
  refine ⟨setChain m (bucketOf m key) (Chain.replaceFirst (Chain.has (hashEntryKey m.keySize) key)
    (entryFor m key value) (chainAt m (bucketOf m key))) m.elemCount, ?_, ?_, rfl⟩
  · unfold hashMapUpdate
    dsimp only
    rw [show bucketIndex m (bpfHashFn key m.keySize) = bucketOf m key from rfl,
      find?_entryMatches hkey h, hfind]
    dsimp only
    rw [List.take_of_length_le (Nat.le_of_eq hvalue), hcopy]
    dsimp only [bind, Option.bind, pure]
    rw [Chain.replaceFirst_congr hwalk, hnew]
    rfl
  · refine stored_setChain h ?_ ?_ ?_ ?_
    · intro e' he'
      rcases Chain.mem_replaceFirst he' with he' | rfl
      · exact h.entry _ e' he'
      · exact entryFor_ok hkey hvalue
    · rw [Chain.map_replaceFirst (entryFor_key hkey)]
      exact h.nodup _
    · rw [Chain.find?_replaceFirst_self (entryFor_key hkey), Option.map_some, entryFor_value hkey]
      exact List.mem_map.mpr ⟨e, hmem, hekey⟩
    · intro k hk
      exact Chain.find?_replaceFirst_ne (entryFor_key hkey) (Ne.symm hk)

/-- An update of a new key when the map is full. -/
theorem hashMapUpdate_full (h : TableOk m) (hold : hashMapLookup m key = none)
    (hfull : m.maxEntries ≠ 0 ∧ m.elemCount ≥ m.maxEntries) :
    hashMapUpdate m key value flags true = some (-1, m) := by
  rw [hashMapLookup_eq h hkey] at hold
  unfold hashMapUpdate
  dsimp only
  rw [show bucketIndex m (bpfHashFn key m.keySize) = bucketOf m key from rfl,
    find?_entryMatches hkey h, Option.map_eq_none_iff.mp hold]
  exact if_pos hfull

include hvalue in
/-- An update of a new key when there is room. -/
theorem hashMapUpdate_new (h : TableOk m) (hold : hashMapLookup m key = none)
    (hroom : ¬(m.maxEntries ≠ 0 ∧ m.elemCount ≥ m.maxEntries))
    (hfit : m.keySize.toNat + m.valueSize.toNat + 16 < 2 ^ 32) :
    ∃ m', hashMapUpdate m key value flags true = some (0, m') ∧ Stored m key (some value) m' ∧
      m'.elemCount = m.elemCount + 1 := by
  rw [hashMapLookup_eq h hkey] at hold
  have hnone := Option.map_eq_none_iff.mp hold
  have hsize : (UInt32.ofNat entryHeader + m.keySize + m.valueSize).toNat - entryHeader =
      m.keySize.toNat + m.valueSize.toNat := by
    rw [UInt32.toNat_add, UInt32.toNat_add]
    show (((16 + _) % 2 ^ 32) + _) % 2 ^ 32 - 16 = _
    omega
  refine ⟨setChain m (bucketOf m key) (entryFor m key value :: chainAt m (bucketOf m key))
    (m.elemCount + 1), ?_, ?_, rfl⟩
  · unfold hashMapUpdate
    dsimp only
    rw [show bucketIndex m (bpfHashFn key m.keySize) = bucketOf m key from rfl,
      find?_entryMatches hkey h, hnone]
    dsimp only
    rw [if_neg hroom, if_neg (by decide), hsize, List.take_of_length_le (Nat.le_of_eq hvalue),
      List.take_of_length_le (Nat.le_of_eq hkey)]
    obtain ⟨data, hdata, hcopy⟩ := Option.bind_eq_some_iff.mp (memcpyAt_both hkey hvalue)
    rw [hdata]
    dsimp only [bind, Option.bind, pure]
    rw [hcopy]
    rfl
  · refine stored_setChain h ?_ ?_ ?_ ?_
    · intro e' he'
      rcases List.mem_cons.mp he' with rfl | he'
      · exact entryFor_ok hkey hvalue
      · exact h.entry _ e' he'
    · rw [List.map_cons, List.nodup_cons, entryFor_key hkey]
      exact ⟨Chain.find?_eq_none.mp hnone, h.nodup _⟩
    · rw [Chain.find?_cons_self (entryFor_key hkey), Option.map_some, entryFor_value hkey]
    · intro k hk
      exact Chain.find?_cons_ne ((entryFor_key hkey).trans_ne (Ne.symm hk))

theorem hashMapDelete_found (h : TableOk m) {old : List UInt8} (hold : hashMapLookup m key = some old) :
    ∃ m', hashMapDelete m key = (0, m') ∧ Stored m key none m' ∧ m'.elemCount = m.elemCount - 1 := by
  rw [hashMapLookup_eq h hkey] at hold
  obtain ⟨e, hfind, -⟩ := Option.map_eq_some_iff.mp hold
  refine ⟨setChain m (bucketOf m key) ((chainAt m (bucketOf m key)).eraseP
    (Chain.has (hashEntryKey m.keySize) key)) (m.elemCount - 1), ?_, ?_, rfl⟩
  · unfold hashMapDelete
    dsimp only
    rw [show bucketIndex m (bpfHashFn key m.keySize) = bucketOf m key from rfl,
      find?_entryMatches hkey h, hfind,
      Chain.eraseP_congr fun e he => entryMatches_eq (h.entry _ e he) hkey]
    rfl
  · refine stored_setChain h ?_ ?_ ?_ ?_
    · exact fun e' he' => h.entry _ e' (List.mem_of_mem_eraseP he')
    · exact Chain.nodup_eraseP (h.nodup _)
    · rw [Chain.find?_eraseP_self (h.nodup _), Option.map_none]
    · exact fun k hk => Chain.find?_eraseP_ne (Ne.symm hk)

theorem hashMapDelete_missing (h : TableOk m) (hold : hashMapLookup m key = none) :
    hashMapDelete m key = (-1, m) := by
  rw [hashMapLookup_eq h hkey] at hold
  unfold hashMapDelete
  dsimp only
  rw [show bucketIndex m (bpfHashFn key m.keySize) = bucketOf m key from rfl,
    find?_entryMatches hkey h, Option.map_eq_none_iff.mp hold]
  rfl

end Entry

end Operations

section Refinement

variable {f f' : Contents keySize valueSize} {max : UInt32} {v : Bytes valueSize}

theorem keys_insert : (f.insert k v).keys = insert k f.keys := by
  ext x
  rw [Finmap.mem_keys, Finmap.mem_insert, Finset.mem_insert, Finmap.mem_keys]

/-- A hash map and the finite map that it stands for. -/
structure Represents (m : HashData) (f : Contents keySize valueSize) (max : UInt32) : Prop where
  ok : TableOk m
  sizes : m.keySize = keySize ∧ m.valueSize = valueSize ∧ m.maxEntries = max
  lookup : ∀ k : Bytes keySize, hashMapLookup m k = (f.lookup k).map Subtype.val
  count : m.elemCount.toNat = f.keys.card
  room : f.keys.card ≤ max.toNat

theorem Represents.key_length (h : Represents m f max) (k : Bytes keySize) :
    k.val.length = m.keySize.toNat := k.prop.trans (congrArg UInt32.toNat h.sizes.1.symm)

theorem Represents.value_length (h : Represents m f max) (v : Bytes valueSize) :
    v.val.length = m.valueSize.toNat := v.prop.trans (congrArg UInt32.toNat h.sizes.2.1.symm)

theorem Represents.none_iff (h : Represents m f max) : hashMapLookup m k = none ↔ k ∉ f := by
  rw [h.lookup, Option.map_eq_none_iff, Finmap.lookup_eq_none]

theorem Represents.exists_some (h : Represents m f max) (hk : k ∈ f) :
    ∃ old, hashMapLookup m k = some old :=
  Option.ne_none_iff_exists'.mp fun hnone => h.none_iff.mp hnone hk

/-- A call that changes one key on both sides. -/
theorem Represents.stored (h : Represents m f max) (new : Option (Bytes valueSize))
    (hst : Stored m k (new.map Subtype.val) m')
    (hf : ∀ k', f'.lookup k' = if k' = k then new else f.lookup k')
    (hcount : m'.elemCount.toNat = f'.keys.card) (hroom : f'.keys.card ≤ max.toNat) :
    Represents m' f' max := by
  obtain ⟨hok, ⟨hks, hvs, hme⟩, hlookup⟩ := hst
  obtain ⟨hks', hvs', hme'⟩ := h.sizes
  refine ⟨hok, ⟨hks.trans hks', hvs.trans hvs', hme.trans hme'⟩, fun k' => ?_, hcount, hroom⟩
  rw [hlookup k' (h.key_length k'), hf]
  by_cases hk : k' = k
  · rw [if_pos hk, if_pos (congrArg Subtype.val hk)]
  · rw [if_neg hk, if_neg fun heq => hk (Subtype.ext heq), h.lookup]

theorem lookup_insert_eq (k' : Bytes keySize) :
    (f.insert k v).lookup k' = if k' = k then some v else f.lookup k' := by
  by_cases hk : k' = k
  · rw [hk, if_pos rfl, Finmap.lookup_insert]
  · rw [if_neg hk, Finmap.lookup_insert_of_ne _ hk]

theorem lookup_erase_eq (k' : Bytes keySize) :
    (f.erase k).lookup k' = if k' = k then none else f.lookup k' := by
  by_cases hk : k' = k
  · rw [hk, if_pos rfl, Finmap.lookup_erase]
  · rw [if_neg hk, Finmap.lookup_erase_ne hk]

/-- The results of a call and of its counterpart agree, and so do the maps after them. -/
def Agrees (m : HashData) (f : Contents keySize valueSize) (max : UInt32)
    (c : MapCall keySize valueSize) : Prop :=
  let r := c.anyFlags.spec max.toNat f
  ∃ m', c.call m = some (r.1, m') ∧ Represents m' r.2 max

theorem agrees_delete (h : Represents m f max) : Agrees m f max (.delete k) := by
  have hkey := h.key_length k
  have hcount := h.count
  have hroom := h.room
  unfold Agrees
  simp only [MapCall.anyFlags, MapCall.spec, MapCall.call]
  by_cases hk : k ∈ f
  · have hcard : (f.erase k).keys.card + 1 = f.keys.card := by
      rw [Finmap.keys_erase]
      exact Finset.card_erase_add_one (Finmap.mem_keys.mpr hk)
    obtain ⟨old, hold⟩ := h.exists_some hk
    obtain ⟨m', hm', hst, hcount'⟩ := hashMapDelete_found hkey h.ok hold
    have hsub : (m.elemCount - 1).toNat = m.elemCount.toNat - 1 :=
      UInt32.toNat_sub_of_le _ _ (UInt32.le_iff_toNat_le.mpr (show 1 ≤ m.elemCount.toNat by omega))
    rw [hm', if_pos hk]
    refine ⟨m', rfl, h.stored none hst lookup_erase_eq ?_ ?_⟩
    · show _ = (f.erase k).keys.card
      rw [hcount', hsub]
      omega
    · show (f.erase k).keys.card ≤ _
      omega
  · rw [hashMapDelete_missing hkey h.ok (h.none_iff.mpr hk), if_neg hk]
    exact ⟨m, rfl, h⟩

theorem agrees_update {flags : UInt64} (h : Represents m f max) (hmax : 1 ≤ max)
    (hfit : keySize.toNat + valueSize.toNat + 16 < 2 ^ 32) : Agrees m f max (.update k v flags) := by
  have hkey := h.key_length k
  have hvalue := h.value_length v
  have hcount := h.count
  have hroom := h.room
  obtain ⟨hks, hvs, hme⟩ := h.sizes
  unfold Agrees
  simp only [MapCall.anyFlags, MapCall.spec, MapCall.call]
  have hany₁ : bpfAny ≠ bpfNoexist := by decide
  have hany₂ : bpfAny ≠ bpfExist := by decide
  rw [if_neg hany₁, if_neg hany₂]
  by_cases hk : k ∈ f
  · have hkeys : (f.insert k v).keys = f.keys := by
      rw [keys_insert, Finset.insert_eq_of_mem (Finmap.mem_keys.mpr hk)]
    obtain ⟨old, hold⟩ := h.exists_some hk
    obtain ⟨m', hm', hst, hcount'⟩ :=
      @hashMapUpdate_found m k v flags hkey hvalue h.ok old hold
    rw [hm', if_pos hk]
    refine ⟨m', rfl, h.stored (some v) hst lookup_insert_eq ?_ ?_⟩
    · show _ = (f.insert k v).keys.card
      rw [hcount', hkeys, hcount]
    · show (f.insert k v).keys.card ≤ _
      rw [hkeys]
      exact hroom
  rw [if_neg hk]
  have hnone := h.none_iff.mpr hk
  have hpos : m.maxEntries ≠ 0 := by
    rintro hzero
    rw [← hme, hzero] at hmax
    exact absurd hmax (by decide)
  by_cases hfull : f.keys.card = max.toNat
  · have hge : m.elemCount ≥ m.maxEntries := by
      rw [ge_iff_le, UInt32.le_iff_toNat_le, hcount, hme, hfull]
    rw [hashMapUpdate_full hkey h.ok hnone ⟨hpos, hge⟩, if_pos hfull]
    exact ⟨m, rfl, h⟩
  · have hcard : (f.insert k v).keys.card = f.keys.card + 1 := by
      rw [keys_insert, Finset.card_insert_of_notMem (fun hmem => hk (Finmap.mem_keys.mp hmem))]
    have hlt : ¬(m.maxEntries ≠ 0 ∧ m.elemCount ≥ m.maxEntries) := by
      rintro ⟨-, hge⟩
      rw [ge_iff_le, UInt32.le_iff_toNat_le, hcount, hme] at hge
      omega
    obtain ⟨m', hm', hst, hcount'⟩ :=
      @hashMapUpdate_new m k v flags hkey hvalue h.ok hnone hlt (by rw [hks, hvs]; exact hfit)
    have hadd : (m.elemCount + 1).toNat = m.elemCount.toNat + 1 := by
      have hmaxlt := UInt32.toNat_lt max
      rw [UInt32.toNat_add]
      show (_ + 1) % 2 ^ 32 = _
      omega
    rw [hm', if_neg hfull]
    refine ⟨m', rfl, h.stored (some v) hst lookup_insert_eq ?_ ?_⟩
    · show _ = (f.insert k v).keys.card
      rw [hcount', hadd, hcard, hcount]
    · show (f.insert k v).keys.card ≤ _
      omega

theorem agrees_call (h : Represents m f max) (hmax : 1 ≤ max)
    (hfit : keySize.toNat + valueSize.toNat + 16 < 2 ^ 32) (c : MapCall keySize valueSize) :
    Agrees m f max c := by
  cases c with
  | update key value flags => exact agrees_update h hmax hfit
  | delete key => exact agrees_delete h
  | lookup key => exact ⟨m, congrArg (fun v => some (MapResult.value v, m)) (h.lookup key), h⟩

theorem runCalls_agrees (h : Represents m f max) (hmax : 1 ≤ max)
    (hfit : keySize.toNat + valueSize.toNat + 16 < 2 ^ 32) (cs : List (MapCall keySize valueSize)) :
    let r := specCalls max.toNat f (cs.map MapCall.anyFlags)
    ∃ m', runCalls m cs = some (r.1, m') ∧ Represents m' r.2 max := by
  induction cs generalizing m f with
  | nil => exact ⟨m, rfl, h⟩
  | cons c cs ih =>
    obtain ⟨m₁, hcall, h₁⟩ := agrees_call h hmax hfit c
    obtain ⟨m₂, hrun, h₂⟩ := ih h₁
    refine ⟨m₂, ?_, h₂⟩
    unfold runCalls
    rw [hcall]
    dsimp only [bind, Option.bind]
    rw [hrun]
    rfl

end Refinement

section Alloc

/-- The loop of `hash_map_alloc` stops at a number that it does not count up. -/
theorem roundBuckets_and {fuel : ℕ} {n : UInt32} (h : (-n).toNat ≤ fuel) :
    roundBuckets fuel n &&& (roundBuckets fuel n - 1) = 0 := by
  induction fuel generalizing n with
  | zero =>
    have hneg : -n = 0 := UInt32.toNat_inj.mp (Nat.le_zero.mp h)
    have hzero : n = 0 := by rw [← UInt32.neg_neg (a := n), hneg]; rfl
    rw [hzero]
    decide
  | succ fuel ih =>
    unfold roundBuckets
    split_ifs with hn
    · exact hn
    · refine ih ?_
      have hpos : n.toNat ≠ 0 := by
        intro hzero
        rw [UInt32.toNat_inj.mp (hzero.trans UInt32.toNat_zero.symm)] at hn
        exact hn rfl
      have hlt := UInt32.toNat_lt n
      have hsucc : (n + 1).toNat = (n.toNat + 1) % 2 ^ 32 := UInt32.toNat_add n 1
      rw [UInt32.toNat_neg] at h ⊢
      show (2 ^ 32 - _) % 2 ^ 32 ≤ fuel
      have h' : (2 ^ 32 - n.toNat) % 2 ^ 32 ≤ fuel + 1 := h
      omega

variable {max : UInt32}

theorem hashMapAlloc_eq (h : hashMapAlloc keySize valueSize max true true = some m) :
    ∃ n : UInt32, 4 ≤ n ∧ n &&& (n - 1) = 0 ∧
      m = ⟨List.replicate n.toNat [], n, keySize, valueSize, 0, max⟩ := by
  unfold hashMapAlloc at h
  dsimp only at h
  generalize (if max = 0 then 1 else max) = start at h
  cases h
  split_ifs with hsmall
  · exact ⟨4, by decide, by decide, rfl⟩
  · exact ⟨_, UInt32.not_lt.mp hsmall, roundBuckets_and (Nat.le_refl _), rfl⟩

theorem represents_alloc (h : hashMapAlloc keySize valueSize max true true = some m) :
    Represents m (∅ : Contents keySize valueSize) max := by
  obtain ⟨n, hn, -, rfl⟩ := hashMapAlloc_eq h
  have hchain : ∀ i, chainAt ⟨List.replicate n.toNat [], n, keySize, valueSize, 0, max⟩ i = [] := by
    intro i
    unfold chainAt
    rw [List.getD_eq_getElem?_getD, List.getElem?_replicate]
    split_ifs <;> rfl
  refine ⟨⟨List.length_replicate, ?_, fun i e he => ?_, fun i => ?_⟩, ⟨rfl, rfl, rfl⟩, fun k => ?_, rfl,
    Nat.zero_le _⟩
  · have h4 : 4 ≤ n.toNat := UInt32.le_iff_toNat_le.mp hn
    exact Nat.lt_of_lt_of_le (by omega) h4
  · rw [hchain] at he
    cases he
  · rw [hchain]
    exact List.nodup_nil
  · unfold hashMapLookup
    dsimp only
    rw [hchain, Finmap.lookup_empty]
    rfl

/-- A new entry that is larger than its 32-bit size is written beyond its block. -/
theorem hashMapUpdate_outside {key value : List UInt8} {flags : UInt64} (h : TableOk m)
    (hkey : key.length = m.keySize.toNat) (hvalue : value.length = m.valueSize.toNat)
    (hold : hashMapLookup m key = none) (hroom : ¬(m.maxEntries ≠ 0 ∧ m.elemCount ≥ m.maxEntries))
    (hfit : ¬m.keySize.toNat + m.valueSize.toNat + 16 < 2 ^ 32) :
    hashMapUpdate m key value flags true = none := by
  have hks := UInt32.toNat_lt m.keySize
  have hvs := UInt32.toNat_lt m.valueSize
  rw [hashMapLookup_eq h hkey] at hold
  have hsize : (UInt32.ofNat entryHeader + m.keySize + m.valueSize).toNat - entryHeader <
      m.keySize.toNat + m.valueSize.toNat := by
    rw [UInt32.toNat_add, UInt32.toNat_add]
    show (((16 + _) % 2 ^ 32) + _) % 2 ^ 32 - 16 < _
    omega
  unfold hashMapUpdate
  dsimp only
  rw [show bucketIndex m (bpfHashFn key m.keySize) = bucketOf m key from rfl,
    find?_entryMatches hkey h, Option.map_eq_none_iff.mp hold]
  dsimp only
  rw [if_neg hroom, if_neg (by decide), List.take_of_length_le (Nat.le_of_eq hvalue),
    List.take_of_length_le (Nat.le_of_eq hkey)]
  generalize (UInt32.ofNat entryHeader + m.keySize + m.valueSize).toNat - entryHeader = n at hsize ⊢
  by_cases hkeyfit : m.keySize.toNat ≤ n
  · rw [memcpyAt_eq (by rw [List.length_replicate]; omega)]
    dsimp only [bind, Option.bind, pure]
    unfold memcpyAt
    rw [if_neg (by simp; omega)]
  · unfold memcpyAt
    rw [if_neg (by rw [List.length_replicate]; omega)]
    rfl

end Alloc

/-- A hash map refines a finite map, the flags left out, exactly when the size of an entry fits into 32
bits. -/
theorem hash_map_refines_iff {max : UInt32} (hmax : 1 ≤ max)
    (halloc : hashMapAlloc keySize valueSize max true true = some m) :
    (∀ calls : List (MapCall keySize valueSize),
      RefinesMap m max.toNat calls (calls.map MapCall.anyFlags)) ↔
    keySize.toNat + valueSize.toNat + 16 < 2 ^ 32 := by
  have hrep : Represents m (∅ : Contents keySize valueSize) max := represents_alloc halloc
  constructor
  · intro hall
    by_contra hfit
    obtain ⟨hks, hvs, hme⟩ := hrep.sizes
    let k : Bytes keySize := ⟨List.replicate keySize.toNat 0, List.length_replicate⟩
    let v : Bytes valueSize := ⟨List.replicate valueSize.toNat 0, List.length_replicate⟩
    have hroom : ¬(m.maxEntries ≠ 0 ∧ m.elemCount ≥ m.maxEntries) := by
      rintro ⟨-, hge⟩
      have hcount : m.elemCount.toNat = 0 := hrep.count
      have hmax' : 1 ≤ max.toNat := UInt32.le_iff_toNat_le.mp hmax
      rw [ge_iff_le, UInt32.le_iff_toNat_le, hme] at hge
      omega
    have hnone : hashMapUpdate m k v bpfAny true = none :=
      hashMapUpdate_outside hrep.ok (hrep.key_length k) (hrep.value_length v)
        (hrep.none_iff.mpr Finmap.notMem_empty) hroom (by rw [hks, hvs]; exact hfit)
    obtain ⟨m', hrun, -⟩ := hall [.update k v bpfAny]
    simp only [runCalls, MapCall.call, hnone] at hrun
    cases hrun
  · intro hfit calls
    obtain ⟨m', hrun, h⟩ := runCalls_agrees hrep hmax hfit calls
    exact ⟨m', hrun, h.count, h.room⟩

/-- A map for one entry with keys of one byte and values of two. -/
theorem hash_map_refines_iff_one : 1 ≤ (1 : UInt32) ∧ ∃ m, hashMapAlloc 1 2 1 true true = some m ∧
    ((∀ calls : List (MapCall 1 2), RefinesMap m 1 calls (calls.map MapCall.anyFlags)) ↔
      (1 : UInt32).toNat + (2 : UInt32).toNat + 16 < 2 ^ 32) :=
  ⟨by decide, _, rfl, hash_map_refines_iff (by decide) rfl⟩

/-- `BPF_NOEXIST` replaces the value of a key that exists. -/
theorem noexist_replaces : ¬ ∀ (keySize valueSize max : UInt32) (m : HashData), 1 ≤ max →
    hashMapAlloc keySize valueSize max true true = some m →
    ∀ calls : List (MapCall keySize valueSize), RefinesMap m max.toNat calls calls := by
  intro hall
  let calls : List (MapCall 1 1) :=
    [.update ⟨[7], rfl⟩ ⟨[1], rfl⟩ bpfAny, .update ⟨[7], rfl⟩ ⟨[2], rfl⟩ bpfNoexist]
  obtain ⟨m', hrun, -⟩ := hall 1 1 1 ⟨List.replicate 4 [], 4, 1, 1, 0, 1⟩ (by decide) (by decide) calls
  have hcode : (runCalls ⟨List.replicate 4 [], 4, 1, 1, 0, 1⟩ calls).map Prod.fst =
      some [.code 0, .code 0] := by decide +kernel
  have hspec : (specCalls 1 ∅ calls).1 = [.code 0, .code (-1)] := by decide +kernel
  rw [hrun] at hcode
  have hsame := hspec.symm.trans (Option.some_inj.mp hcode)
  exact absurd hsame (by decide)

end Bpf
