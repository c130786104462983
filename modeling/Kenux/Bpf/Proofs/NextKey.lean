import Kenux.Bpf.Proofs.HashMap

/-!
# Going through the keys of a hash map

The keys are visited bucket by bucket, each chain from its head. A key is in one chain and once there, so what comes
after it in its chain, or else in the buckets after it, is what comes after it among all entries.
-/

namespace Bpf

variable {keySize valueSize maxEntries : UInt32} {m : HashData} {e : HashEntry} {chain rest : List HashEntry}

/-! ## The order of the entries -/

/-- The entries from bucket `i` on. -/
def entriesFrom (m : HashData) (i : ℕ) : List HashEntry := (m.buckets.drop i).flatten

/-- The keys in the order of the buckets. -/
def mapKeys (m : HashData) : List (List UInt8) := (entriesFrom m 0).map (hashEntryKey m.keySize)

theorem entriesFrom_end (h : TableOk m) {i : ℕ} (hi : m.nBuckets.toNat ≤ i) : entriesFrom m i = [] := by
  unfold entriesFrom
  rw [List.drop_eq_nil_of_le (h.size ▸ hi)]
  rfl

theorem entriesFrom_step (h : TableOk m) {i : ℕ} (hi : i < m.nBuckets.toNat) :
    entriesFrom m i = chainAt m i ++ entriesFrom m (i + 1) := by
  have hlen : i < m.buckets.length := by rwa [h.size]
  unfold entriesFrom chainAt
  rw [List.drop_eq_getElem_cons hlen, List.flatten_cons, List.getD_eq_getElem _ _ hlen]

theorem firstFrom_eq (h : TableOk m) {n i : ℕ} (hi : i + n = m.nBuckets.toNat) :
    firstFrom m n i = ((entriesFrom m i).map (hashEntryKey m.keySize)).head? := by
  induction n generalizing i with
  | zero =>
    rw [entriesFrom_end h (by omega)]
    rfl
  | succ n ih =>
    rw [entriesFrom_step h (by omega)]
    unfold firstFrom
    cases chainAt m i with
    | nil => exact ih (by omega)
    | cons e chain => rfl

/-! ## The walk over a chain -/

theorem nextInChain_found {h : UInt32} {key : List UInt8} :
    nextInChain h key keySize true chain = (chain.map (hashEntryKey keySize)).head? := by
  cases chain with
  | nil => rfl
  | cons e chain => rfl

/-- After the first entry that matches, the next entry is taken. -/
theorem nextInChain_eq {h : UInt32} {key : List UInt8} (hbefore : ∀ e' ∈ chain, entryMatches h key keySize e' = false)
    (he : entryMatches h key keySize e = true) :
    nextInChain h key keySize false (chain ++ e :: rest) = (rest.map (hashEntryKey keySize)).head? := by
  induction chain with
  | nil =>
    show nextInChain h key keySize (entryMatches h key keySize e) rest = _
    rw [he]
    exact nextInChain_found
  | cons e' chain ih =>
    show nextInChain h key keySize (entryMatches h key keySize e') (chain ++ e :: rest) = _
    rw [hbefore e' List.mem_cons_self]
    exact ih fun e' he' => hbefore e' (List.mem_cons_of_mem _ he')

/-! ## Keys -/

theorem mem_entriesFrom_zero (h : TableOk m) : e ∈ entriesFrom m 0 ↔ ∃ i < m.nBuckets.toNat, e ∈ chainAt m i := by
  unfold entriesFrom chainAt
  rw [List.drop_zero, List.mem_flatten]
  constructor
  · rintro ⟨chain, hchain, he⟩
    obtain ⟨i, hi, rfl⟩ := List.mem_iff_getElem.mp hchain
    exact ⟨i, h.size ▸ hi, by rwa [List.getD_eq_getElem _ _ hi]⟩
  · rintro ⟨i, hi, he⟩
    have hlen : i < m.buckets.length := by rwa [h.size]
    rw [List.getD_eq_getElem _ _ hlen] at he
    exact ⟨_, List.getElem_mem hlen, he⟩

theorem bucketOf_entry (h : TableOk m) {i : ℕ} (he : e ∈ chainAt m i) :
    bucketOf m (hashEntryKey m.keySize e) = i := by
  unfold bucketOf
  rw [← (h.entry i e he).hash]
  exact (h.entry i e he).bucket

/-- Entries of two buckets have different keys. -/
theorem mapKeys_nodup (h : TableOk m) : (mapKeys m).Nodup := by
  unfold mapKeys entriesFrom
  rw [List.drop_zero, List.map_flatten, List.nodup_flatten]
  constructor
  · intro keys hkeys
    obtain ⟨chain, hchain, rfl⟩ := List.mem_map.mp hkeys
    obtain ⟨i, hi, rfl⟩ := List.mem_iff_getElem.mp hchain
    have hnodup := h.nodup i
    unfold chainAt at hnodup
    rwa [List.getD_eq_getElem _ _ hi] at hnodup
  · rw [List.pairwise_map, List.pairwise_iff_getElem]
    intro i j hi hj hij key hkey hkey'
    obtain ⟨e, he, rfl⟩ := List.mem_map.mp hkey
    obtain ⟨e', he', heq⟩ := List.mem_map.mp hkey'
    have hbi : bucketOf m (hashEntryKey m.keySize e) = i :=
      bucketOf_entry h (by unfold chainAt; rwa [List.getD_eq_getElem _ _ hi])
    have hbj : bucketOf m (hashEntryKey m.keySize e') = j :=
      bucketOf_entry h (by unfold chainAt; rwa [List.getD_eq_getElem _ _ hj])
    rw [← heq] at hbi
    omega

/-- The keys are those under which something is found. -/
theorem mem_mapKeys (h : TableOk m) {key : List UInt8} (hkey : key.length = m.keySize.toNat) :
    key ∈ mapKeys m ↔ hashMapLookup m key ≠ none := by
  rw [hashMapLookup_eq h hkey, Ne, Option.map_eq_none_iff, Chain.find?_eq_none, not_not]
  constructor
  · intro hmem
    obtain ⟨e, he, rfl⟩ := List.mem_map.mp hmem
    obtain ⟨i, -, hi⟩ := (mem_entriesFrom_zero h).mp he
    rw [bucketOf_entry h hi]
    exact List.mem_map_of_mem hi
  · intro hmem
    obtain ⟨e, he, rfl⟩ := List.mem_map.mp hmem
    have hlt := bucketIndex_lt h (bpfHashFn (hashEntryKey m.keySize e) m.keySize)
    rw [h.size] at hlt
    exact List.mem_map_of_mem ((mem_entriesFrom_zero h).mpr ⟨_, hlt, he⟩)

theorem mapKeys_length (h : TableOk m) {key : List UInt8} (hkey : key ∈ mapKeys m) :
    key.length = m.keySize.toNat := by
  obtain ⟨e, he, rfl⟩ := List.mem_map.mp hkey
  obtain ⟨i, -, hi⟩ := (mem_entriesFrom_zero h).mp he
  exact (h.entry i e hi).key_length

/-! ## The next key -/

/-- What comes before bucket `i`. -/
theorem entries_split {i : ℕ} : ∃ before, entriesFrom m 0 = before ++ entriesFrom m i := by
  refine ⟨(m.buckets.take i).flatten, ?_⟩
  unfold entriesFrom
  rw [List.drop_zero, ← List.flatten_append, List.take_append_drop]

theorem next_key_enumerates (h : TableOk m) : Cursor.Enumerates (hashMapGetNextKey m) (mapKeys m) := by
  refine ⟨firstFrom_eq h (Nat.zero_add _), fun pre key post hsplit => ?_⟩
  have hmem : key ∈ mapKeys m := by
    rw [hsplit]
    exact List.mem_append_right _ List.mem_cons_self
  obtain ⟨e, he, rfl⟩ := List.mem_map.mp hmem
  obtain ⟨i, hi, he⟩ := (mem_entriesFrom_zero h).mp he
  obtain ⟨chain, rest, hchain⟩ := List.append_of_mem he
  obtain ⟨before, hbefore⟩ : ∃ before, entriesFrom m 0 = before ++ entriesFrom m i := entries_split
  -- the key is at one place only
  have hkeys : mapKeys m = (before ++ chain).map (hashEntryKey m.keySize) ++
      hashEntryKey m.keySize e :: (rest ++ entriesFrom m (i + 1)).map (hashEntryKey m.keySize) := by
    unfold mapKeys
    rw [hbefore, entriesFrom_step h hi, hchain]
    simp only [List.map_append, List.map_cons, List.append_assoc, List.cons_append]
  have hnodup := mapKeys_nodup h
  have hpost : post = (rest ++ entriesFrom m (i + 1)).map (hashEntryKey m.keySize) := by
    rw [hsplit, List.nodup_middle, List.nodup_cons, List.mem_append, not_or] at hnodup
    rw [hsplit] at hkeys
    exact ((List.append_cons_inj_of_notMem hnodup.1.1 hnodup.1.2).mp hkeys).2.2
  have hbucket : bucketIndex m (bpfHashFn (hashEntryKey m.keySize e) m.keySize) = i := bucketOf_entry h he
  have hwalk : nextInChain (bpfHashFn (hashEntryKey m.keySize e) m.keySize) (hashEntryKey m.keySize e) m.keySize false
      (chainAt m i) = (rest.map (hashEntryKey m.keySize)).head? := by
    have hlen := (h.entry i e he).key_length
    have hchainNodup := h.nodup i
    rw [hchain, List.map_append, List.map_cons, List.nodup_middle, List.nodup_cons, List.mem_append,
      not_or] at hchainNodup
    rw [hchain]
    refine nextInChain_eq (fun e' he' => ?_) ?_
    · have hmem' : e' ∈ chainAt m i := by
        rw [hchain]
        exact List.mem_append_left _ he'
      rw [entryMatches_eq (h.entry i e' hmem') hlen]
      refine decide_eq_false fun heq => hchainNodup.1.1 ?_
      rw [← heq]
      exact List.mem_map_of_mem he'
    · rw [entryMatches_eq (h.entry i e he) hlen]
      exact decide_eq_true rfl
  unfold hashMapGetNextKey
  dsimp only
  rw [hbucket, hwalk, hpost, List.map_append]
  cases rest with
  | nil => exact firstFrom_eq h (by omega)
  | cons e' rest => rfl

/-! ## Maps that are reached -/

/-- A failed allocation leaves the map as it is. -/
theorem hashMapUpdate_failed {key value : List UInt8} {flags : UInt64} {r : ℤ} {m' : HashData}
    (h : hashMapUpdate m key value flags false = some (r, m')) :
    m' = m ∨ hashMapUpdate m key value flags true = some (r, m') := by
  unfold hashMapUpdate at h ⊢
  dsimp only at h ⊢
  cases hfind : (chainAt m (bucketIndex m (bpfHashFn key m.keySize))).find?
      (entryMatches (bpfHashFn key m.keySize) key m.keySize) with
  | some e =>
    rw [hfind] at h
    exact .inr h
  | none =>
    rw [hfind] at h
    dsimp only at h
    rw [if_pos (show ¬(false = true) by decide), ite_self] at h
    cases h
    exact .inl rfl

theorem hashMapUpdate_table {key value : List UInt8} {flags : UInt64} {zalloc : Bool} {r : ℤ} {m' : HashData}
    (h : TableOk m) (hkey : key.length = m.keySize.toNat) (hvalue : value.length = m.valueSize.toNat)
    (hupdate : hashMapUpdate m key value flags zalloc = some (r, m')) :
    TableOk m' ∧ m'.keySize = m.keySize ∧ m'.valueSize = m.valueSize := by
  obtain rfl | hupdate : m' = m ∨ hashMapUpdate m key value flags true = some (r, m') := by
    cases zalloc with
    | false => exact hashMapUpdate_failed hupdate
    | true => exact .inr hupdate
  · exact ⟨h, rfl, rfl⟩
  have hstored : ∀ {new : Option (List UInt8)}, Stored m key new m' →
      TableOk m' ∧ m'.keySize = m.keySize ∧ m'.valueSize = m.valueSize :=
    fun hst => ⟨hst.ok, hst.sizes.1, hst.sizes.2.1⟩
  cases hold : hashMapLookup m key with
  | some old =>
    obtain ⟨m₁, hm₁, hst, -⟩ := hashMapUpdate_found hkey hvalue h hold
    rw [hm₁] at hupdate
    cases hupdate
    exact hstored hst
  | none =>
    by_cases hfull : m.maxEntries ≠ 0 ∧ m.elemCount ≥ m.maxEntries
    · rw [hashMapUpdate_full hkey h hold hfull] at hupdate
      cases hupdate
      exact ⟨h, rfl, rfl⟩
    · by_cases hfit : m.keySize.toNat + m.valueSize.toNat + 16 < 2 ^ 32
      · obtain ⟨m₁, hm₁, hst, -⟩ := hashMapUpdate_new hkey hvalue h hold hfull hfit
        rw [hm₁] at hupdate
        cases hupdate
        exact hstored hst
      · rw [hashMapUpdate_outside h hkey hvalue hold hfull hfit] at hupdate
        cases hupdate

theorem Reached.table (h : Reached keySize valueSize maxEntries m) :
    TableOk m ∧ m.keySize = keySize ∧ m.valueSize = valueSize := by
  induction h with
  | alloc h =>
    have hrep := represents_alloc h
    exact ⟨hrep.ok, hrep.sizes.1, hrep.sizes.2.1⟩
  | update key value flags zalloc before h ih =>
    obtain ⟨hok, hks, hvs⟩ := ih
    obtain ⟨hok', hks', hvs'⟩ := hashMapUpdate_table hok (key.prop.trans (congrArg UInt32.toNat hks.symm))
      (value.prop.trans (congrArg UInt32.toNat hvs.symm)) h
    exact ⟨hok', hks'.trans hks, hvs'.trans hvs⟩
  | @delete m key before ih =>
    obtain ⟨hok, hks, hvs⟩ := ih
    have hkey : key.val.length = m.keySize.toNat := key.prop.trans (congrArg UInt32.toNat hks.symm)
    cases hold : hashMapLookup m key with
    | none =>
      rw [hashMapDelete_missing hkey hok hold]
      exact ⟨hok, hks, hvs⟩
    | some old =>
      obtain ⟨m', hm', hst, -⟩ := hashMapDelete_found hkey hok hold
      rw [hm']
      exact ⟨hst.ok, hst.sizes.1.trans hks, hst.sizes.2.1.trans hvs⟩

/-- From no key on, the calls give each key of a map once and then none. -/
theorem next_key_visits (h : Reached keySize valueSize maxEntries m) :
    ∃ keys : List (List UInt8), keys.Nodup ∧ (∀ key ∈ keys, key.length = keySize.toNat) ∧
      (∀ key : Bytes keySize, key.val ∈ keys ↔ hashMapLookup m key ≠ none) ∧
      ∀ n, Cursor.visit (hashMapGetNextKey m) n none = (keys.take n, decide (keys.length < n)) := by
  obtain ⟨hok, hks, -⟩ := h.table
  refine ⟨mapKeys m, mapKeys_nodup hok, fun key hkey => ?_, fun key => ?_, (next_key_enumerates hok).visit⟩
  · rw [← hks]
    exact mapKeys_length hok hkey
  · exact mem_mapKeys hok (key.prop.trans (congrArg UInt32.toNat hks.symm))

/-- A map with the one key 7. -/
theorem next_key_visits_one : ∃ m, Reached 1 1 1 m ∧
    ∃ keys : List (List UInt8), keys.Nodup ∧ (∀ key ∈ keys, key.length = (1 : UInt32).toNat) ∧
      (∀ key : Bytes 1, key.val ∈ keys ↔ hashMapLookup m key ≠ none) ∧
      ∀ n, Cursor.visit (hashMapGetNextKey m) n none = (keys.take n, decide (keys.length < n)) := by
  have hempty : Reached 1 1 1 ⟨List.replicate 4 [], 4, 1, 1, 0, 1⟩ := .alloc rfl
  have hone : Reached 1 1 1 ⟨[[], [], [⟨bpfHashFn [7] 1, [7, 1]⟩], []], 4, 1, 1, 1, 1⟩ :=
    .update ⟨[7], rfl⟩ ⟨[1], rfl⟩ 0 true hempty (r := 0) (by decide +kernel)
  exact ⟨_, hone, next_key_visits hone⟩

end Bpf
