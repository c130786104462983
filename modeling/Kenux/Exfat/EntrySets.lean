import Kenux.Lib.Memory

/-!
# Directory entries of exFAT (`arch/x86_64/exfat.c`)

A file has a set of entries of 32 bytes: one for the file, one for its data, and one for each 15 units of its name.
-/

namespace Exfat

open Memory
open Function (update_self update_of_ne)

def exfatEntryFile : UInt8 := 0x85

def exfatEntryStream : UInt8 := 0xC0

def exfatEntryFileName : UInt8 := 0xC1

def exfatMaxNameLen : ℕ := 255

/-- `EXFAT_MAX_DENTRY_NAME_LEN` -/
def maxDentryNameLen : ℕ := 15

/-! ## The offsets of the fields -/

def secondaryCountOff : ℕ := 1
def attributesOff : ℕ := 4
def createTimeOff : ℕ := 8
def modifyTimeOff : ℕ := 12
def accessTimeOff : ℕ := 16

def flagsOff : ℕ := 1
def nameLengthOff : ℕ := 3
def nameHashOff : ℕ := 4
def dataLengthOff : ℕ := 16
def startClusterOff : ℕ := 24

/-- Of a name entry. -/
def unitsOff : ℕ := 2

/-- `exfat_dir_info_t` -/
structure DirInfo where
  attributes : UInt16
  createTime : UInt32
  modifyTime : UInt32
  accessTime : UInt32
  startCluster : UInt32
  dataLength : UInt64
  nameHash : UInt16
  nameLen : UInt8
  name : ℕ → UInt16

/-- `exfat_calc_name_hash`, for the units of a name. -/
def calcNameHash (name : List UInt16) : UInt16 :=
  name.foldl
    (fun (hash c : UInt16) =>
      let hash := ((hash <<< 15) ||| (hash >>> 1)) + (c <<< 8)
      ((hash <<< 15) ||| (hash >>> 1)) + (c &&& 0xFF))
    0

/-! ## The set of a new file -/

/-- The unit that goes to place `idx`. -/
def unitAt (name : List UInt16) (idx : ℕ) : UInt16 := name.getD idx 0

/-- The units of a name entry, from place `15 * i` on. -/
def putUnits (buf : Mem) (pos : ℕ) (name : List UInt16) (i : ℕ) : ℕ → Mem
  | 0 => buf
  | j + 1 => store (putUnits buf pos name i j) (pos + unitsOff + 2 * j) (unitAt name (i * maxDentryNameLen + j)).toNat 2

def putNameEntry (buf : Mem) (pos : ℕ) (name : List UInt16) (i : ℕ) : Mem :=
  let buf := Function.update buf pos exfatEntryFileName
  let buf := Function.update buf (pos + flagsOff) 0
  putUnits buf pos name i maxDentryNameLen

def putNameEntries (buf : Mem) (pos : ℕ) (name : List UInt16) : ℕ → Mem
  | 0 => buf
  | i + 1 => putNameEntry (putNameEntries buf pos name i) (pos + 32 * i) name i

def nameEntries (name : List UInt16) : UInt8 := UInt8.ofNat ((name.length + maxDentryNameLen - 1) / maxDentryNameLen)

/-- What `exfat_create_entry` builds for a name and attributes, with the cluster that it got; then the buffer is freed. -/
def createEntry (name : List UInt16) (attr : UInt16) (dataCluster : UInt32) : Mem :=
  let secondary := 1 + nameEntries name
  let buf : Mem := fun _ => 0
  let buf := Function.update buf 0 exfatEntryFile
  let buf := Function.update buf secondaryCountOff secondary
  let buf := store buf attributesOff attr.toNat 2
  let buf := Function.update buf 32 exfatEntryStream
  let buf := Function.update buf (32 + flagsOff) 0x01
  let buf := Function.update buf (32 + nameLengthOff) (UInt8.ofNat name.length)
  let buf := store buf (32 + nameHashOff) (calcNameHash name).toNat 2
  let buf := store buf (32 + startClusterOff) dataCluster.toNat 4
  let buf := store buf (32 + dataLengthOff) 0 8
  putNameEntries buf 64 name (nameEntries name).toNat

/-! ## Reading a set -/

/-- The inner loop of `exfat_read_file_entry_set` from unit `j` on; `n` units are left. -/
def copyUnits (buf : Mem) (pos : ℕ) : ℕ → ℕ → DirInfo → DirInfo
  | 0, _, info => info
  | n + 1, j, info =>
    if info.nameLen.toNat < exfatMaxNameLen then
      copyUnits buf pos n (j + 1) { info with
        name := Function.update info.name info.nameLen.toNat (UInt16.ofNat (load buf (pos + unitsOff + 2 * j) 2))
        nameLen := info.nameLen + 1 }
    else info

/-- The outer loop; `n` entries are left. -/
def copyNames (buf : Mem) : ℕ → ℕ → DirInfo → DirInfo
  | 0, _, info => info
  | n + 1, pos, info =>
    if info.nameLen.toNat < exfatMaxNameLen then
      if buf pos ≠ exfatEntryFileName then info
      else copyNames buf n (pos + 32) (copyUnits buf pos maxDentryNameLen 0 info)
    else info

/-- `exfat_read_file_entry_set` -/
def readFileEntrySet (buf : Mem) (offset : ℕ) (info : DirInfo) : ℤ × DirInfo :=
  if buf offset ≠ exfatEntryFile then (-1, info)
  else
    let secondary := buf (offset + secondaryCountOff)
    let info := { info with
      attributes := UInt16.ofNat (load buf (offset + attributesOff) 2)
      createTime := UInt32.ofNat (load buf (offset + createTimeOff) 4)
      modifyTime := UInt32.ofNat (load buf (offset + modifyTimeOff) 4)
      accessTime := UInt32.ofNat (load buf (offset + accessTimeOff) 4) }
    let pos := offset + 32
    if buf pos ≠ exfatEntryStream then (-2, info)
    else
      let info := { info with
        startCluster := UInt32.ofNat (load buf (pos + startClusterOff) 4)
        dataLength := UInt64.ofNat (load buf (pos + dataLengthOff) 8)
        nameHash := UInt16.ofNat (load buf (pos + nameHashOff) 2)
        nameLen := buf (pos + nameLengthOff) }
      let pos := pos + 32
      let info := { info with nameLen := 0 }
      -- the loop counts from 2
      (0, copyNames buf (secondary.toNat - 2) pos info)

/-!
## Round trips of entry sets
-/

/-- The set lies at some place of a directory's cluster. -/
def LiesAt (buf : Mem) (offset : ℕ) (set : Mem) (n : ℕ) : Prop := ∀ k < n, buf (offset + k) = set k

/-- The bytes of the set of a name. -/
def setBytes (name : List UInt16) : ℕ := 32 * (2 + (nameEntries name).toNat)

/-- What is read is what was put in. -/
def RoundTrips (name : List UInt16) (attr : UInt16) (dataCluster : UInt32) (r : ℤ × DirInfo) : Prop :=
  r.1 = 0 ∧ r.2.attributes = attr ∧ r.2.startCluster = dataCluster ∧ r.2.nameHash = calcNameHash name ∧
    r.2.nameLen.toNat = name.length ∧ ∀ i < name.length, r.2.name i = unitAt name i

/-- Of the name only the entries before the last one are read. -/
def LosesEnd (name : List UInt16) (attr : UInt16) (dataCluster : UInt32) (r : ℤ × DirInfo) : Prop :=
  r.1 = 0 ∧ r.2.attributes = attr ∧ r.2.startCluster = dataCluster ∧ r.2.nameHash = calcNameHash name ∧
    r.2.nameLen.toNat = maxDentryNameLen * ((nameEntries name).toNat - 1) ∧
    ∀ i < maxDentryNameLen * ((nameEntries name).toNat - 1), r.2.name i = unitAt name i

/-!
## The set that is built, and what is read of it

The loop that reads the name entries counts from two, as if the stream entry were counted from one; so the last
name entry is never read.
-/

variable {buf set : Mem} {pos offset n k : ℕ} {name : List UInt16} {attr : UInt16} {dataCluster : UInt32}

/-! ## The set -/

theorem putUnits_other (i j : ℕ) (h : k < pos + 2 ∨ pos + 2 + 2 * j ≤ k) : putUnits buf pos name i j k = buf k := by
  induction j with
  | zero => rfl
  | succ j ih =>
    show store _ (pos + 2 + 2 * j) _ 2 k = _
    rw [store_other (by omega)]
    exact ih (by omega)

theorem putUnits_load (i j m : ℕ) (hm : m < j) :
    load (putUnits buf pos name i j) (pos + 2 + 2 * m) 2 = (unitAt name (i * 15 + m)).toNat := by
  induction j with
  | zero => omega
  | succ j ih =>
    show load (store _ (pos + 2 + 2 * j) (unitAt name (i * 15 + j)).toNat 2) _ 2 = _
    by_cases heq : m = j
    · subst heq
      exact load_store_of_lt (UInt16.toNat_lt _)
    · rw [load_store_apart (by omega)]
      exact ih (by omega)

theorem putNameEntry_other (i : ℕ) (h : k < pos ∨ pos + 32 ≤ k) : putNameEntry buf pos name i k = buf k := by
  unfold putNameEntry
  rw [putUnits_other i _ (by unfold maxDentryNameLen; omega), update_of_ne (by unfold flagsOff; omega),
    update_of_ne (by omega)]

theorem putNameEntry_type (i : ℕ) : putNameEntry buf pos name i pos = exfatEntryFileName := by
  unfold putNameEntry
  rw [putUnits_other i _ (by omega), update_of_ne (by unfold flagsOff; omega), update_self]

theorem putNameEntries_other (n : ℕ) (h : k < pos) : putNameEntries buf pos name n k = buf k := by
  induction n with
  | zero => rfl
  | succ n ih => exact (putNameEntry_other n (by omega)).trans ih

/-- Every name entry is there with its units. -/
theorem putNameEntries_spec (n i : ℕ) (hi : i < n) :
    putNameEntries buf pos name n (pos + 32 * i) = exfatEntryFileName ∧
      ∀ m < 15, load (putNameEntries buf pos name n) (pos + 32 * i + 2 + 2 * m) 2 = (unitAt name (i * 15 + m)).toNat := by
  induction n with
  | zero => omega
  | succ n ih =>
    by_cases heq : i = n
    · subst heq
      exact ⟨putNameEntry_type i, fun m hm => putUnits_load i 15 m hm⟩
    · obtain ⟨htype, hunits⟩ := ih (by omega)
      refine ⟨(putNameEntry_other n (by omega)).trans htype, fun m hm => ?_⟩
      rw [← hunits m hm]
      exact load_congr fun k hk => putNameEntry_other n (by omega)

theorem nameEntries_val (hlen : name.length ≤ 255) : (nameEntries name).toNat = (name.length + 14) / 15 := by
  unfold nameEntries maxDentryNameLen
  exact UInt8.toNat_ofNat_of_lt' (by show _ < 256; omega)

/-- What the set says about the file and its data. -/
structure IsSet (set : Mem) (name : List UInt16) (attr : UInt16) (dataCluster : UInt32) : Prop where
  file : set 0 = exfatEntryFile
  secondary : set 1 = 1 + nameEntries name
  attributes : load set 4 2 = attr.toNat
  stream : set 32 = exfatEntryStream
  nameHash : load set 36 2 = (calcNameHash name).toNat
  startCluster : load set 56 4 = dataCluster.toNat
  types : ∀ i < (nameEntries name).toNat, set (64 + 32 * i) = exfatEntryFileName
  units : ∀ i < (nameEntries name).toNat, ∀ m < 15,
    load set (64 + 32 * i + 2 + 2 * m) 2 = (unitAt name (i * 15 + m)).toNat

/-- A load does not see a byte elsewhere. -/
theorem load_update_apart {b m : ℕ} {v : UInt8} (h : k < b ∨ b + m ≤ k) :
    load (Function.update buf k v) b m = load buf b m :=
  load_congr fun i hi => update_of_ne (by omega) v buf

theorem createEntry_isSet (name : List UInt16) (attr : UInt16) (dataCluster : UInt32) :
    IsSet (createEntry name attr dataCluster) name attr dataCluster := by
  have hattr : attr.toNat < 256 ^ 2 := attr.toNat_lt
  have hhash : (calcNameHash name).toNat < 256 ^ 2 := (calcNameHash name).toNat_lt
  have hcluster : dataCluster.toNat < 256 ^ 4 := dataCluster.toNat_lt
  unfold createEntry
  constructor
  -- the name entries are behind the other two
  case file | secondary | stream =>
    rw [putNameEntries_other _ (by omega)]
    simp [secondaryCountOff, store_other, attributesOff, flagsOff, nameLengthOff, nameHashOff, startClusterOff,
      dataLengthOff]
  case attributes =>
    rw [load_congr fun i hi => putNameEntries_other _ (by omega)]
    simp only [attributesOff, flagsOff, nameLengthOff, nameHashOff, startClusterOff, dataLengthOff]
    rw [load_store_apart (by omega), load_store_apart (by omega), load_store_apart (by omega),
      load_update_apart (by omega), load_update_apart (by omega), load_update_apart (by omega), load_store_of_lt hattr]
  case nameHash =>
    rw [load_congr fun i hi => putNameEntries_other _ (by omega)]
    simp only [nameHashOff, startClusterOff, dataLengthOff]
    rw [load_store_apart (by omega), load_store_apart (by omega), load_store_of_lt hhash]
  case startCluster =>
    rw [load_congr fun i hi => putNameEntries_other _ (by omega)]
    simp only [startClusterOff, dataLengthOff]
    rw [load_store_apart (by omega), load_store_of_lt hcluster]
  case types => exact fun i hi => (putNameEntries_spec _ i hi).1
  case units => exact fun i hi => (putNameEntries_spec _ i hi).2

/-! ## Reading it -/

/-- `n` units of the name are read; the other fields are those of `info₀`. -/
structure HasRead (name : List UInt16) (info₀ : DirInfo) (n : ℕ) (info : DirInfo) : Prop where
  attributes : info.attributes = info₀.attributes
  startCluster : info.startCluster = info₀.startCluster
  nameHash : info.nameHash = info₀.nameHash
  nameLen : info.nameLen.toNat = n
  units : ∀ i < n, info.name i = unitAt name i

variable {info₀ info : DirInfo} {i j : ℕ}

/-- One more unit. -/
theorem HasRead.push (h : HasRead name info₀ k info) (hk : k < 255) {v : ℕ} (hv : v = (unitAt name k).toNat) :
    HasRead name info₀ (k + 1) { info with
      name := Function.update info.name info.nameLen.toNat (UInt16.ofNat v)
      nameLen := info.nameLen + 1 } := by
  have hlen : (info.nameLen + 1).toNat = k + 1 := by
    rw [UInt8.toNat_add, h.nameLen]
    exact Nat.mod_eq_of_lt (by show k + 1 < 256; omega)
  refine ⟨h.attributes, h.startCluster, h.nameHash, hlen, fun i hi => ?_⟩
  show Function.update info.name info.nameLen.toNat (UInt16.ofNat v) i = unitAt name i
  rw [h.nameLen]
  by_cases heq : i = k
  · rw [heq, update_self, hv]
    exact UInt16.ofNat_toNat
  · rw [update_of_ne heq]
    exact h.units i (by omega)

theorem copyUnits_hasRead (h : HasRead name info₀ k info) (hroom : k + n ≤ 255)
    (hunits : ∀ m < n, load buf (pos + 2 + 2 * (j + m)) 2 = (unitAt name (k + m)).toNat) :
    HasRead name info₀ (k + n) (copyUnits buf pos n j info) := by
  induction n generalizing k j info with
  | zero => exact h
  | succ n ih =>
    unfold copyUnits
    rw [if_pos (by rw [h.nameLen]; unfold exfatMaxNameLen; omega), show k + (n + 1) = k + 1 + n by omega]
    refine ih (h.push (by omega) (hunits 0 (Nat.succ_pos n))) (by omega) fun m hm => ?_
    have hunit := hunits (m + 1) (by omega)
    rwa [show j + (m + 1) = j + 1 + m by omega, show k + (m + 1) = k + 1 + m by omega] at hunit

theorem copyNames_hasRead (h : HasRead name info₀ (15 * i) info) (hroom : 15 * (i + n) ≤ 255)
    (hnames : ∀ k < n, buf (pos + 32 * k) = exfatEntryFileName ∧
      ∀ m < 15, load buf (pos + 32 * k + 2 + 2 * m) 2 = (unitAt name ((i + k) * 15 + m)).toNat) :
    HasRead name info₀ (15 * (i + n)) (copyNames buf n pos info) := by
  induction n generalizing i pos info with
  | zero => exact h
  | succ n ih =>
    obtain ⟨htype, hunits⟩ := hnames 0 (Nat.succ_pos n)
    rw [Nat.mul_zero, Nat.add_zero] at htype hunits
    have hread : HasRead name info₀ (15 * (i + 1)) (copyUnits buf pos 15 0 info) := by
      rw [show 15 * (i + 1) = 15 * i + 15 by omega]
      refine copyUnits_hasRead h (by omega) fun m hm => ?_
      rw [Nat.zero_add, Nat.mul_comm 15 i]
      exact hunits m hm
    unfold copyNames
    rw [if_pos (by rw [h.nameLen]; unfold exfatMaxNameLen; omega), if_neg (not_not.mpr htype),
      show i + (n + 1) = i + 1 + n by omega]
    refine ih hread (by omega) fun k hk => ?_
    have hnext := hnames (k + 1) (by omega)
    rwa [show pos + 32 * (k + 1) = pos + 32 + 32 * k by omega, show i + (k + 1) = i + 1 + k by omega] at hnext

/-- A number of the set is read where the set lies. -/
theorem LiesAt.load (h : LiesAt buf offset set n) {a m : ℕ} (ham : a + m ≤ n) :
    Memory.load buf (offset + a) m = Memory.load set a m :=
  load_shift fun i hi => by rw [Nat.add_assoc]; exact h (a + i) (by omega)

/-- One name entry less than there are is read. -/
theorem copyNames_loses {e : ℕ} (h : HasRead name info₀ 0 info) (hhash : info₀.nameHash = calcNameHash name)
    (hentries : (nameEntries name).toNat = e + 1) (hroom : 15 * e ≤ 255)
    (hnames : ∀ k < e, buf (pos + 32 * k) = exfatEntryFileName ∧
      ∀ m < 15, load buf (pos + 32 * k + 2 + 2 * m) 2 = (unitAt name (k * 15 + m)).toNat) :
    LosesEnd name info₀.attributes info₀.startCluster (0, copyNames buf e pos info) := by
  have hread : HasRead name info₀ (15 * (0 + e)) (copyNames buf e pos info) := by
    refine copyNames_hasRead h (by omega) fun k hk => ?_
    rw [Nat.zero_add]
    exact hnames k hk
  rw [Nat.zero_add] at hread
  unfold LosesEnd maxDentryNameLen
  rw [hentries, Nat.add_sub_cancel]
  exact ⟨rfl, hread.attributes, hread.startCluster, hread.nameHash.trans hhash, hread.nameLen, hread.units⟩

/-- The name entries are read but for the last. -/
theorem readFileEntrySet_loses (hset : IsSet set name attr dataCluster) (h0 : 0 < name.length)
    (hlen : name.length ≤ 255) (hlies : LiesAt buf offset set (setBytes name)) (info : DirInfo) :
    LosesEnd name attr dataCluster (readFileEntrySet buf offset info) := by
  have hentries := nameEntries_val hlen
  have hbytes : setBytes name = 32 * (2 + (name.length + 14) / 15) := by unfold setBytes; rw [hentries]
  obtain ⟨e, he⟩ : ∃ e, (name.length + 14) / 15 = e + 1 := ⟨(name.length + 14) / 15 - 1, by omega⟩
  rw [he] at hentries hbytes
  have hsecondary : (1 + nameEntries name).toNat = e + 2 := by
    rw [UInt8.toNat_add, hentries]
    show (1 + (e + 1)) % 256 = e + 2
    omega
  have hfile : buf offset = exfatEntryFile := (hlies 0 (by omega)).trans hset.file
  have hcount : buf (offset + secondaryCountOff) = 1 + nameEntries name :=
    (hlies 1 (by omega)).trans hset.secondary
  have hstream : buf (offset + 32) = exfatEntryStream := (hlies 32 (by omega)).trans hset.stream
  have hattr : Memory.load buf (offset + attributesOff) 2 = attr.toNat :=
    (hlies.load (a := 4) (by omega)).trans hset.attributes
  have hhash : Memory.load buf (offset + 32 + nameHashOff) 2 = (calcNameHash name).toNat :=
    (hlies.load (a := 36) (by omega)).trans hset.nameHash
  have hcluster : Memory.load buf (offset + 32 + startClusterOff) 4 = dataCluster.toNat :=
    (hlies.load (a := 56) (by omega)).trans hset.startCluster
  unfold readFileEntrySet
  rw [if_neg (not_not.mpr hfile)]
  simp only
  rw [if_neg (not_not.mpr hstream), hcount, hsecondary, hattr, hhash, hcluster, UInt16.ofNat_toNat,
    UInt16.ofNat_toNat, UInt32.ofNat_toNat]
  refine copyNames_loses ⟨rfl, rfl, rfl, rfl, fun i hi => absurd hi (Nat.not_lt_zero i)⟩ rfl hentries (by omega)
    fun k hk => ⟨?_, fun m hm => ?_⟩
  · rw [show offset + 32 + 32 + 32 * k = offset + (64 + 32 * k) by omega, hlies _ (by omega)]
    exact hset.types k (by omega)
  · rw [show offset + 32 + 32 + 32 * k + 2 + 2 * m = offset + (64 + 32 * k + 2 + 2 * m) by omega,
      hlies.load (by omega)]
    exact hset.units k (by omega) m hm

/-- In an entry set the last name entry is not read, and so the name is not what it was. -/
theorem entry_sets_lose_end (name : List UInt16) (attr : UInt16) (dataCluster : UInt32) (buf : Mem) (offset : ℕ)
    (info : DirInfo) (h0 : 0 < name.length) (hlen : name.length ≤ exfatMaxNameLen)
    (hlies : LiesAt buf offset (createEntry name attr dataCluster) (setBytes name)) :
    LosesEnd name attr dataCluster (readFileEntrySet buf offset info) ∧
      ¬RoundTrips name attr dataCluster (readFileEntrySet buf offset info) := by
  have hloses := readFileEntrySet_loses (createEntry_isSet name attr dataCluster) h0 hlen hlies info
  refine ⟨hloses, fun hround => ?_⟩
  have hread : (readFileEntrySet buf offset info).2.nameLen.toNat = _ := hloses.2.2.2.2.1
  rw [hround.2.2.2.2.1, nameEntries_val hlen] at hread
  unfold maxDentryNameLen at hread
  omega

def noInfo : DirInfo := ⟨0, 0, 0, 0, 0, 0, 0, 0, fun _ => 0⟩

theorem entry_sets_lose_end_one :
    LosesEnd [97] 0x20 5 (readFileEntrySet (createEntry [97] 0x20 5) 0 noInfo) ∧
      ¬RoundTrips [97] 0x20 5 (readFileEntrySet (createEntry [97] 0x20 5) 0 noInfo) :=
  entry_sets_lose_end [97] 0x20 5 _ 0 noInfo (by decide) (by decide) fun k _ => congrArg _ (Nat.zero_add k)

/-- Of a name of one unit nothing is read. -/
theorem one_unit_lost :
    (readFileEntrySet (createEntry [97] 0x20 5) 0 noInfo).2.nameLen = 0 ∧
      ¬RoundTrips [97] 0x20 5 (readFileEntrySet (createEntry [97] 0x20 5) 0 noInfo) := by
  have hread : (readFileEntrySet (createEntry [97] 0x20 5) 0 noInfo).2.nameLen = 0 := by decide
  refine ⟨hread, fun hround => ?_⟩
  have hlen := hround.2.2.2.2.1
  rw [hread] at hlen
  exact absurd hlen (by decide)

end Exfat
