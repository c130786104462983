import Kenux.Lib.Memory

/-!
# Loading portable executables (`arch/x86_64/pe.c`)

The file and the image are buffers of known sizes. The functions do not check where they read and write: `none` is an
access outside of both, behind which nothing is known. `resolve_func` is a parameter.
-/

namespace Pe

open Memory

def imageDosSignature : ℕ := 0x5A4D

def imageNtSignature : ℕ := 0x00004550

def imageNtOptionalHdr64Magic : ℕ := 0x020B

def imageFileMachineAmd64 : ℕ := 0x8664

def imageDirectoryEntryImport : ℕ := 1

def imageDirectoryEntryBasereloc : ℕ := 5

def imageRelBasedDir64 : ℕ := 10

/-- `sizeof(IMAGE_DOS_HEADER)` -/
def dosHeaderSize : ℕ := 64

/-- `sizeof(IMAGE_NT_HEADERS64)` -/
def ntHeadersSize : ℕ := 264

/-- The number in `k` bytes of a buffer of `n` bytes. -/
def readIn (n : ℕ) (m : Mem) (o k : ℕ) : Option ℕ := if o + k ≤ n then some (load m o k) else none

def putIn (n : ℕ) (m : Mem) (o v k : ℕ) : Option Mem := if o + k ≤ n then some (store m o v k) else none

/-- `memset` with zeros. -/
def clearIn (n : ℕ) (m : Mem) (o k : ℕ) : Option Mem :=
  if k = 0 ∨ o + k ≤ n then some (copy m o (fun _ => 0) 0 k) else none

/-- `memcpy` from a buffer of `size` bytes. -/
def copyIn (n : ℕ) (m : Mem) (o size : ℕ) (src : Mem) (s k : ℕ) : Option Mem :=
  if o + k ≤ n ∧ s + k ≤ size then some (copy m o src s k) else none

variable (file : Mem) (size : ℕ)

/-- `pe_validate`: whether the result is 0. -/
def peValidate : Option Bool :=
  if size < dosHeaderSize then some false
  else do
    let magic ← readIn size file 0 2
    if magic ≠ imageDosSignature then some false
    else do
      let nt ← readIn size file 60 4
      if nt + ntHeadersSize > size then some false
      else do
        let signature ← readIn size file nt 4
        if signature ≠ imageNtSignature then some false
        else do
          let magic ← readIn size file (nt + 24) 2
          if magic ≠ imageNtOptionalHdr64Magic then some false
          else do
            let machine ← readIn size file (nt + 4) 2
            some (machine = imageFileMachineAmd64)

/-- `pe_get_image_base` -/
def peGetImageBase : Option UInt64 := do
  let nt ← readIn size file 60 4
  let base ← readIn size file (nt + 24 + 24) 8
  some (UInt64.ofNat base)

/-- `pe_get_rva`: the address and the size of a directory. -/
def peGetRva (directoryIndex : ℕ) : Option (ℕ × ℕ) := do
  let nt ← readIn size file 60 4
  let dirSize ← readIn size file (nt + 24 + 112 + 8 * directoryIndex + 4) 4
  let rva ← readIn size file (nt + 24 + 112 + 8 * directoryIndex) 4
  some (rva, dirSize)

/-- One round of `pe_load_sections`, for the section header at `sec`. -/
def loadSection (n sec : ℕ) (img : Mem) : Option Mem := do
  let virtualSize ← readIn size file (sec + 8) 4
  let rawSize ← readIn size file (sec + 16) 4
  let virtualSize := if virtualSize = 0 then rawSize else virtualSize
  let clearSize := if virtualSize > rawSize then virtualSize else rawSize
  let dest ← readIn size file (sec + 12) 4
  let img ← clearIn n img dest clearSize
  if rawSize > 0 then do
    let src ← readIn size file (sec + 20) 4
    copyIn n img dest size file src rawSize
  else some img

def loadSections (n : ℕ) : ℕ → ℕ → Mem → Option Mem
  | 0, _, img => some img
  | k + 1, sec, img => do
    let img ← loadSection file size n sec img
    loadSections n k (sec + 40) img

/-- `pe_load_sections`, for an image of `n` bytes. -/
def peLoadSections (n : ℕ) (img : Mem) : Option Mem := do
  let nt ← readIn size file 60 4
  let numSections ← readIn size file (nt + 6) 2
  let optional ← readIn size file (nt + 20) 2
  loadSections file size n numSections (nt + 24 + optional) img

/-- The loop over the entries of the block at `block`; `k` are left, the next one at `pos`. -/
def applyEntries (n : ℕ) (delta : UInt64) (block : ℕ) : ℕ → ℕ → Mem → Option Mem
  | 0, _, img => some img
  | k + 1, pos, img => do
    let entry ← readIn n img pos 2
    if entry / 4096 = imageRelBasedDir64 then do
      let page ← readIn n img block 4
      let word ← readIn n img (page + entry % 4096) 8
      let img ← putIn n img (page + entry % 4096) (word + delta.toNat) 8
      applyEntries n delta block k (pos + 2) img
    else applyEntries n delta block k (pos + 2) img

/-- `(SizeOfBlock - 8) / 2`, where the difference wraps in 32 bits. -/
def entryCount (sizeOfBlock : ℕ) : ℕ :=
  if sizeOfBlock < 8 then (2 ^ 32 + sizeOfBlock - 8) / 2 else (sizeOfBlock - 8) / 2

theorem of_readIn {n o k v : ℕ} {m : Mem} (h : readIn n m o k = some v) : o + k ≤ n ∧ load m o k = v := by
  unfold readIn at h
  split_ifs at h with hle
  exact ⟨hle, Option.some.inj h⟩

/-- The loop over the blocks. The size is read again at the end of a round. -/
def relocLoop (n : ℕ) (delta : UInt64) (img : Mem) (block : ℕ) : Option Mem :=
  match _hread : readIn n img block 4 with
  | none => none
  | some page =>
    if page = 0 then some img
    else
      match readIn n img (block + 4) 4 with
      | none => none
      | some sizeOfBlock =>
        if sizeOfBlock = 0 then some img
        else
          match applyEntries n delta block (entryCount sizeOfBlock) (block + 8) img with
          | none => none
          | some img =>
            match readIn n img (block + 4) 4 with
            | none => none
            | some sizeOfBlock =>
              if _hsize : sizeOfBlock = 0 then some img else relocLoop n delta img (block + sizeOfBlock)
termination_by n - block
decreasing_by
  have hle := (of_readIn _hread).1
  omega

/-- `pe_apply_relocations` -/
def peApplyRelocations (n : ℕ) (img : Mem) (actualBase : UInt64) : Option Mem := do
  let preferred ← peGetImageBase file size
  let delta := actualBase - preferred
  if delta = 0 then some img
  else do
    let (relocRva, _) ← peGetRva file size imageDirectoryEntryBasereloc
    if relocRva = 0 then some img else relocLoop n delta img relocRva

/-- `resolve_func`: it gets the offsets of the names in the image. -/
abbrev Resolver := Mem → ℕ → Option ℕ → UInt16 → UInt64

/-- What the name or number in a thunk is resolved to. -/
def resolveThunk (resolve : Resolver) (img : Mem) (dllName thunk : ℕ) : UInt64 :=
  if thunk / 2 ^ 63 = 1 then resolve img dllName none (UInt16.ofNat thunk)
  else resolve img dllName (some ((thunk + 2) % 2 ^ 64)) 0

/-- The loop over the thunks of a library. -/
def thunkLoop (n : ℕ) (resolve : Resolver) (dllName : ℕ) (img : Mem) (thunk iat : ℕ) : Option Mem :=
  match _hread : readIn n img thunk 8 with
  | none => none
  | some word =>
    if word = 0 then some img
    else
      match putIn n img iat (resolveThunk resolve img dllName word).toNat 8 with
      | none => none
      | some img => thunkLoop n resolve dllName img (thunk + 8) (iat + 8)
termination_by n - thunk
decreasing_by
  have hle := (of_readIn _hread).1
  omega

/-- The loop over the libraries. -/
def importLoop (n : ℕ) (resolve : Resolver) (img : Mem) (desc : ℕ) : Option Mem :=
  match _hread : readIn n img (desc + 12) 4 with
  | none => none
  | some name =>
    if name = 0 then some img
    else
      match readIn n img desc 4 with
      | none => none
      | some original =>
        match readIn n img (desc + 16) 4 with
        | none => none
        | some first =>
          match thunkLoop n resolve name img (if original ≠ 0 then original else first) first with
          | none => none
          | some img => importLoop n resolve img (desc + 20)
termination_by n - desc
decreasing_by
  have hle := (of_readIn _hread).1
  omega

/-- `pe_resolve_imports` -/
def peResolveImports (n : ℕ) (img : Mem) (resolve : Resolver) : Option Mem := do
  let (importRva, _) ← peGetRva file size imageDirectoryEntryImport
  if importRva = 0 then some img else importLoop n resolve img importRva

end Pe

/-!
## Where the loader of portable executables reads and writes

A table is walked to a zero that the file or the image has to have. The relocation directory has a size, but the walk
goes on to the zero; so the directory is applied as it is if a zero stands right behind it.
-/

namespace Pe

open Memory

/-- Where the headers are. -/
def ntAt (file : Mem) : ℕ := load file 60 4

def imageBase (file : Mem) : UInt64 := UInt64.ofNat (load file (ntAt file + 48) 8)

def sizeOfImage (file : Mem) : ℕ := load file (ntAt file + 80) 4

def numberOfSections (file : Mem) : ℕ := load file (ntAt file + 6) 2

/-- The section header at place `i`. -/
def sectionAt (file : Mem) (i : ℕ) : ℕ := ntAt file + 24 + load file (ntAt file + 20) 2 + 40 * i

/-- The address of a directory. -/
def dirRva (file : Mem) (index : ℕ) : ℕ := load file (ntAt file + 136 + 8 * index) 4

def dirSize (file : Mem) (index : ℕ) : ℕ := load file (ntAt file + 140 + 8 * index) 4

/-- `pe_validate` takes the file. -/
def Accepted (file : Mem) (size : ℕ) : Prop := peValidate file size = some true

/-- The section header at `sec` and its data lie in the file, and the section lies in an image of `n` bytes. -/
def SectionFits (file : Mem) (size n sec : ℕ) : Prop :=
  sec + 20 ≤ size ∧
    (max (load file (sec + 8) 4) (load file (sec + 16) 4) = 0 ∨
      load file (sec + 12) 4 + max (load file (sec + 8) 4) (load file (sec + 16) 4) ≤ n) ∧
    (0 < load file (sec + 16) 4 → sec + 24 ≤ size ∧ load file (sec + 20) 4 + load file (sec + 16) 4 ≤ size)

/-- The entries of a block and the words that they name lie in the image; the last place is the image after them. -/
inductive EntriesFit (n : ℕ) (delta : UInt64) (block : ℕ) : ℕ → ℕ → Mem → Mem → Prop where
  | nil {pos : ℕ} {img : Mem} : EntriesFit n delta block 0 pos img img
  | other {k pos : ℕ} {img img' : Mem} (hpos : pos + 2 ≤ n) (htype : load img pos 2 / 4096 ≠ imageRelBasedDir64)
      (hrest : EntriesFit n delta block k (pos + 2) img img') : EntriesFit n delta block (k + 1) pos img img'
  | dir64 {k pos : ℕ} {img img' : Mem} (hpos : pos + 2 ≤ n) (htype : load img pos 2 / 4096 = imageRelBasedDir64)
      (hblock : block + 4 ≤ n) (hword : load img block 4 + load img pos 2 % 4096 + 8 ≤ n)
      (hrest : EntriesFit n delta block k (pos + 2) (store img (load img block 4 + load img pos 2 % 4096)
        (load img (load img block 4 + load img pos 2 % 4096) 8 + delta.toNat) 8) img') :
      EntriesFit n delta block (k + 1) pos img img'

/-- The blocks lie in the image, and behind them there is a zero. -/
inductive BlocksFit (n : ℕ) (delta : UInt64) : Mem → ℕ → Mem → Prop where
  | page {img : Mem} {block : ℕ} (hin : block + 4 ≤ n) (hpage : load img block 4 = 0) : BlocksFit n delta img block img
  | size {img : Mem} {block : ℕ} (hin : block + 8 ≤ n) (hpage : load img block 4 ≠ 0)
      (hsize : load img (block + 4) 4 = 0) : BlocksFit n delta img block img
  | last {img img' : Mem} {block : ℕ} (hin : block + 8 ≤ n) (hpage : load img block 4 ≠ 0)
      (hsize : 8 ≤ load img (block + 4) 4)
      (hentries : EntriesFit n delta block ((load img (block + 4) 4 - 8) / 2) (block + 8) img img')
      (hend : load img' (block + 4) 4 = 0) : BlocksFit n delta img block img'
  | next {img img₁ img' : Mem} {block : ℕ} (hin : block + 8 ≤ n) (hpage : load img block 4 ≠ 0)
      (hsize : 8 ≤ load img (block + 4) 4)
      (hentries : EntriesFit n delta block ((load img (block + 4) 4 - 8) / 2) (block + 8) img img₁)
      (hmore : load img₁ (block + 4) 4 ≠ 0) (hrest : BlocksFit n delta img₁ (block + load img₁ (block + 4) 4) img') :
      BlocksFit n delta img block img'

/-- The thunks and the addresses that they get lie in the image, and behind the thunks there is a zero. -/
inductive ThunksFit (n : ℕ) (resolve : Resolver) (dllName : ℕ) : Mem → ℕ → ℕ → Mem → Prop where
  | nil {img : Mem} {thunk iat : ℕ} (hin : thunk + 8 ≤ n) (hzero : load img thunk 8 = 0) :
      ThunksFit n resolve dllName img thunk iat img
  | cons {img img' : Mem} {thunk iat : ℕ} (hin : thunk + 8 ≤ n) (hword : load img thunk 8 ≠ 0) (hiat : iat + 8 ≤ n)
      (hrest : ThunksFit n resolve dllName
        (store img iat (resolveThunk resolve img dllName (load img thunk 8)).toNat 8) (thunk + 8) (iat + 8) img') :
      ThunksFit n resolve dllName img thunk iat img'

/-- The descriptors of libraries and their thunks lie in the image, and behind the descriptors there is a zero. -/
inductive ImportsFit (n : ℕ) (resolve : Resolver) : Mem → ℕ → Mem → Prop where
  | nil {img : Mem} {desc : ℕ} (hin : desc + 16 ≤ n) (hzero : load img (desc + 12) 4 = 0) :
      ImportsFit n resolve img desc img
  | cons {img img₁ img' : Mem} {desc : ℕ} (hin : desc + 20 ≤ n) (hname : load img (desc + 12) 4 ≠ 0)
      (hthunks : ThunksFit n resolve (load img (desc + 12) 4) img
        (if load img desc 4 ≠ 0 then load img desc 4 else load img (desc + 16) 4) (load img (desc + 16) 4) img₁)
      (hrest : ImportsFit n resolve img₁ (desc + 20) img') : ImportsFit n resolve img desc img'

variable {file img img' : Mem} {size n k pos block thunk iat desc dllName sec : ℕ} {delta : UInt64} {resolve : Resolver}

/-! ## Headers -/

theorem readIn_of_le {m : Mem} {o : ℕ} (h : o + k ≤ n) : readIn n m o k = some (load m o k) := if_pos h

theorem readIn_of_not_le {m : Mem} {o : ℕ} (h : ¬o + k ≤ n) : readIn n m o k = none := if_neg h

/-- The headers of a file that is taken lie in it. -/
theorem Accepted.headers (h : Accepted file size) : dosHeaderSize ≤ size ∧ ntAt file + ntHeadersSize ≤ size := by
  unfold Accepted peValidate at h
  by_cases hsize : size < dosHeaderSize
  · rw [if_pos hsize] at h
    exact absurd h (by decide)
  have hdos : 64 ≤ size := Nat.not_lt.mp hsize
  rw [if_neg hsize, readIn_of_le (by omega), Option.bind_eq_bind, Option.bind_some] at h
  split_ifs at h with hmagic
  · exact absurd h (by decide)
  rw [readIn_of_le (by omega), Option.bind_some] at h
  split_ifs at h with hnt
  · exact absurd h (by decide)
  exact ⟨hdos, Nat.not_lt.mp hnt⟩

theorem read_nt (h : Accepted file size) : readIn size file 60 4 = some (ntAt file) := by
  obtain ⟨hdos, -⟩ := h.headers
  exact readIn_of_le hdos

theorem peGetImageBase_eq (h : Accepted file size) : peGetImageBase file size = some (imageBase file) := by
  obtain ⟨-, hnt⟩ := h.headers
  unfold ntHeadersSize at hnt
  unfold peGetImageBase
  rw [read_nt h, Option.bind_eq_bind, Option.bind_some, readIn_of_le (by omega)]
  rfl

theorem peGetRva_eq (h : Accepted file size) {index : ℕ} (hindex : index < 16) :
    peGetRva file size index = some (dirRva file index, dirSize file index) := by
  obtain ⟨-, hnt⟩ := h.headers
  have hrva : ntAt file + 24 + 112 + 8 * index = ntAt file + 136 + 8 * index := by omega
  have hsize : ntAt file + 24 + 112 + 8 * index + 4 = ntAt file + 140 + 8 * index := by omega
  unfold ntHeadersSize at hnt
  unfold peGetRva
  rw [read_nt h, Option.bind_eq_bind, Option.bind_some, readIn_of_le (by omega), readIn_of_le (by omega), hsize, hrva]
  rfl

/-! ## Sections -/

theorem clearIn_isSome {m : Mem} {o : ℕ} : (clearIn n m o k).isSome ↔ k = 0 ∨ o + k ≤ n := by
  unfold clearIn
  split_ifs with h
  · exact iff_of_true rfl h
  · exact iff_of_false (by simp) h

theorem copyIn_isSome {m src : Mem} {o s : ℕ} : (copyIn n m o size src s k).isSome ↔ o + k ≤ n ∧ s + k ≤ size := by
  unfold copyIn
  split_ifs with h
  · exact iff_of_true rfl h
  · exact iff_of_false (by simp) h

theorem loadSection_isSome : (loadSection file size n sec img).isSome ↔ SectionFits file size n sec := by
  unfold SectionFits
  by_cases hheader : sec + 20 ≤ size
  swap
  · refine iff_of_false ?_ fun h => hheader h.1
    unfold loadSection
    simp only [Option.bind_eq_bind]
    by_cases hraw : sec + 16 + 4 ≤ size
    · exact absurd (by omega) hheader
    · rw [readIn_of_not_le hraw]
      cases readIn size file (sec + 8) 4 <;> simp
  have hclear : (if (if load file (sec + 8) 4 = 0 then load file (sec + 16) 4 else load file (sec + 8) 4) >
      load file (sec + 16) 4 then
        if load file (sec + 8) 4 = 0 then load file (sec + 16) 4 else load file (sec + 8) 4
      else load file (sec + 16) 4) = max (load file (sec + 8) 4) (load file (sec + 16) 4) := by
    split_ifs <;> omega
  unfold loadSection
  simp only [Option.bind_eq_bind]
  rw [readIn_of_le (by omega), Option.bind_some, readIn_of_le (by omega), Option.bind_some, hclear,
    readIn_of_le (by omega), Option.bind_some]
  have hcleared := clearIn_isSome (n := n) (m := img) (o := load file (sec + 12) 4)
    (k := max (load file (sec + 8) 4) (load file (sec + 16) 4))
  cases hmem : clearIn n img (load file (sec + 12) 4) (max (load file (sec + 8) 4) (load file (sec + 16) 4)) with
  | none =>
    rw [hmem] at hcleared
    exact iff_of_false (by simp) fun h => absurd (hcleared.mpr h.2.1) (by simp)
  | some m =>
    rw [hmem] at hcleared
    have hin := hcleared.mp rfl
    rw [Option.bind_some]
    split_ifs with hraw
    · by_cases hptr : sec + 20 + 4 ≤ size
      · rw [readIn_of_le hptr, Option.bind_some, copyIn_isSome]
        have hdest : load file (sec + 12) 4 + load file (sec + 16) 4 ≤ n := by omega
        constructor
        · rintro ⟨-, hsrc⟩
          exact ⟨hheader, hin, fun _ => ⟨by omega, hsrc⟩⟩
        · rintro ⟨-, -, hsrc⟩
          exact ⟨hdest, (hsrc hraw).2⟩
      · rw [readIn_of_not_le hptr]
        refine iff_of_false (by simp) fun h => hptr ?_
        have := (h.2.2 hraw).1
        omega
    · exact iff_of_true rfl ⟨hheader, hin, fun hpos => absurd hpos hraw⟩

theorem loadSections_isSome : (loadSections file size n k sec img).isSome ↔
    ∀ i < k, SectionFits file size n (sec + 40 * i) := by
  induction k generalizing sec img with
  | zero => exact iff_of_true rfl fun i hi => absurd hi (Nat.not_lt_zero i)
  | succ k ih =>
    have hfirst : (loadSection file size n sec img).isSome ↔ SectionFits file size n sec := loadSection_isSome
    have hnext : ∀ i, sec + 40 * (i + 1) = sec + 40 + 40 * i := fun i => by omega
    unfold loadSections
    rw [Option.bind_eq_bind]
    cases hload : loadSection file size n sec img with
    | none =>
      rw [hload] at hfirst
      exact iff_of_false (by simp) fun h => absurd (hfirst.mpr (h 0 (Nat.succ_pos k))) (by simp)
    | some m =>
      rw [hload] at hfirst
      rw [Option.bind_some, ih]
      constructor
      · intro h i hi
        cases i with
        | zero => exact hfirst.mp rfl
        | succ i =>
          rw [hnext]
          exact h i (Nat.lt_of_succ_lt_succ hi)
      · intro h i hi
        rw [← hnext]
        exact h (i + 1) (Nat.succ_lt_succ hi)

theorem peLoadSections_isSome (h : Accepted file size) : (peLoadSections file size n img).isSome ↔
    ∀ i < numberOfSections file, SectionFits file size n (sectionAt file i) := by
  obtain ⟨-, hnt⟩ := h.headers
  unfold ntHeadersSize at hnt
  unfold peLoadSections
  simp only [Option.bind_eq_bind]
  rw [read_nt h, Option.bind_some, readIn_of_le (by omega), Option.bind_some, readIn_of_le (by omega),
    Option.bind_some]
  exact loadSections_isSome

/-! ## Relocations -/

/-- The loop over entries comes to an image exactly if the entries fit. -/
theorem applyEntries_iff : applyEntries n delta block k pos img = some img' ↔
    EntriesFit n delta block k pos img img' := by
  induction k generalizing pos img with
  | zero =>
    constructor
    · intro h
      obtain rfl : img = img' := Option.some.inj h
      exact .nil
    · rintro ⟨⟩
      rfl
  | succ k ih =>
    unfold applyEntries
    simp only [Option.bind_eq_bind]
    by_cases hpos : pos + 2 ≤ n
    swap
    · rw [readIn_of_not_le hpos]
      refine iff_of_false (by simp) fun h => ?_
      cases h with
      | other hin _ _ => exact hpos hin
      | dir64 hin _ _ _ _ => exact hpos hin
    rw [readIn_of_le hpos, Option.bind_some]
    split_ifs with htype
    · by_cases hblock : block + 4 ≤ n
      swap
      · rw [readIn_of_not_le hblock]
        refine iff_of_false (by simp) fun h => ?_
        cases h with
        | other _ hother _ => exact hother htype
        | dir64 _ _ hin _ _ => exact hblock hin
      rw [readIn_of_le hblock, Option.bind_some]
      by_cases hword : load img block 4 + load img pos 2 % 4096 + 8 ≤ n
      swap
      · rw [readIn_of_not_le hword]
        refine iff_of_false (by simp) fun h => ?_
        cases h with
        | other _ hother _ => exact hother htype
        | dir64 _ _ _ hin _ => exact hword hin
      rw [readIn_of_le hword, Option.bind_some]
      unfold putIn
      rw [if_pos hword, Option.bind_some, ih]
      constructor
      · exact fun h => .dir64 hpos htype hblock hword h
      · intro h
        cases h with
        | other _ hother _ => exact absurd htype hother
        | dir64 _ _ _ _ hrest => exact hrest
    · rw [ih]
      constructor
      · exact fun h => .other hpos htype h
      · intro h
        cases h with
        | other _ _ hrest => exact hrest
        | dir64 _ hdir _ _ _ => exact absurd hdir htype

/-- The entries that are walked lie in the image. -/
theorem EntriesFit.inImage (h : EntriesFit n delta block k pos img img') (hk : 0 < k) : pos + 2 * k ≤ n := by
  induction h with
  | nil => exact absurd hk (Nat.lt_irrefl 0)
  | @other k pos _ _ hpos _ _ ih =>
    rcases Nat.eq_zero_or_pos k with rfl | hpos'
    · omega
    · have := ih hpos'
      omega
  | @dir64 k pos _ _ hpos _ _ _ _ ih =>
    rcases Nat.eq_zero_or_pos k with rfl | hpos'
    · omega
    · have := ih hpos'
      omega

/-- A block whose size is less than its header's runs out of the image. -/
theorem applyEntries_small {m : ℕ} (hn : n < 2 ^ 32) (hm : m < 8) :
    applyEntries n delta block (entryCount m) (block + 8) img = none := by
  cases hrun : applyEntries n delta block (entryCount m) (block + 8) img with
  | none => rfl
  | some img' =>
    have hcount : entryCount m = (2 ^ 32 + m - 8) / 2 := if_pos hm
    have hin := (applyEntries_iff.mp hrun).inImage (by omega)
    omega

theorem entryCount_of_le {m : ℕ} (hm : 8 ≤ m) : entryCount m = (m - 8) / 2 := if_neg (Nat.not_lt.mpr hm)

theorem of_readIn_none {m : Mem} {o : ℕ} (h : readIn n m o k = none) : ¬o + k ≤ n := by
  unfold readIn at h
  split_ifs at h with hle
  exact hle

/-- The loop over blocks comes to an image exactly if the blocks fit. -/
theorem relocLoop_iff (hn : n < 2 ^ 32) : relocLoop n delta img block = some img' ↔
    BlocksFit n delta img block img' := by
  fun_induction relocLoop n delta img block with
  | case1 img block hread =>
    have hout := of_readIn_none hread
    refine iff_of_false (by simp) fun h => ?_
    cases h <;> omega
  | case2 img block hread =>
    obtain ⟨hin, hpage⟩ := of_readIn hread
    constructor
    · intro h
      obtain rfl : img = img' := Option.some.inj h
      exact .page hin hpage
    · rintro (_ | ⟨-, hother, -⟩ | ⟨-, hother, -, -, -⟩ | ⟨-, hother, -, -, -, -⟩)
      · rfl
      all_goals exact absurd hpage hother
  | case3 img block page hread hpage hsize =>
    obtain ⟨-, rfl⟩ := of_readIn hread
    have hout := of_readIn_none hsize
    refine iff_of_false (by simp) fun h => ?_
    cases h with
    | page _ hzero => exact hpage hzero
    | size hin => omega
    | last hin => omega
    | next hin => omega
  | case4 img block page hread hpage hsize =>
    obtain ⟨-, rfl⟩ := of_readIn hread
    obtain ⟨hin, hzero⟩ := of_readIn hsize
    constructor
    · intro h
      obtain rfl : img = img' := Option.some.inj h
      exact .size hin hpage hzero
    · intro h
      cases h with
      | page _ hother => exact absurd hother hpage
      | size => rfl
      | last _ _ hother => omega
      | next _ _ hother => omega
  | case5 img block page hread hpage m hsize hm hentries =>
    obtain ⟨-, rfl⟩ := of_readIn hread
    obtain ⟨-, rfl⟩ := of_readIn hsize
    have hnone : ∀ img₁, 8 ≤ load img (block + 4) 4 →
        ¬EntriesFit n delta block ((load img (block + 4) 4 - 8) / 2) (block + 8) img img₁ := by
      intro img₁ hle hfit
      rw [entryCount_of_le hle, applyEntries_iff.mpr hfit] at hentries
      exact Option.some_ne_none _ hentries
    refine iff_of_false (by simp) fun h => ?_
    cases h with
    | page _ hzero => exact hpage hzero
    | size _ _ hzero => exact hm hzero
    | last _ _ hle hfit => exact hnone _ hle hfit
    | next _ _ hle hfit => exact hnone _ hle hfit
  | case6 img block page hread hpage m hsize hm img₁ hentries hagain =>
    have hin := (of_readIn hsize).1
    exact absurd hin (of_readIn_none hagain)
  | case7 img block page hread hpage m hsize hm img₁ hentries hagain =>
    obtain ⟨-, rfl⟩ := of_readIn hread
    obtain ⟨hin, rfl⟩ := of_readIn hsize
    obtain ⟨-, hend⟩ := of_readIn hagain
    have hle : 8 ≤ load img (block + 4) 4 := by
      refine Nat.not_lt.mp fun hlt => ?_
      rw [applyEntries_small hn hlt] at hentries
      exact Option.some_ne_none _ hentries.symm
    rw [entryCount_of_le hle] at hentries
    constructor
    · intro h
      obtain rfl : img₁ = img' := Option.some.inj h
      exact .last hin hpage hle (applyEntries_iff.mp hentries) hend
    · intro h
      cases h with
      | page _ hzero => exact absurd hzero hpage
      | size _ _ hzero => exact absurd hzero hm
      | last _ _ _ hfit => rw [← hentries, applyEntries_iff.mpr hfit]
      | next _ _ _ hfit hmore =>
        rw [applyEntries_iff.mpr hfit] at hentries
        obtain rfl := Option.some.inj hentries
        exact absurd hend hmore
  | case8 img block page hread hpage m hsize hm img₁ hentries m' hagain hmore ih =>
    obtain ⟨-, rfl⟩ := of_readIn hread
    obtain ⟨hin, rfl⟩ := of_readIn hsize
    obtain ⟨-, rfl⟩ := of_readIn hagain
    have hle : 8 ≤ load img (block + 4) 4 := by
      refine Nat.not_lt.mp fun hlt => ?_
      rw [applyEntries_small hn hlt] at hentries
      exact Option.some_ne_none _ hentries.symm
    rw [entryCount_of_le hle] at hentries
    rw [ih]
    constructor
    · exact fun h => .next hin hpage hle (applyEntries_iff.mp hentries) hmore h
    · intro h
      cases h with
      | page _ hzero => exact absurd hzero hpage
      | size _ _ hzero => exact absurd hzero hm
      | last _ _ _ hfit hend =>
        rw [applyEntries_iff.mpr hfit] at hentries
        obtain rfl := Option.some.inj hentries
        exact absurd hend hmore
      | next _ _ _ hfit _ hrest =>
        rw [applyEntries_iff.mpr hfit] at hentries
        obtain rfl := Option.some.inj hentries
        exact hrest

/-! ## Imports -/

theorem of_putIn {m m' : Mem} {o v : ℕ} (h : putIn n m o v k = some m') : o + k ≤ n ∧ store m o v k = m' := by
  unfold putIn at h
  split_ifs at h with hle
  exact ⟨hle, Option.some.inj h⟩

/-- The loop over thunks comes to an image exactly if the thunks fit. -/
theorem thunkLoop_iff : thunkLoop n resolve dllName img thunk iat = some img' ↔
    ThunksFit n resolve dllName img thunk iat img' := by
  fun_induction thunkLoop n resolve dllName img thunk iat with
  | case1 img thunk iat hread =>
    have hout := of_readIn_none hread
    refine iff_of_false (by simp) fun h => ?_
    cases h <;> exact hout ‹_›
  | case2 img thunk iat hread =>
    obtain ⟨hin, hzero⟩ := of_readIn hread
    constructor
    · intro h
      obtain rfl : img = img' := Option.some.inj h
      exact .nil hin hzero
    · intro h
      cases h with
      | nil => rfl
      | cons _ hword => exact absurd hzero hword
  | case3 img thunk iat word hread hword hput =>
    obtain ⟨-, rfl⟩ := of_readIn hread
    refine iff_of_false (by simp) fun h => ?_
    cases h with
    | nil _ hzero => exact hword hzero
    | cons _ _ hiat =>
      unfold putIn at hput
      rw [if_pos hiat] at hput
      exact Option.some_ne_none _ hput
  | case4 img thunk iat word hread hword img₁ hput ih =>
    obtain ⟨hin, rfl⟩ := of_readIn hread
    obtain ⟨hiat, rfl⟩ := of_putIn hput
    rw [ih]
    constructor
    · exact fun h => .cons hin hword hiat h
    · intro h
      cases h with
      | nil _ hzero => exact absurd hzero hword
      | cons _ _ _ hrest => exact hrest

/-- The loop over libraries comes to an image exactly if the descriptors fit. -/
theorem importLoop_iff : importLoop n resolve img desc = some img' ↔ ImportsFit n resolve img desc img' := by
  fun_induction importLoop n resolve img desc with
  | case1 img desc hread =>
    have hout := of_readIn_none hread
    refine iff_of_false (by simp) fun h => ?_
    cases h <;> omega
  | case2 img desc hread =>
    obtain ⟨hin, hzero⟩ := of_readIn hread
    constructor
    · intro h
      obtain rfl : img = img' := Option.some.inj h
      exact .nil hin hzero
    · intro h
      cases h with
      | nil => rfl
      | cons _ hname => exact absurd hzero hname
  | case3 img desc name hread hname horiginal =>
    have hin := (of_readIn hread).1
    have hout := of_readIn_none horiginal
    omega
  | case4 img desc name hread hname original horiginal hfirst =>
    obtain ⟨-, rfl⟩ := of_readIn hread
    have hout := of_readIn_none hfirst
    refine iff_of_false (by simp) fun h => ?_
    cases h with
    | nil _ hzero => exact hname hzero
    | cons hin => omega
  | case5 img desc name hread hname original horiginal first hfirst hthunks =>
    obtain ⟨-, rfl⟩ := of_readIn hread
    obtain ⟨-, rfl⟩ := of_readIn horiginal
    obtain ⟨-, rfl⟩ := of_readIn hfirst
    rw [dite_eq_ite] at hthunks
    refine iff_of_false (by simp) fun h => ?_
    cases h with
    | nil _ hzero => exact hname hzero
    | cons _ _ hfit =>
      rw [thunkLoop_iff.mpr hfit] at hthunks
      exact Option.some_ne_none _ hthunks
  | case6 img desc name hread hname original horiginal first hfirst img₁ hthunks ih =>
    obtain ⟨-, rfl⟩ := of_readIn hread
    obtain ⟨-, rfl⟩ := of_readIn horiginal
    obtain ⟨hin, rfl⟩ := of_readIn hfirst
    rw [dite_eq_ite] at hthunks
    rw [ih]
    constructor
    · exact fun h => .cons hin hname (thunkLoop_iff.mp hthunks) h
    · intro h
      cases h with
      | nil _ hzero => exact absurd hzero hname
      | cons _ _ hfit hrest =>
        rw [thunkLoop_iff.mpr hfit] at hthunks
        obtain rfl := Option.some.inj hthunks
        exact hrest

end Pe
