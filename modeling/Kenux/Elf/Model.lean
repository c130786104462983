import Kenux.Lib.Memory

/-!
# The ELF loader (`arch/x86_64/elf.c`)

The file is read through one pointer; offsets count from it, and every byte that is read is noted. Frames are new and
zero, and mapping a page updates a map from page numbers to pages. How many frames there are is a parameter, and so is
what the new address space has in it to begin with. The text that `interpreter` gets is left out: nothing reads it.
-/

namespace Elf

open Memory Reads

def pageSize : UInt64 := 4096

def pagePresent : UInt64 := 1

def pageWritable : UInt64 := 2

def pageUser : UInt64 := 4

def userStackSize : UInt64 := 2 * 1024 * 1024

def userStackTop : UInt64 := 0x00007FFFFFFFFFFF

def ptLoad : UInt32 := 1

def ptInterp : UInt32 := 3

def ptPhdr : UInt32 := 6

def pfW : UInt32 := 2

/-- `sizeof(Elf64_Ehdr)` -/
def ehdrSize : ℕ := 64

/-- `sizeof(Elf64_Phdr)` -/
def phdrSize : UInt64 := 56

/-- `va & ~(PAGE_SIZE - 1)` -/
def pageDown (va : UInt64) : UInt64 := va &&& ~~~(pageSize - 1)

variable (data : Mem)

def half (o : ℕ) : Reading UInt16 := do
  let n ← little data o 2
  pure (UInt16.ofNat n)

def word (o : ℕ) : Reading UInt32 := do
  let n ← little data o 4
  pure (UInt32.ofNat n)

def xword (o : ℕ) : Reading UInt64 := do
  let n ← little data o 8
  pure (UInt64.ofNat n)

/-- The bytes from `o` on are these; the first that is not ends the comparison. -/
def matchBytes : List UInt8 → ℕ → Reading Bool
  | [], _ => pure true
  | x :: xs, o => do
    let b ← byte data o
    if b ≠ x then pure false else matchBytes xs (o + 1)

/-- `elf_verify` -/
def elfVerify : Reading Bool := do
  let ident ← matchBytes data [0x7f, 0x45, 0x4c, 0x46, 2, 1, 1] 0
  if ident then do
    let type ← half data 16
    if type ≠ 2 ∧ type ≠ 3 then pure false
    else do
      let machine ← half data 18
      pure (machine = 62)
  else pure false

/-- Where program header `i` is. -/
def phdrAt (phoff : UInt64) (i : ℕ) : ℕ := (phoff + phdrSize * UInt64.ofNat i).toNat

/-! ## Programs of another system (`compat/leonos_compat.c`) -/

/-- `compat_contains`, for a text and a name that is not empty. -/
def compatContains (haystack needle : List UInt8) : Bool :=
  (List.range (haystack.length + 1)).any fun i => (haystack.drop i).take needle.length = needle

/-- A character string. -/
def text (xs : List UInt8) : List UInt8 := xs.takeWhile (· ≠ 0)

def leonosText : List UInt8 := [0x6c, 0x65, 0x6f, 0x6e, 0x6f, 0x73]

def osmlayerText : List UInt8 := [0x6f, 0x73, 0x6d, 0x6c, 0x61, 0x79, 0x65, 0x72]

/-- The loop of `leonos_compat_detect_elf` over the program headers from `i` on: whether an interpreter is LeonOS's. -/
def compatHeaders (size phoff : UInt64) : ℕ → ℕ → Bool → Reading Bool
  | 0, _, leonos => pure leonos
  | n + 1, i, leonos => do
    let type ← word data (phdrAt phoff i)
    if type = ptInterp then do
      let offset ← xword data (phdrAt phoff i + 8)
      let filesz ← xword data (phdrAt phoff i + 32)
      if offset + filesz ≤ size then do
        let interpreter ← bytes data offset.toNat (min filesz.toNat 127)
        compatHeaders size phoff n (i + 1)
          (leonos || compatContains (text interpreter) leonosText || compatContains (text interpreter) osmlayerText)
      else compatHeaders size phoff n (i + 1) leonos
    else compatHeaders size phoff n (i + 1) leonos

/-- The bytes from `o` on are letters of a word, each large or small. -/
def matchLetters : List UInt8 → ℕ → Reading Bool
  | [], _ => pure true
  | x :: xs, o => do
    let b ← byte data o
    if b ≠ x ∧ b ≠ x - 32 then pure false else matchLetters xs (o + 1)

/-- The scan for the marker from `i` on. -/
def compatScan (scan : ℕ) : ℕ → ℕ → Reading Bool
  | 0, _ => pure false
  | n + 1, i =>
    if i + 6 < scan then do
      let found ← matchLetters data leonosText i
      if found then pure true else compatScan scan n (i + 1)
    else pure false

/-- `leonos_compat_detect_elf`, for a file that `elf_verify` takes: whether its type is
`LEONOS_COMPAT_APP_LEONOS_ELF`. -/
def leonosCompatDetectElf (size : UInt64) : Reading Bool := do
  let _ ← elfVerify data
  let phoff ← xword data 32
  let phnum ← half data 56
  let phentsize ← half data 54
  let leonos ←
    if phoff ≠ 0 ∧ phnum ≠ 0 ∧ phentsize = 56 then compatHeaders data size phoff phnum.toNat 0 false else pure false
  let scan := min size.toNat (256 * 1024)
  let marker ← compatScan data scan scan 0
  pure (leonos || marker)

/-! ## Loading -/

structure Page where
  bytes : Mem
  flags : UInt64

/-- What is mapped, by page numbers. -/
abbrev Space := ℕ → Option Page

def pmapMapPage (space : Space) (va : UInt64) (frame : Mem) (flags : UInt64) : Space :=
  Function.update space (va.toNat / 4096) (some ⟨frame, flags⟩)

/-- What the loader finds: whether `pmap_create` gives an address space, what is mapped in it, and how many frames there
are to allocate. -/
structure Env where
  created : Bool
  space : Space
  frames : ℕ

/-- `elf_load_info_t` -/
structure ElfLoadInfo where
  entry : UInt64
  stackTop : UInt64
  phdrAddr : UInt64
  pml4 : Space
  phnum : UInt16
  phentsize : UInt16
  isDynamic : Bool

/-- The first loop over the program headers from `i` on: `is_dynamic` and `phdr_addr`. The lowest and the highest
address are computed and not used. -/
def scanHeaders (phoff : UInt64) : ℕ → ℕ → Bool → UInt64 → Reading (Bool × UInt64)
  | 0, _, isDynamic, phdrAddr => pure (isDynamic, phdrAddr)
  | n + 1, i, isDynamic, phdrAddr => do
    let type ← word data (phdrAt phoff i)
    if type = ptLoad then do
      let _ ← xword data (phdrAt phoff i + 16)
      let _ ← xword data (phdrAt phoff i + 40)
      scanHeaders phoff n (i + 1) isDynamic phdrAddr
    else if type = ptInterp then do
      let filesz ← xword data (phdrAt phoff i + 32)
      let offset ← xword data (phdrAt phoff i + 8)
      let _ ← bytes data offset.toNat (min filesz.toNat 255)
      scanHeaders phoff n (i + 1) true phdrAddr
    else if type = ptPhdr then do
      let vaddr ← xword data (phdrAt phoff i + 16)
      scanHeaders phoff n (i + 1) isDynamic vaddr
    else scanHeaders phoff n (i + 1) isDynamic phdrAddr

/-- The fields of a program header that loading uses. -/
structure Phdr where
  flags : UInt32
  offset : UInt64
  vaddr : UInt64
  filesz : UInt64
  memsz : UInt64

/-- What is copied to the page for offset `off`: where it goes in the page, and how much it is. -/
def copyPart (ph : Phdr) (off : UInt64) : UInt64 × UInt64 :=
  let fileEnd := ph.offset + ph.filesz
  if off < fileEnd then
    let copyStart := if off < ph.offset then ph.offset - off else 0
    let copySize := pageSize - copyStart
    let copySize := if off + copySize > fileEnd then fileEnd - off - copyStart else copySize
    (copyStart, copySize)
  else (0, 0)

/-- The frames that are left, and what is mapped. -/
structure LoadState where
  frames : ℕ
  space : Space

/-- The loop over the pages of a segment; `n` are left. `none` stands for -1. -/
def loadPages (ph : Phdr) (flags : UInt64) : ℕ → UInt64 → UInt64 → LoadState → Reading (Option LoadState)
  | 0, _, _, s => pure (some s)
  | n + 1, va, off, s =>
    if s.frames = 0 then pure none
    else do
      let (copyStart, copySize) := copyPart ph off
      let xs ← bytes data (off + copyStart).toNat copySize.toNat
      let frame := write (fun _ => 0) copyStart.toNat xs
      loadPages ph flags n (va + pageSize) (off + pageSize) ⟨s.frames - 1, pmapMapPage s.space va frame flags⟩

/-- The pages from that of `p_vaddr` to the end of the segment. -/
def Phdr.pages (ph : Phdr) : ℕ :=
  let memEnd := ph.vaddr + ph.memsz
  let pageEnd := pageDown (memEnd + pageSize - 1)
  (pageEnd.toNat - (pageDown ph.vaddr).toNat) / 4096

def loadSegment (ph : Phdr) (s : LoadState) : Reading (Option LoadState) :=
  let flags := pagePresent ||| pageUser
  let flags := if ph.flags &&& pfW ≠ 0 then flags ||| pageWritable else flags
  loadPages data ph flags ph.pages (pageDown ph.vaddr) (pageDown ph.offset) s

/-- The second loop over the program headers from `i` on. -/
def loadSegments (phoff : UInt64) : ℕ → ℕ → LoadState → Reading (Option LoadState)
  | 0, _, s => pure (some s)
  | n + 1, i, s => do
    let type ← word data (phdrAt phoff i)
    if type ≠ ptLoad then loadSegments phoff n (i + 1) s
    else do
      let flags ← word data (phdrAt phoff i + 4)
      let vaddr ← xword data (phdrAt phoff i + 16)
      let offset ← xword data (phdrAt phoff i + 8)
      let filesz ← xword data (phdrAt phoff i + 32)
      let memsz ← xword data (phdrAt phoff i + 40)
      let s ← loadSegment data ⟨flags, offset, vaddr, filesz, memsz⟩ s
      match s with
      | none => pure none
      | some s => loadSegments phoff n (i + 1) s

/-- The addresses that the loop for the stack maps. -/
def stackPages : List UInt64 :=
  let stackBottom := userStackTop - userStackSize
  (List.range ((userStackSize.toNat + 4095) / 4096)).map fun i => stackBottom + pageSize * UInt64.ofNat i

/-- The loop for the stack. -/
def mapStack : List UInt64 → LoadState → Option LoadState
  | [], s => some s
  | va :: vas, s =>
    if s.frames = 0 then none
    else mapStack vas ⟨s.frames - 1, pmapMapPage s.space va (fun _ => 0) (pagePresent ||| pageWritable ||| pageUser)⟩

/-- `elf_load_from_memory`; `none` stands for -1. -/
def elfLoadFromMemory (size : UInt64) (env : Env) : Reading (Option ElfLoadInfo) :=
  if size.toNat < ehdrSize then pure none
  else do
    let ok ← elfVerify data
    if !ok then pure none
    else do
      let entry ← xword data 24
      let phnum ← half data 56
      let phentsize ← half data 54
      let type ← half data 16
      let leonos ← leonosCompatDetectElf data size
      let phoff ← xword data 32
      let (isDynamic, phdrAddr) ← scanHeaders data phoff phnum.toNat 0 (type = 3 || leonos) 0
      if !env.created then pure none
      else do
        let s ← loadSegments data phoff phnum.toNat 0 ⟨env.frames, env.space⟩
        match s with
        | none => pure none
        | some s =>
          pure ((mapStack stackPages s).map fun s =>
            { entry, stackTop := userStackTop, phdrAddr, pml4 := s.space, phnum, phentsize, isDynamic })

end Elf

/-!
## What the loader reads

The fields of a program header that are read depend on its type. A segment is read page by page, as far as there are
frames for it.
-/

namespace Elf

open Memory Reads

/-- The number of program headers. -/
def phnum (data : Mem) : ℕ := (UInt16.ofNat (load data 56 2)).toNat

def phoff (data : Mem) : UInt64 := UInt64.ofNat (load data 32 8)

/-- The type of program header `i`. -/
def phType (data : Mem) (i : ℕ) : UInt32 := UInt32.ofNat (load data (phdrAt (phoff data) i) 4)

/-- Program header `i`. -/
def phdr (data : Mem) (i : ℕ) : Phdr where
  flags := UInt32.ofNat (load data (phdrAt (phoff data) i + 4) 4)
  offset := UInt64.ofNat (load data (phdrAt (phoff data) i + 8) 8)
  vaddr := UInt64.ofNat (load data (phdrAt (phoff data) i + 16) 8)
  filesz := UInt64.ofNat (load data (phdrAt (phoff data) i + 32) 8)
  memsz := UInt64.ofNat (load data (phdrAt (phoff data) i + 40) 8)

/-- How far the fields go that are used of a program header. -/
def fieldsEnd (type : UInt32) : ℕ :=
  if type = ptLoad then 48 else if type = ptInterp then 40 else if type = ptPhdr then 24 else 4

/-- The fields of program header `i` and the name of its interpreter lie in the file. -/
def HeaderFits (data : Mem) (size i : ℕ) : Prop :=
  phdrAt (phoff data) i + fieldsEnd (phType data i) ≤ size ∧
    (phType data i = ptInterp → (phdr data i).filesz = 0 ∨
      (phdr data i).offset.toNat + min (phdr data i).filesz.toNat 255 ≤ size)

/-- The offset in the file that belongs to page `j` of a segment. -/
def Phdr.pageOffset (ph : Phdr) (j : ℕ) : UInt64 := UInt64.ofNat ((pageDown ph.offset).toNat + 4096 * j)

/-- What is copied for a page lies in the file. -/
def PartFits (size : ℕ) (ph : Phdr) (off : UInt64) : Prop :=
  (copyPart ph off).2 = 0 ∨ (off + (copyPart ph off).1).toNat + (copyPart ph off).2.toNat ≤ size

variable {data : Mem} {size n i j N : ℕ} {ph : Phdr} {va off flags : UInt64} {s : LoadState}

/-! ## Reads -/

theorem within_half {o : ℕ} : Within N (half data o) ↔ o + 1 < N := by
  unfold half
  rw [within_bind, within_little]
  exact and_iff_left (within_pure _)

theorem within_word {o : ℕ} : Within N (word data o) ↔ o + 3 < N := by
  unfold word
  rw [within_bind, within_little]
  exact and_iff_left (within_pure _)

theorem within_xword {o : ℕ} : Within N (xword data o) ↔ o + 7 < N := by
  unfold xword
  rw [within_bind, within_little]
  exact and_iff_left (within_pure _)

@[simp] theorem value_word (o : ℕ) : (word data o).value = UInt32.ofNat (load data o 4) := rfl

@[simp] theorem value_xword (o : ℕ) : (xword data o).value = UInt64.ofNat (load data o 8) := rfl

@[simp] theorem value_half (o : ℕ) : (half data o).value = UInt16.ofNat (load data o 2) := rfl

theorem toNat_eq_zero {x : UInt64} : x.toNat = 0 ↔ x = 0 := by
  rw [← UInt64.toNat_inj]
  rfl

/-- A property of all places below the next number. -/
theorem forall_lt_succ {P : ℕ → Prop} : (∀ j < n + 1, P j) ↔ P 0 ∧ ∀ j < n, P (j + 1) := by
  constructor
  · intro h
    exact ⟨h 0 (Nat.succ_pos n), fun j hj => h (j + 1) (Nat.succ_lt_succ hj)⟩
  · rintro ⟨h0, hrest⟩ j hj
    cases j with
    | zero => exact h0
    | succ j => exact hrest j (Nat.lt_of_succ_lt_succ hj)

/-- The first loop reads what the headers say. -/
theorem within_scanHeaders {b : Bool} {a : UInt64} :
    Within N (scanHeaders data (phoff data) n i b a) ↔ ∀ j < n, HeaderFits data N (i + j) := by
  induction n generalizing i b a with
  | zero => exact iff_of_true (within_pure _) fun j hj => absurd hj (Nat.not_lt_zero j)
  | succ n ih =>
    have hrest : (∀ j < n, HeaderFits data N (i + (j + 1))) ↔ ∀ j < n, HeaderFits data N (i + 1 + j) :=
      forall₂_congr fun j _ => by rw [Nat.add_right_comm, Nat.add_assoc]
    have hfirst : HeaderFits data N (i + 0) ↔ HeaderFits data N i := Iff.rfl
    rw [forall_lt_succ, hrest, hfirst]
    unfold scanHeaders
    simp only [within_bind, within_ite, within_word, within_xword, within_bytes, ih]
    simp only [value_word, value_xword]
    have htype : UInt32.ofNat (load data (phdrAt (phoff data) i) 4) = phType data i := rfl
    have hfilesz : UInt64.ofNat (load data (phdrAt (phoff data) i + 32) 8) = (phdr data i).filesz := rfl
    have hoffset : UInt64.ofNat (load data (phdrAt (phoff data) i + 8) 8) = (phdr data i).offset := rfl
    rw [htype, hfilesz, hoffset]
    unfold HeaderFits fieldsEnd
    have hne₁ : ptInterp ≠ ptLoad := by decide
    rcases eq_or_ne (phType data i) ptLoad with hload | hload
    · simp only [hload, hne₁.symm, if_true, true_implies, not_true_eq_false, false_implies, and_true]
      grind
    · rcases eq_or_ne (phType data i) ptInterp with hinterp | hinterp
      · simp only [hinterp, hne₁, if_true, if_false, true_implies, not_true_eq_false, not_false_eq_true,
          false_implies, and_true, true_and, ← toNat_eq_zero]
        grind
      · simp only [hload, hinterp, if_false, not_false_eq_true, true_implies, false_implies, and_true, true_and]
        split_ifs with hphdr
        · simp only [hphdr, true_implies, not_true_eq_false, false_implies, and_true]
          grind
        · simp only [hphdr, not_false_eq_true, true_implies, false_implies, true_and]
          grind

/-- The offset of a page after one more step. -/
theorem offset_succ (off : UInt64) (j : ℕ) :
    UInt64.ofNat ((off + pageSize).toNat + 4096 * j) = UInt64.ofNat (off.toNat + 4096 * (j + 1)) := by
  have hsize : pageSize.toNat = 4096 := rfl
  apply UInt64.toNat_inj.mp
  rw [UInt64.toNat_ofNat', UInt64.toNat_ofNat', UInt64.toNat_add, hsize]
  omega

theorem ofNat_toNat_zero (off : UInt64) : UInt64.ofNat (off.toNat + 4096 * 0) = off := UInt64.ofNat_toNat

/-- The pages of a segment that get frames are read. -/
theorem within_loadPages : Within N (loadPages data ph flags n va off s) ↔
    ∀ j < min n s.frames, PartFits N ph (UInt64.ofNat (off.toNat + 4096 * j)) := by
  induction n generalizing va off s with
  | zero =>
    rw [Nat.zero_min]
    exact iff_of_true (within_pure _) fun j hj => absurd hj (Nat.not_lt_zero j)
  | succ n ih =>
    unfold loadPages
    rw [within_ite]
    rcases Nat.eq_zero_or_pos s.frames with hzero | hpos
    · rw [hzero, Nat.min_zero]
      exact iff_of_true ⟨fun _ => within_pure _, fun hno => absurd rfl hno⟩ fun j hj => absurd hj (Nat.not_lt_zero j)
    · obtain ⟨f, hf⟩ := Nat.exists_eq_succ_of_ne_zero hpos.ne'
      have hmin : min (n + 1) s.frames = min n (s.frames - 1) + 1 := by omega
      rw [hmin, forall_lt_succ, ofNat_toNat_zero]
      simp only [hpos.ne', false_implies, not_false_eq_true, true_implies, true_and, within_bind, within_bytes, ih]
      unfold PartFits
      simp only [toNat_eq_zero, offset_succ]

/-- What a segment copies lies in the file. -/
def SegmentFits (size : ℕ) (ph : Phdr) : Prop := ∀ j < ph.pages, PartFits size ph (ph.pageOffset j)

theorem within_loadSegment (h : SegmentFits N ph) (s : LoadState) : Within N (loadSegment data ph s) :=
  within_loadPages.mpr fun j hj => h j (Nat.lt_of_lt_of_le hj (Nat.min_le_left ..))

/-- A segment that gets all its frames fits if all that is read does. -/
theorem segmentFits_of_within (hframes : ph.pages ≤ s.frames) (h : Within N (loadSegment data ph s)) :
    SegmentFits N ph := by
  intro j hj
  exact within_loadPages.mp h j (by omega)

theorem phdr_eq (data : Mem) (i : ℕ) : (⟨UInt32.ofNat (load data (phdrAt (phoff data) i + 4) 4),
    UInt64.ofNat (load data (phdrAt (phoff data) i + 8) 8), UInt64.ofNat (load data (phdrAt (phoff data) i + 16) 8),
    UInt64.ofNat (load data (phdrAt (phoff data) i + 32) 8),
    UInt64.ofNat (load data (phdrAt (phoff data) i + 40) 8)⟩ : Phdr) = phdr data i := rfl

/-- One round of the second loop. -/
theorem loadSegments_succ (data : Mem) (n i : ℕ) (s : LoadState) :
    (loadSegments data (phoff data) (n + 1) i s).value =
      if phType data i = ptLoad then
        (loadSegment data (phdr data i) s).value.bind fun s => (loadSegments data (phoff data) n (i + 1) s).value
      else (loadSegments data (phoff data) n (i + 1) s).value := by
  rw [loadSegments, value_bind]
  by_cases hload : phType data i = ptLoad
  · have hcond : ¬(word data (phdrAt (phoff data) i)).value ≠ ptLoad := not_not.mpr hload
    rw [if_neg hcond, if_pos hload]
    simp only [value_bind, value_word, value_xword]
    rw [phdr_eq]
    cases (loadSegment data (phdr data i) s).value with
    | none => rfl
    | some s => rfl
  · have hcond : (word data (phdrAt (phoff data) i)).value ≠ ptLoad := hload
    rw [if_pos hcond, if_neg hload]

/-- The reads of a round of the second loop. -/
theorem within_loadSegments_succ : Within N (loadSegments data (phoff data) (n + 1) i s) ↔
    phdrAt (phoff data) i + 4 ≤ N ∧
      (phType data i ≠ ptLoad → Within N (loadSegments data (phoff data) n (i + 1) s)) ∧
      (phType data i = ptLoad → phdrAt (phoff data) i + 48 ≤ N ∧ Within N (loadSegment data (phdr data i) s) ∧
        ∀ t, (loadSegment data (phdr data i) s).value = some t →
          Within N (loadSegments data (phoff data) n (i + 1) t)) := by
  rw [loadSegments]
  simp only [within_bind, within_ite, within_word, within_xword]
  simp only [value_word, value_xword]
  have htype : UInt32.ofNat (load data (phdrAt (phoff data) i) 4) = phType data i := rfl
  rw [htype, phdr_eq, not_not]
  cases (loadSegment data (phdr data i) s).value with
  | none =>
    simp only [within_pure, reduceCtorEq, false_implies, implies_true, and_true]
    grind
  | some t =>
    simp only [Option.some.injEq, forall_eq']
    grind

/-- The second loop reads within the file if the headers and what is copied lie in it. -/
theorem within_loadSegments (hheaders : ∀ j < n, HeaderFits data N (i + j))
    (hparts : ∀ j < n, phType data (i + j) = ptLoad → SegmentFits N (phdr data (i + j))) (s : LoadState) :
    Within N (loadSegments data (phoff data) n i s) := by
  induction n generalizing i s with
  | zero => exact within_pure _
  | succ n ih =>
    have hrest : ∀ t, Within N (loadSegments data (phoff data) n (i + 1) t) := by
      refine fun t => ih (fun j hj => ?_) (fun j hj => ?_) t
      · rw [Nat.add_right_comm]
        exact hheaders (j + 1) (Nat.succ_lt_succ hj)
      · rw [Nat.add_right_comm]
        exact hparts (j + 1) (Nat.succ_lt_succ hj)
    have hheader := (hheaders 0 (Nat.succ_pos n)).1
    have hpart := hparts 0 (Nat.succ_pos n)
    rw [Nat.add_zero] at hheader hpart
    rw [within_loadSegments_succ]
    refine ⟨?_, fun _ => hrest s, fun hload => ⟨?_, within_loadSegment (hpart hload) s, fun t _ => hrest t⟩⟩
    · unfold fieldsEnd at hheader
      split_ifs at hheader <;> omega
    · rwa [hload] at hheader

theorem within_matchBytes {xs : List UInt8} {o : ℕ} (h : o + xs.length ≤ N) : Within N (matchBytes data xs o) := by
  induction xs generalizing o with
  | nil => exact within_pure _
  | cons x xs ih =>
    rw [List.length_cons] at h
    unfold matchBytes
    rw [within_bind, within_byte, within_ite]
    exact ⟨by omega, fun _ => within_pure _, fun _ => ih (by omega)⟩

theorem within_matchLetters {xs : List UInt8} {o : ℕ} (h : o + xs.length ≤ N) :
    Within N (matchLetters data xs o) := by
  induction xs generalizing o with
  | nil => exact within_pure _
  | cons x xs ih =>
    rw [List.length_cons] at h
    unfold matchLetters
    rw [within_bind, within_byte, within_ite]
    exact ⟨by omega, fun _ => within_pure _, fun _ => ih (by omega)⟩

/-- The header of the file is read within it. -/
theorem within_elfVerify (h : ehdrSize ≤ N) : Within N (elfVerify data) := by
  unfold ehdrSize at h
  unfold elfVerify
  simp only [within_bind, within_ite, within_half, within_pure, implies_true, and_true, true_and]
  exact ⟨within_matchBytes (by simp only [List.length_cons, List.length_nil]; omega),
    fun _ => ⟨by omega, fun _ => by omega⟩⟩

/-- The scan for the marker stays in the part that it scans. -/
theorem within_compatScan {scan : ℕ} (h : scan ≤ N) : Within N (compatScan data scan n i) := by
  induction n generalizing i with
  | zero => exact within_pure _
  | succ n ih =>
    have hlength : leonosText.length = 6 := rfl
    unfold compatScan
    simp only [within_bind, within_ite, within_pure, implies_true, and_true, true_and]
    exact fun hlt => ⟨within_matchLetters (by omega), fun _ => ih⟩

theorem within_compatHeaders {sz : UInt64} {b : Bool} (h : ∀ j < n, HeaderFits data N (i + j)) :
    Within N (compatHeaders data sz (phoff data) n i b) := by
  induction n generalizing i b with
  | zero => exact within_pure _
  | succ n ih =>
    have hrest : ∀ c, Within N (compatHeaders data sz (phoff data) n (i + 1) c) := by
      refine fun c => ih fun j hj => ?_
      rw [Nat.add_right_comm]
      exact h (j + 1) (Nat.succ_lt_succ hj)
    obtain ⟨hheader, hname⟩ := h 0 (Nat.succ_pos n)
    rw [Nat.add_zero] at hheader hname
    have htype : UInt32.ofNat (load data (phdrAt (phoff data) i) 4) = phType data i := rfl
    have hfilesz : UInt64.ofNat (load data (phdrAt (phoff data) i + 32) 8) = (phdr data i).filesz := rfl
    have hoffset : UInt64.ofNat (load data (phdrAt (phoff data) i + 8) 8) = (phdr data i).offset := rfl
    unfold compatHeaders
    simp only [within_bind, within_ite, within_word, within_xword, within_bytes, hrest, and_true, implies_true]
    simp only [value_word, value_xword]
    rw [htype, hfilesz, hoffset]
    constructor
    · unfold fieldsEnd at hheader
      split_ifs at hheader <;> omega
    · intro hinterp
      have hne : ptInterp ≠ ptLoad := by decide
      rw [hinterp] at hheader
      unfold fieldsEnd at hheader
      rw [if_neg hne, if_pos rfl] at hheader
      refine ⟨by omega, by omega, fun _ => ?_⟩
      rcases hname hinterp with hzero | hfits
      · left
        rw [hzero]
        rfl
      · right
        omega

/-- What is looked for in another system's programs is read within the file. -/
theorem within_leonosCompatDetectElf {sz : UInt64} (hsize : ehdrSize ≤ sz.toNat)
    (h : ∀ j < phnum data, HeaderFits data sz.toNat j) : Within sz.toNat (leonosCompatDetectElf data sz) := by
  have hheaders : ∀ b, Within sz.toNat (compatHeaders data sz (phoff data) (phnum data) 0 b) := by
    refine fun b => within_compatHeaders fun j hj => ?_
    rw [Nat.zero_add]
    exact h j hj
  have hphoff : UInt64.ofNat (load data 32 8) = phoff data := rfl
  have hphnum : (UInt16.ofNat (load data 56 2)).toNat = phnum data := rfl
  unfold leonosCompatDetectElf
  simp only [within_bind, within_ite, within_half, within_xword, within_pure, and_true, true_and]
  simp only [value_half, value_xword]
  rw [hphoff, hphnum]
  have hverify : Within sz.toNat (elfVerify data) := within_elfVerify hsize
  unfold ehdrSize at hsize
  have hscan : Within sz.toNat (compatScan data (min sz.toNat (256 * 1024)) (min sz.toNat (256 * 1024)) 0) :=
    within_compatScan (Nat.min_le_left ..)
  exact ⟨hverify, by omega, by omega, by omega, fun _ => ⟨hheaders false, hscan⟩, fun _ => hscan⟩

end Elf
