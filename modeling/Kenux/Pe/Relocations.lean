import Kenux.Pe.Model
import Mathlib.Data.List.TakeWhile

/-!
# What the loader of portable executables changes

A relocation directory is a list of blocks that covers its recorded size. Applied to it, the walk adds the difference of
the bases to every word that an entry names. It stops too early at a block of page 0, and at the end of the directory it
goes on: it takes what stands there for blocks.
-/

namespace Pe

open Memory

variable {file img m : Mem} {size n k pos block lo stop page : ℕ} {delta : UInt64} {bs words : List ℕ}

/-- Blocks from `pos` on that end at `stop`, by their places. -/
inductive BlockList (img : Mem) (stop : ℕ) : ℕ → List ℕ → Prop where
  | nil : BlockList img stop stop []
  | cons {pos : ℕ} {bs : List ℕ} (hsize : 8 ≤ load img (pos + 4) 4)
      (hrest : BlockList img stop (pos + load img (pos + 4) 4) bs) : BlockList img stop pos (pos :: bs)

/-- The words of a page that the `k` entries from `pos` on name. -/
def entryWords (img : Mem) (page : ℕ) : ℕ → ℕ → List ℕ
  | 0, _ => []
  | k + 1, pos =>
    if load img pos 2 / 4096 = imageRelBasedDir64 then
      (page + load img pos 2 % 4096) :: entryWords img page k (pos + 2)
    else entryWords img page k (pos + 2)

def blockWords (img : Mem) (block : ℕ) : List ℕ :=
  entryWords img (load img block 4) ((load img (block + 4) 4 - 8) / 2) (block + 8)

/-- The words that a directory names, in the order of its entries. -/
def tableWords (img : Mem) (bs : List ℕ) : List ℕ := bs.flatMap (blockWords img)

/-- Adds a number to words, one after the other. -/
def addAll (delta : UInt64) (img : Mem) (words : List ℕ) : Mem :=
  words.foldl (fun m w => store m w (load m w 8 + delta.toNat) 8) img

/-- The words lie in an image of `n` bytes and do not overlap what stands from `lo` to `stop`. -/
def Apart (n lo stop : ℕ) (words : List ℕ) : Prop := ∀ w ∈ words, w + 8 ≤ n ∧ (w + 8 ≤ lo ∨ stop ≤ w)

/-- The blocks before the first one of page 0. -/
def walkedBlocks (img : Mem) (bs : List ℕ) : List ℕ := bs.takeWhile fun b => load img b 4 ≠ 0

/-! ## One block -/

theorem addAll_cons {w : ℕ} : addAll delta img (w :: words) =
    addAll delta (store img w (load img w 8 + delta.toNat) 8) words := rfl

theorem addAll_append {words' : List ℕ} : addAll delta img (words ++ words') =
    addAll delta (addAll delta img words) words' := List.foldl_append

theorem Apart.head {w : ℕ} (h : Apart n lo stop (w :: words)) : w + 8 ≤ n ∧ (w + 8 ≤ lo ∨ stop ≤ w) :=
  h w List.mem_cons_self

theorem Apart.tail {w : ℕ} (h : Apart n lo stop (w :: words)) : Apart n lo stop words :=
  fun w' hw => h w' (List.mem_cons_of_mem w hw)

theorem apart_append {words' : List ℕ} : Apart n lo stop (words ++ words') ↔
    Apart n lo stop words ∧ Apart n lo stop words' := List.forall_mem_append

/-- What stands from `lo` to `stop` is the same. -/
def SameIn (lo stop : ℕ) (img m : Mem) : Prop := ∀ i, lo ≤ i → i < stop → m i = img i

theorem SameIn.load_eq (h : SameIn lo stop img m) {a : ℕ} (hlo : lo ≤ a) (hstop : a + k ≤ stop) :
    load m a k = load img a k := load_congr fun i hi => h (a + i) (by omega) (by omega)

theorem SameIn.store {w v : ℕ} (h : SameIn lo stop img m) (hw : w + 8 ≤ lo ∨ stop ≤ w) :
    SameIn lo stop img (store m w v 8) := by
  intro i hlo hstop
  rw [store_other (by omega)]
  exact h i hlo hstop

theorem SameIn.addAll (h : SameIn lo stop img m) (hwords : Apart n lo stop words) :
    SameIn lo stop img (addAll delta m words) := by
  induction words generalizing m with
  | nil => exact h
  | cons w words ih =>
    rw [addAll_cons]
    exact ih (h.store hwords.head.2) hwords.tail

/-- The entries are applied to the words that they name. -/
theorem applyEntries_words (hn : stop ≤ n) (hsame : SameIn lo stop img m) (hblock : lo ≤ block)
    (hpage : block + 4 ≤ stop) (hpos : lo ≤ pos) (hend : pos + 2 * k ≤ stop)
    (hwords : Apart n lo stop (entryWords img (load img block 4) k pos)) :
    applyEntries n delta block k pos m = some (addAll delta m (entryWords img (load img block 4) k pos)) := by
  induction k generalizing pos m with
  | zero => rfl
  | succ k ih =>
    have hentry : load m pos 2 = load img pos 2 := hsame.load_eq hpos (by omega)
    unfold applyEntries
    simp only [Option.bind_eq_bind]
    rw [readIn_of_le (by omega), Option.bind_some, hentry]
    unfold entryWords at hwords ⊢
    split_ifs at hwords ⊢ with htype
    · have hread : load m block 4 = load img block 4 := hsame.load_eq hblock hpage
      have hword := hwords.head.1
      rw [readIn_of_le (by omega), Option.bind_some, hread, readIn_of_le hword, Option.bind_some]
      unfold putIn
      rw [if_pos hword, Option.bind_some, addAll_cons]
      exact ih (hsame.store hwords.head.2) (by omega) (by omega) hwords.tail
    · exact ih hsame (by omega) (by omega) hwords

/-! ## The directory -/

theorem BlockList.pos_le (h : BlockList img stop pos bs) : pos ≤ stop := by
  induction h with
  | nil => exact Nat.le_refl stop
  | cons hsize _ ih => omega

/-- The loop over blocks where the first one is read as a block. -/
theorem relocLoop_block {img' : Mem} (hin : block + 8 ≤ n) (hpage : load img block 4 ≠ 0)
    (hsize : 8 ≤ load img (block + 4) 4)
    (hentries : applyEntries n delta block ((load img (block + 4) 4 - 8) / 2) (block + 8) img = some img')
    (hagain : load img' (block + 4) 4 = load img (block + 4) 4) :
    relocLoop n delta img block = relocLoop n delta img' (block + load img (block + 4) 4) := by
  have hcount := entryCount_of_le hsize
  rw [← hcount] at hentries
  have hread : readIn n img block 4 = some (load img block 4) := readIn_of_le (by omega)
  have hread' : readIn n img (block + 4) 4 = some (load img (block + 4) 4) := readIn_of_le (by omega)
  have hreadAgain : readIn n img' (block + 4) 4 = some (load img (block + 4) 4) := by
    rw [readIn_of_le (by omega), hagain]
  rw [relocLoop]
  split
  · rename_i hnone
    rw [hread] at hnone
    exact absurd hnone (Option.some_ne_none _)
  rename_i page hsome
  obtain rfl : load img block 4 = page := Option.some.inj (hread.symm.trans hsome)
  rw [if_neg hpage, hread']
  dsimp only
  rw [if_neg (by omega), hentries]
  dsimp only
  rw [hreadAgain]
  dsimp only
  rw [dif_neg (by omega)]

theorem relocLoop_page (hin : block + 4 ≤ n) (hpage : load img block 4 = 0) :
    relocLoop n delta img block = some img := by
  have hread : readIn n img block 4 = some (load img block 4) := readIn_of_le hin
  rw [relocLoop]
  split
  · rename_i hnone
    rw [hread] at hnone
    exact absurd hnone (Option.some_ne_none _)
  rename_i page hsome
  obtain rfl : load img block 4 = page := Option.some.inj (hread.symm.trans hsome)
  exact if_pos hpage

theorem tableWords_cons {b : ℕ} : tableWords img (b :: bs) = blockWords img b ++ tableWords img bs :=
  List.flatMap_cons

/-- The blocks before the first one of page 0 are applied; the walk stops at that one, or it goes on at the end. -/
theorem relocLoop_words (hlist : BlockList img stop pos bs) (hn : stop ≤ n) (hsame : SameIn lo stop img m)
    (hpos : lo ≤ pos) (hwords : Apart n lo stop (tableWords img bs)) :
    relocLoop n delta m pos =
      if ∀ b ∈ bs, load img b 4 ≠ 0 then relocLoop n delta (addAll delta m (tableWords img bs)) stop
      else some (addAll delta m (tableWords img (walkedBlocks img bs))) := by
  induction hlist generalizing m with
  | nil =>
    rw [if_pos (by simp)]
    rfl
  | @cons pos bs hsize hrest ih =>
    have hstop := hrest.pos_le
    have hpage : load m pos 4 = load img pos 4 := hsame.load_eq hpos (by omega)
    have hsame4 : load m (pos + 4) 4 = load img (pos + 4) 4 := hsame.load_eq (by omega) (by omega)
    rw [tableWords_cons, apart_append] at hwords
    by_cases hzero : load img pos 4 = 0
    · have hwalked : walkedBlocks img (pos :: bs) = [] := List.takeWhile_cons_of_neg (by simpa using hzero)
      rw [if_neg fun hall => hall pos List.mem_cons_self hzero, hwalked,
        relocLoop_page (by omega) (hpage.trans hzero)]
      rfl
    · have hwalked : walkedBlocks img (pos :: bs) = pos :: walkedBlocks img bs :=
        List.takeWhile_cons_of_pos (by simpa using hzero)
      have hentries : applyEntries n delta pos ((load m (pos + 4) 4 - 8) / 2) (pos + 8) m =
          some (addAll delta m (blockWords img pos)) := by
        rw [hsame4]
        exact applyEntries_words hn hsame hpos (by omega) (by omega) (by omega) hwords.1
      have hsame' : SameIn lo stop img (addAll delta m (blockWords img pos)) := hsame.addAll hwords.1
      have hagain : load (addAll delta m (blockWords img pos)) (pos + 4) 4 = load m (pos + 4) 4 :=
        (hsame'.load_eq (by omega) (by omega)).trans hsame4.symm
      rw [relocLoop_block (by omega) (by rwa [hpage]) (by rwa [hsame4]) hentries hagain, hsame4,
        ih hsame' (by omega) hwords.2, hwalked, tableWords_cons, tableWords_cons, addAll_append, addAll_append]
      simp only [List.forall_mem_cons, ne_eq, hzero, not_false_eq_true, true_and]

/-! ## No difference -/

theorem addAll_zero : addAll 0 img words = img := by
  induction words generalizing img with
  | nil => rfl
  | cons w words ih =>
    rw [addAll_cons, UInt64.toNat_zero, Nat.add_zero, store_load, ih]

/-! ## The loader -/

variable {base : UInt64} {resolve : Resolver} {index : ℕ}

theorem sizeOfImage_lt (file : Mem) : sizeOfImage file < 2 ^ 32 := load_lt file _ 4

theorem peApplyRelocations_eq (h : Accepted file size) : peApplyRelocations file size n img base =
    if base - imageBase file = 0 then some img
    else if dirRva file imageDirectoryEntryBasereloc = 0 then some img
    else relocLoop n (base - imageBase file) img (dirRva file imageDirectoryEntryBasereloc) := by
  unfold peApplyRelocations
  simp only [Option.bind_eq_bind]
  rw [peGetImageBase_eq h, Option.bind_some, peGetRva_eq h (by decide)]
  rfl

theorem peResolveImports_eq (h : Accepted file size) : peResolveImports file size n img resolve =
    if dirRva file imageDirectoryEntryImport = 0 then some img
    else importLoop n resolve img (dirRva file imageDirectoryEntryImport) := by
  unfold peResolveImports
  simp only [Option.bind_eq_bind]
  rw [peGetRva_eq h (by decide)]
  rfl

/-- The relocation directory is a list of blocks in the image, and the words that it names lie in the image and not in
the directory. -/
structure WellFormed (file img : Mem) (bs : List ℕ) : Prop where
  rva : dirRva file imageDirectoryEntryBasereloc ≠ 0
  blocks : BlockList img (dirRva file imageDirectoryEntryBasereloc + dirSize file imageDirectoryEntryBasereloc)
    (dirRva file imageDirectoryEntryBasereloc) bs
  inImage : dirRva file imageDirectoryEntryBasereloc + dirSize file imageDirectoryEntryBasereloc ≤ sizeOfImage file
  apart : Apart (sizeOfImage file) (dirRva file imageDirectoryEntryBasereloc)
    (dirRva file imageDirectoryEntryBasereloc + dirSize file imageDirectoryEntryBasereloc) (tableWords img bs)

/-- The three functions stay in the file and in an image of the recorded size. -/
def Confined (file : Mem) (size : ℕ) (img : Mem) (base : UInt64) (resolve : Resolver) : Prop :=
  (peLoadSections file size (sizeOfImage file) img).isSome ∧
    (peApplyRelocations file size (sizeOfImage file) img base).isSome ∧
    (peResolveImports file size (sizeOfImage file) img resolve).isSome

/-- The words that the directory names get the difference added, and nothing else changes. -/
def Relocates (file : Mem) (size : ℕ) (img : Mem) (base : UInt64) (bs : List ℕ) : Prop :=
  peApplyRelocations file size (sizeOfImage file) img base =
    some (addAll (base - imageBase file) img (tableWords img bs))

/-- The loader is confined, and it relocates what a well-formed directory names. -/
def LoadsWell (file : Mem) (size : ℕ) (img : Mem) (base : UInt64) (resolve : Resolver) : Prop :=
  Confined file size img base resolve ∧ ∀ bs, WellFormed file img bs → Relocates file size img base bs

/-- What the loader walks lies in the file and the image, and ends with zeros there. -/
structure Fits (file : Mem) (size : ℕ) (img : Mem) (base : UInt64) (resolve : Resolver) : Prop where
  sections : ∀ i < numberOfSections file, SectionFits file size (sizeOfImage file) (sectionAt file i)
  blocks : base - imageBase file ≠ 0 → dirRva file imageDirectoryEntryBasereloc ≠ 0 → ∃ img', BlocksFit
    (sizeOfImage file) (base - imageBase file) img (dirRva file imageDirectoryEntryBasereloc) img'
  imports : dirRva file imageDirectoryEntryImport ≠ 0 →
    ∃ img', ImportsFit (sizeOfImage file) resolve img (dirRva file imageDirectoryEntryImport) img'

/-- What stands behind the directory is taken for blocks that change nothing; or the words of the blocks that the walk
does not come to add up to nothing. -/
def EndsThere (file img : Mem) (base : UInt64) (bs : List ℕ) : Prop :=
  if ∀ b ∈ bs, load img b 4 ≠ 0 then
    BlocksFit (sizeOfImage file) (base - imageBase file)
      (addAll (base - imageBase file) img (tableWords img bs))
      (dirRva file imageDirectoryEntryBasereloc + dirSize file imageDirectoryEntryBasereloc)
      (addAll (base - imageBase file) img (tableWords img bs))
  else addAll (base - imageBase file) img (tableWords img (walkedBlocks img bs)) =
    addAll (base - imageBase file) img (tableWords img bs)

theorem confined_iff (h : Accepted file size) :
    Confined file size img base resolve ↔ Fits file size img base resolve := by
  unfold Confined
  rw [peLoadSections_isSome h, peApplyRelocations_eq h, peResolveImports_eq h]
  constructor
  · rintro ⟨hsections, hrelocs, himports⟩
    refine ⟨hsections, fun hdelta hrva => ?_, fun hrva => ?_⟩
    · rw [if_neg hdelta, if_neg hrva] at hrelocs
      obtain ⟨img', hrun⟩ := Option.isSome_iff_exists.mp hrelocs
      exact ⟨img', (relocLoop_iff (sizeOfImage_lt file)).mp hrun⟩
    · rw [if_neg hrva] at himports
      obtain ⟨img', hrun⟩ := Option.isSome_iff_exists.mp himports
      exact ⟨img', importLoop_iff.mp hrun⟩
  · rintro ⟨hsections, hblocks, himports⟩
    refine ⟨hsections, ?_, ?_⟩
    · split_ifs with hdelta hrva
      · rfl
      · rfl
      · obtain ⟨img', hfit⟩ := hblocks hdelta hrva
        rw [(relocLoop_iff (sizeOfImage_lt file)).mpr hfit]
        rfl
    · split_ifs with hrva
      · rfl
      · obtain ⟨img', hfit⟩ := himports hrva
        rw [importLoop_iff.mpr hfit]
        rfl

theorem relocates_iff (h : Accepted file size) (hwf : WellFormed file img bs) :
    Relocates file size img base bs ↔ (base - imageBase file ≠ 0 → EndsThere file img base bs) := by
  unfold Relocates
  rw [peApplyRelocations_eq h]
  by_cases hdelta : base - imageBase file = 0
  · rw [if_pos hdelta, hdelta, addAll_zero]
    exact iff_of_true rfl fun hne => absurd rfl hne
  · have hsame : SameIn (dirRva file imageDirectoryEntryBasereloc)
        (dirRva file imageDirectoryEntryBasereloc + dirSize file imageDirectoryEntryBasereloc) img img :=
      fun _ _ _ => rfl
    rw [if_neg hdelta, if_neg hwf.rva, imp_iff_right hdelta,
      relocLoop_words hwf.blocks hwf.inImage hsame (Nat.le_refl _) hwf.apart]
    unfold EndsThere
    split_ifs
    · exact relocLoop_iff (sizeOfImage_lt file)
    · exact Option.some_inj

/-- The headers of a file without sections, for an image of 12 bytes, with a relocation directory of 8 bytes at 4. -/
def smallFile : Mem := fun i =>
  ((([(0, 0x4D), (1, 0x5A), (60, 64), (64, 0x50), (65, 0x45), (68, 0x64), (69, 0x86), (88, 0x0B), (89, 0x02),
    (144, 12), (240, 4), (244, 8)] : List (ℕ × UInt8)).find? fun byte => byte.1 = i).map Prod.snd).getD 0

/-- An image with one block without entries, of page 4096. -/
def smallImage : Mem := fun i => if i = 5 then 16 else if i = 8 then 8 else 0

theorem smallFile_accepted : Accepted smallFile 328 := by
  unfold Accepted
  decide

end Pe
