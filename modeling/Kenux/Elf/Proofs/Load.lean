import Kenux.Elf.Model
import Kenux.Lib.Word

/-!
# What the loader maps

Every page of a segment gets a frame with what is copied for it. The first page of a segment that starts within a page
may be copied to its end, and the pages of the stack come last.
-/

namespace Elf

open Memory Reads

variable {data : Mem} {n i N : ℕ} {ph : Phdr} {va off flags : UInt64} {s : LoadState}

/-! ## Pages -/

/-- The frame of a page: what is copied, and zeros around it. -/
def partFrame (data : Mem) (ph : Phdr) (off : UInt64) : Mem :=
  write (fun _ => 0) (copyPart ph off).1.toNat
    (bytes data (off + (copyPart ph off).1).toNat (copyPart ph off).2.toNat).value

/-- The page numbers of a segment. -/
def Phdr.Covers (ph : Phdr) (P : ℕ) : Prop := ph.vaddr.toNat / 4096 ≤ P ∧ P < ph.vaddr.toNat / 4096 + ph.pages

instance (ph : Phdr) (P : ℕ) : Decidable (ph.Covers P) := inferInstanceAs (Decidable (_ ∧ _))

/-- The frame of page `P` of a segment. -/
def Phdr.frame (data : Mem) (ph : Phdr) (P : ℕ) : Mem :=
  partFrame data ph (ph.pageOffset (P - ph.vaddr.toNat / 4096))

theorem loadPages_value (hva : va.toNat + 4096 * n ≤ 2 ^ 64) : (loadPages data ph flags n va off s).value =
    if n ≤ s.frames then some ⟨s.frames - n, fun P =>
      if va.toNat / 4096 ≤ P ∧ P < va.toNat / 4096 + n then
        some ⟨partFrame data ph (UInt64.ofNat (off.toNat + 4096 * (P - va.toNat / 4096))), flags⟩
      else s.space P⟩
    else none := by
  induction n generalizing va off s with
  | zero =>
    have hnone : ∀ P, ¬(va.toNat / 4096 ≤ P ∧ P < va.toNat / 4096 + 0) := fun P hP => by omega
    simp only [hnone, Nat.zero_le, if_true, if_false, Nat.sub_zero]
    rfl
  | succ n ih =>
    unfold loadPages
    rcases Nat.eq_zero_or_pos s.frames with hzero | hpos
    · rw [if_pos hzero, if_neg (by omega)]
      rfl
    · have hsize : pageSize.toNat = 4096 := rfl
      have hnext : (va + pageSize).toNat = va.toNat + 4096 ∨ n = 0 := by
        rw [UInt64.toNat_add, hsize]
        omega
      have hoff : ∀ j, UInt64.ofNat ((off + pageSize).toNat + 4096 * j) = UInt64.ofNat (off.toNat + 4096 * (j + 1)) :=
        offset_succ off
      rw [if_neg hpos.ne']
      simp only [value_bind]
      rw [ih (by rcases hnext with hnext | hnext <;> have := (va + pageSize).toNat_lt <;> omega)]
      dsimp only
      by_cases hle : n + 1 ≤ s.frames
      · rw [if_pos hle, if_pos (by omega)]
        have hspace : ∀ P, (if (va + pageSize).toNat / 4096 ≤ P ∧ P < (va + pageSize).toNat / 4096 + n then
              some (⟨partFrame data ph (UInt64.ofNat ((off + pageSize).toNat +
                4096 * (P - (va + pageSize).toNat / 4096))), flags⟩ : Page)
            else pmapMapPage s.space va (partFrame data ph off) flags P) =
            if va.toNat / 4096 ≤ P ∧ P < va.toNat / 4096 + (n + 1) then
              some ⟨partFrame data ph (UInt64.ofNat (off.toNat + 4096 * (P - va.toNat / 4096))), flags⟩
            else s.space P := by
          intro P
          unfold pmapMapPage
          rw [hoff]
          by_cases hP : P = va.toNat / 4096
          · have hnot : ¬((va + pageSize).toNat / 4096 ≤ P ∧ P < (va + pageSize).toNat / 4096 + n) := by
              rcases hnext with hnext | hnext <;> omega
            rw [if_neg hnot, if_pos (by omega), hP, Function.update_self, Nat.sub_self, ofNat_toNat_zero]
          · rw [Function.update_of_ne hP]
            rcases hnext with hnext | rfl
            · have hiff : (va + pageSize).toNat / 4096 ≤ P ∧ P < (va + pageSize).toNat / 4096 + n ↔
                  va.toNat / 4096 ≤ P ∧ P < va.toNat / 4096 + (n + 1) := by omega
              by_cases hin : va.toNat / 4096 ≤ P ∧ P < va.toNat / 4096 + (n + 1)
              · have hdist : P - (va + pageSize).toNat / 4096 + 1 = P - va.toNat / 4096 := by omega
                rw [if_pos hin, if_pos (hiff.mpr hin), hdist]
              · rw [if_neg hin, if_neg fun h => hin (hiff.mp h)]
            · rw [if_neg (by omega), if_neg (by omega)]
        refine congrArg some ?_
        rw [LoadState.mk.injEq]
        exact ⟨by omega, funext hspace⟩
      · rw [if_neg hle, if_neg (by omega)]

theorem toNat_pageDown (va : UInt64) : (pageDown va).toNat = va.toNat / 4096 * 4096 := by
  have hmask := Word.toNat_and_field (a := va) 12 52 (show (~~~(pageSize - 1)).toNat = (2 ^ 52 - 1) * 2 ^ 12 by rfl)
  have hlt := va.toNat_lt
  have hmod : va.toNat / 4096 % 2 ^ 52 = va.toNat / 4096 := Nat.mod_eq_of_lt (by omega)
  unfold pageDown
  rw [hmask]
  show va.toNat / 4096 % 2 ^ 52 * 4096 = va.toNat / 4096 * 4096
  rw [hmod]

/-- The flags of a segment's pages. -/
def Phdr.pageFlags (ph : Phdr) : UInt64 :=
  if ph.flags &&& pfW ≠ 0 then pagePresent ||| pageUser ||| pageWritable else pagePresent ||| pageUser

/-- What a segment that gets its frames leaves mapped. -/
def Phdr.mapped (data : Mem) (ph : Phdr) (space : Space) : Space :=
  fun P => if ph.Covers P then some ⟨ph.frame data P, ph.pageFlags⟩ else space P

theorem Phdr.mapped_in (space : Space) {P : ℕ} (h : ph.Covers P) :
    ph.mapped data space P = some ⟨ph.frame data P, ph.pageFlags⟩ := if_pos h

theorem Phdr.mapped_out (space : Space) {P : ℕ} (h : ¬ph.Covers P) : ph.mapped data space P = space P :=
  if_neg h

theorem loadSegment_value (data : Mem) (ph : Phdr) (s : LoadState) : (loadSegment data ph s).value =
    if ph.pages ≤ s.frames then some ⟨s.frames - ph.pages, ph.mapped data s.space⟩ else none := by
  have hva : (pageDown ph.vaddr).toNat + 4096 * ph.pages ≤ 2 ^ 64 := by
    have hlt := (pageDown (ph.vaddr + ph.memsz + pageSize - 1)).toNat_lt
    have hle := (pageDown ph.vaddr).toNat_lt
    unfold Phdr.pages
    dsimp only
    omega
  have hdiv : (pageDown ph.vaddr).toNat / 4096 = ph.vaddr.toNat / 4096 := by
    rw [toNat_pageDown]
    omega
  have hflags : loadSegment data ph s =
      loadPages data ph ph.pageFlags ph.pages (pageDown ph.vaddr) (pageDown ph.offset) s := rfl
  rw [hflags, loadPages_value hva, hdiv]
  rfl

/-- How many pages the segments from `i` on have. -/
def pagesFrom (data : Mem) : ℕ → ℕ → ℕ
  | 0, _ => 0
  | n + 1, i => (if phType data i = ptLoad then (phdr data i).pages else 0) + pagesFrom data n (i + 1)

theorem loadSegments_some (h : pagesFrom data n i ≤ s.frames) :
    ∃ t, (loadSegments data (phoff data) n i s).value = some t ∧ t.frames = s.frames - pagesFrom data n i := by
  induction n generalizing i s with
  | zero => exact ⟨s, rfl, (Nat.sub_zero _).symm⟩
  | succ n ih =>
    unfold pagesFrom at h ⊢
    rw [loadSegments_succ]
    split_ifs at h ⊢ with hload
    · rw [loadSegment_value, if_pos (by omega), Option.bind_some]
      obtain ⟨t, ht, hframes⟩ := ih (i := i + 1)
        (s := ⟨s.frames - (phdr data i).pages, (phdr data i).mapped data s.space⟩) (by dsimp only; omega)
      refine ⟨t, ht, hframes.trans ?_⟩
      dsimp only
      omega
    · obtain ⟨t, ht, hframes⟩ := ih (i := i + 1) (s := s) (by omega)
      exact ⟨t, ht, hframes.trans (by omega)⟩

/-- With enough frames everything that segments copy is read. -/
theorem segmentsFit_of_within (hframes : pagesFrom data n i ≤ s.frames)
    (h : Within N (loadSegments data (phoff data) n i s)) :
    ∀ j < n, phType data (i + j) = ptLoad → SegmentFits N (phdr data (i + j)) := by
  induction n generalizing i s with
  | zero => exact fun j hj => absurd hj (Nat.not_lt_zero j)
  | succ n ih =>
    obtain ⟨-, hskip, hsegment⟩ := within_loadSegments_succ.mp h
    unfold pagesFrom at hframes
    have hnext : ∀ j < n, phType data (i + 1 + j) = ptLoad → SegmentFits N (phdr data (i + 1 + j)) := by
      by_cases hload : phType data i = ptLoad
      · rw [if_pos hload] at hframes
        obtain ⟨-, -, hrest⟩ := hsegment hload
        have hvalue := loadSegment_value data (phdr data i) s
        rw [if_pos (by omega)] at hvalue
        exact ih (by dsimp only; omega) (hrest _ hvalue)
      · rw [if_neg hload] at hframes
        exact ih (by omega) (hskip hload)
    intro j hj hload
    cases j with
    | zero =>
      rw [Nat.add_zero] at hload ⊢
      rw [if_pos hload] at hframes
      exact segmentFits_of_within (by omega) (hsegment hload).2.1
    | succ j =>
      rw [← Nat.add_assoc, Nat.add_right_comm] at hload ⊢
      exact hnext j (Nat.lt_of_succ_lt_succ hj) hload

/-- What the segments leave mapped, where they have no page in common. -/
theorem loadSegments_space (hapart : ∀ j k P, j < k → k < i + n → phType data j = ptLoad → phType data k = ptLoad →
      (phdr data j).Covers P → ¬(phdr data k).Covers P) {t : LoadState}
    (h : (loadSegments data (phoff data) n i s).value = some t) :
    (∀ j P, i ≤ j → j < i + n → phType data j = ptLoad → (phdr data j).Covers P →
      t.space P = some ⟨(phdr data j).frame data P, (phdr data j).pageFlags⟩) ∧
    ∀ P, (∀ j, i ≤ j → j < i + n → phType data j = ptLoad → ¬(phdr data j).Covers P) → t.space P = s.space P := by
  induction n generalizing i s with
  | zero =>
    obtain rfl : s = t := Option.some.inj h
    exact ⟨fun j P hle hlt => absurd hlt (Nat.not_lt.mpr hle), fun P _ => rfl⟩
  | succ n ih =>
    rw [loadSegments_succ] at h
    have hapart' : ∀ j k P, j < k → k < i + 1 + n → phType data j = ptLoad → phType data k = ptLoad →
        (phdr data j).Covers P → ¬(phdr data k).Covers P :=
      fun j k P hjk hk => hapart j k P hjk (by omega)
    by_cases hload : phType data i = ptLoad
    · rw [if_pos hload, loadSegment_value] at h
      split_ifs at h with hle
      · obtain ⟨hin, hout⟩ := ih hapart' h
        refine ⟨fun j P hij hj hjload hP => ?_, fun P hP => ?_⟩
        · rcases Nat.eq_or_lt_of_le hij with rfl | hlt
          · rw [hout P fun k hk hkn hkload => hapart i k P hk (by omega) hjload hkload hP]
            exact (phdr data i).mapped_in _ hP
          · exact hin j P hlt (by omega) hjload hP
        · rw [hout P fun k hk hkn hkload => hP k (by omega) (by omega) hkload]
          exact (phdr data i).mapped_out _ (hP i (Nat.le_refl i) (by omega) hload)
      · exact absurd h (by simp)
    · rw [if_neg hload] at h
      obtain ⟨hin, hout⟩ := ih hapart' h
      refine ⟨fun j P hij hj hjload hP => ?_, fun P hP => ?_⟩
      · rcases Nat.eq_or_lt_of_le hij with rfl | hlt
        · exact absurd hjload hload
        · exact hin j P hlt (by omega) hjload hP
      · exact hout P fun k hk hkn hkload => hP k (by omega) (by omega) hkload

/-! ## The stack -/

/-- The page numbers of the stack. -/
def InStack (P : ℕ) : Prop := 0x7FFFFFDFF ≤ P ∧ P < 0x7FFFFFFFF

instance (P : ℕ) : Decidable (InStack P) := inferInstanceAs (Decidable (_ ∧ _))

theorem mapStack_space {vas : List UInt64} {t : LoadState} (h : mapStack vas s = some t) (P : ℕ) :
    ((∃ va ∈ vas, va.toNat / 4096 = P) → t.space P = some ⟨fun _ => 0, pagePresent ||| pageWritable ||| pageUser⟩) ∧
      ((∀ va ∈ vas, va.toNat / 4096 ≠ P) → t.space P = s.space P) := by
  induction vas generalizing s with
  | nil =>
    obtain rfl : s = t := Option.some.inj h
    exact ⟨fun ⟨va, hva, _⟩ => absurd hva List.not_mem_nil, fun _ => rfl⟩
  | cons va vas ih =>
    unfold mapStack at h
    split_ifs at h with hzero
    obtain ⟨hin, hout⟩ := ih h
    have hout' : (∀ va ∈ vas, va.toNat / 4096 ≠ P) → t.space P = Function.update s.space (va.toNat / 4096)
        (some ⟨fun _ => 0, pagePresent ||| pageWritable ||| pageUser⟩) P := hout
    constructor
    · intro hex
      by_cases hlater : ∃ va ∈ vas, va.toNat / 4096 = P
      · exact hin hlater
      · obtain ⟨va', hva', rfl⟩ := hex
        rcases List.mem_cons.mp hva' with rfl | hmem
        · rw [hout' fun u hu heq => hlater ⟨u, hu, heq⟩, Function.update_self]
        · exact absurd ⟨va', hmem, rfl⟩ hlater
    · intro hall
      obtain ⟨hne, hrest⟩ := List.forall_mem_cons.mp hall
      rw [hout' hrest, Function.update_of_ne (Ne.symm hne)]

theorem mapStack_some {vas : List UInt64} (h : vas.length ≤ s.frames) : ∃ t, mapStack vas s = some t := by
  induction vas generalizing s with
  | nil => exact ⟨s, rfl⟩
  | cons va vas ih =>
    rw [List.length_cons] at h
    unfold mapStack
    rw [if_neg (by omega)]
    exact ih (by dsimp only; omega)

theorem mem_stackPages {P : ℕ} : (∃ va ∈ stackPages, va.toNat / 4096 = P) ↔ InStack P := by
  have hat : ∀ i < 512,
      (userStackTop - userStackSize + pageSize * UInt64.ofNat i).toNat = 0x7FFFFFDFFFFF + 4096 * i := by
    intro i hi
    have hbottom : (userStackTop - userStackSize).toNat = 0x7FFFFFDFFFFF := rfl
    have hsize : pageSize.toNat = 4096 := rfl
    have hofNat : (UInt64.ofNat i).toNat = i := UInt64.toNat_ofNat_of_lt' (by unfold UInt64.size; omega)
    rw [UInt64.toNat_add, UInt64.toNat_mul, hbottom, hsize, hofNat]
    omega
  have hcount : (userStackSize.toNat + 4095) / 4096 = 512 := rfl
  unfold stackPages InStack
  simp only [List.mem_map, List.mem_range, hcount]
  constructor
  · rintro ⟨va, ⟨i, hi, rfl⟩, rfl⟩
    rw [hat i hi]
    omega
  · rintro ⟨hlow, hhigh⟩
    refine ⟨_, ⟨P - 0x7FFFFFDFF, by omega, rfl⟩, ?_⟩
    rw [hat _ (by omega)]
    omega

/-- What the stack leaves mapped. -/
theorem stack_space {t : LoadState} (h : mapStack stackPages s = some t) (P : ℕ) : t.space P =
    if InStack P then some ⟨fun _ => 0, pagePresent ||| pageWritable ||| pageUser⟩ else s.space P := by
  obtain ⟨hstack, hkept⟩ := mapStack_space h P
  by_cases hP : InStack P
  · rw [if_pos hP]
    exact hstack (mem_stackPages.mpr hP)
  · rw [if_neg hP]
    exact hkept fun va hva heq => hP (mem_stackPages.mp ⟨va, hva, heq⟩)

/-! ## The bytes of a page -/

theorem toNat_fileEnd (h : ph.offset.toNat + ph.filesz.toNat < 2 ^ 64) :
    (ph.offset + ph.filesz).toNat = ph.offset.toNat + ph.filesz.toNat := Word.toNat_add_lt h

theorem copyPart_behind (h : ph.offset.toNat + ph.filesz.toNat < 2 ^ 64) {off : UInt64}
    (hle : ph.offset.toNat + ph.filesz.toNat ≤ off.toNat) : copyPart ph off = (0, 0) := by
  have hend := toNat_fileEnd h
  unfold copyPart
  exact if_neg fun hless => Nat.not_lt.mpr hle (by rw [← hend]; exact UInt64.lt_iff_toNat_lt.mp hless)

theorem copyPart_start (h : ph.offset.toNat + ph.filesz.toNat < 2 ^ 64) {off : UInt64}
    (hlt : off.toNat < ph.offset.toNat + ph.filesz.toNat) :
    (copyPart ph off).1.toNat = ph.offset.toNat - off.toNat := by
  have hend := toNat_fileEnd h
  have hless : off < ph.offset + ph.filesz := UInt64.lt_iff_toNat_lt.mpr (by rw [hend]; exact hlt)
  unfold copyPart
  dsimp only
  rw [if_pos hless]
  by_cases hbefore : off < ph.offset
  · rw [if_pos hbefore]
    exact UInt64.toNat_sub_of_le _ _ (UInt64.le_of_lt hbefore)
  · have hle := UInt64.le_iff_toNat_le.mp (UInt64.not_lt.mp hbefore)
    rw [if_neg hbefore, Nat.sub_eq_zero_of_le hle]
    rfl

theorem copyPart_size (h : ph.offset.toNat + ph.filesz.toNat < 2 ^ 64) {off : UInt64}
    (hlt : off.toNat < ph.offset.toNat + ph.filesz.toNat) (hstart : ph.offset.toNat - off.toNat ≤ 4096) :
    (copyPart ph off).2.toNat =
      if ph.offset.toNat + ph.filesz.toNat < (off.toNat + (4096 - (ph.offset.toNat - off.toNat))) % 2 ^ 64 then
        ph.offset.toNat + ph.filesz.toNat - off.toNat - (ph.offset.toNat - off.toNat)
      else 4096 - (ph.offset.toNat - off.toNat) := by
  have hend := toNat_fileEnd h
  have hsize : pageSize.toNat = 4096 := rfl
  have hless : off < ph.offset + ph.filesz := UInt64.lt_iff_toNat_lt.mpr (by rw [hend]; exact hlt)
  have hfirst := copyPart_start h hlt
  unfold copyPart at hfirst ⊢
  dsimp only at hfirst ⊢
  rw [if_pos hless] at hfirst ⊢
  dsimp only at hfirst ⊢
  generalize (if off < ph.offset then ph.offset - off else 0) = start at hfirst
  have hroom : (pageSize - start).toNat = 4096 - (ph.offset.toNat - off.toNat) := by
    rw [UInt64.toNat_sub_of_le _ _ (UInt64.le_iff_toNat_le.mpr (by omega)), hsize, hfirst]
  have hsum : (off + (pageSize - start)).toNat = (off.toNat + (4096 - (ph.offset.toNat - off.toNat))) % 2 ^ 64 := by
    rw [UInt64.toNat_add, hroom]
  by_cases hover : ph.offset.toNat + ph.filesz.toNat < (off.toNat + (4096 - (ph.offset.toNat - off.toNat))) % 2 ^ 64
  · have hgt : off + (pageSize - start) > ph.offset + ph.filesz :=
      UInt64.lt_iff_toNat_lt.mpr (by rw [hend, hsum]; exact hover)
    have hrest : (ph.offset + ph.filesz - off).toNat = ph.offset.toNat + ph.filesz.toNat - off.toNat := by
      rw [UInt64.toNat_sub_of_le _ _ (UInt64.le_of_lt hless), hend]
    rw [if_pos hgt, if_pos hover, UInt64.toNat_sub_of_le _ _ (UInt64.le_iff_toNat_le.mpr (by omega)), hrest, hfirst]
  · have hnot : ¬off + (pageSize - start) > ph.offset + ph.filesz := fun hgt => hover (by
      have hgt := UInt64.lt_iff_toNat_lt.mp hgt
      rwa [hend, hsum] at hgt)
    rw [if_neg hnot, if_neg hover, hroom]

/-- The bytes of a frame. -/
theorem partFrame_byte (data : Mem) (ph : Phdr) (off : UInt64) (x : ℕ) : partFrame data ph off x =
    if (copyPart ph off).1.toNat ≤ x ∧ x < (copyPart ph off).1.toNat + (copyPart ph off).2.toNat then
      data ((off + (copyPart ph off).1).toNat + (x - (copyPart ph off).1.toNat))
    else 0 := by
  unfold partFrame
  rw [value_bytes]
  split_ifs with hin
  · obtain ⟨d, rfl⟩ := Nat.exists_eq_add_of_le hin.1
    have hd : d < ((List.range (copyPart ph off).2.toNat).map fun i =>
        data ((off + (copyPart ph off).1).toNat + i)).length := by
      rw [List.length_map, List.length_range]
      omega
    rw [write_get hd, List.getElem_map, List.getElem_range, Nat.add_sub_cancel_left]
  · refine write_other ?_
    rw [List.length_map, List.length_range]
    omega

/-- Byte `k` of a segment, on the first page or a later one. -/
def Phdr.byte (data : Mem) (ph : Phdr) (k : ℕ) : UInt8 :=
  if k < ph.filesz.toNat ∨
      k + ph.offset.toNat % 4096 < 4096 ∧ 4096 ≤ ph.filesz.toNat + 2 * (ph.offset.toNat % 4096) then
    data (ph.offset.toNat + k)
  else 0

/-- What the frame of a page has at the place of byte `k`: also what stands behind the segment in the file, where the
first page is copied to its end. -/
theorem frame_byte {k : ℕ} (hsize : N < 2 ^ 64) (hfile : ph.offset.toNat + ph.filesz.toNat ≤ N)
    (hcongr : ph.offset.toNat % 4096 = ph.vaddr.toNat % 4096) (hend : ph.vaddr.toNat + k < 2 ^ 64)
    (hfits : PartFits N ph (ph.pageOffset ((ph.vaddr.toNat + k) / 4096 - ph.vaddr.toNat / 4096))) :
    ph.frame data ((ph.vaddr.toNat + k) / 4096) ((ph.vaddr.toNat + k) % 4096) = ph.byte data k := by
  have hnowrap : ph.offset.toNat + ph.filesz.toNat < 2 ^ 64 := by omega
  unfold Phdr.frame
  rw [partFrame_byte]
  unfold PartFits at hfits
  generalize hj : (ph.vaddr.toNat + k) / 4096 - ph.vaddr.toNat / 4096 = j at hfits ⊢
  -- the byte is at place x of page j
  have hx : (ph.vaddr.toNat + k) % 4096 < 4096 := Nat.mod_lt _ (by decide)
  have hr : ph.offset.toNat % 4096 < 4096 := Nat.mod_lt _ (by decide)
  have hplace : ph.offset.toNat % 4096 + k = 4096 * j + (ph.vaddr.toNat + k) % 4096 := by
    clear hfits hfile hnowrap
    omega
  have hlast : 4096 * j + 4096 ≤ 2 ^ 64 := by
    clear hfits hfile hnowrap hplace
    omega
  have hoff : (ph.pageOffset j).toNat = (ph.offset.toNat / 4096 * 4096 + 4096 * j) % 2 ^ 64 := by
    unfold Phdr.pageOffset
    rw [UInt64.toNat_ofNat', toNat_pageDown]
  have hbase : ph.offset.toNat / 4096 * 4096 + ph.offset.toNat % 4096 = ph.offset.toNat := Nat.div_add_mod' _ _
  unfold Phdr.byte
  clear hj hcongr hend
  generalize ph.pageOffset j = off at hfits hoff ⊢
  generalize ph.offset.toNat / 4096 * 4096 = base at hoff hbase
  generalize ph.offset.toNat % 4096 = r at hr hplace hbase ⊢
  generalize (ph.vaddr.toNat + k) % 4096 = x at hx hplace ⊢
  by_cases hlt : off.toNat < ph.offset.toNat + ph.filesz.toNat
  · have hstart := copyPart_start hnowrap hlt
    have hsum : (off + (copyPart ph off).1).toNat = off.toNat + (ph.offset.toNat - off.toNat) := by
      rw [Word.toNat_add_lt (by omega), hstart]
    rw [← toNat_eq_zero, hsum] at hfits
    rw [hsum]
    by_cases hwrap : 2 ^ 64 ≤ base + 4096 * j
    · -- the offset went round: the part starts behind the page
      have hround : off.toNat + 2 ^ 64 = base + 4096 * j := by
        rw [hoff]
        omega
      clear hoff hfits
      rw [if_neg (by omega), if_neg (by omega)]
    · rw [Nat.mod_eq_of_lt (Nat.not_le.mp hwrap)] at hoff
      have hstartLe : ph.offset.toNat - off.toNat < 4096 := by omega
      have hsize := copyPart_size hnowrap hlt hstartLe.le
      -- the part ends in the file, so that its end does not go round
      have hinside : off.toNat + (4096 - (ph.offset.toNat - off.toNat)) < 2 ^ 64 := by
        by_contra hover
        rw [hsize, if_neg (by omega)] at hfits
        omega
      rw [Nat.mod_eq_of_lt hinside] at hsize
      clear hfits hinside hwrap hsum hfile hlast
      rw [hstart, hsize]
      clear hsize hstart
      split_ifs <;> first | rfl | (congr 1; omega)
  · rw [copyPart_behind hnowrap (Nat.not_lt.mp hlt)]
    have hreached : base + 4096 * j < 2 ^ 64 := by omega
    rw [Nat.mod_eq_of_lt hreached] at hoff
    rw [if_neg (by simp), if_neg (by omega)]

/-! ## The whole file -/

/-- The file is one that the loader takes. -/
def Verified (data : Mem) (size : UInt64) : Prop := ehdrSize ≤ size.toNat ∧ (elfVerify data).value = true

/-- The pages from the first byte of a segment to its end. -/
def Phdr.InPages (ph : Phdr) (P : ℕ) : Prop :=
  ph.vaddr.toNat / 4096 ≤ P ∧ P * 4096 < ph.vaddr.toNat + ph.memsz.toNat

/-- Segments as a linker makes them. -/
structure SegmentsOk (data : Mem) (size : UInt64) : Prop where
  sizes : ∀ i < phnum data, phType data i = ptLoad → (phdr data i).filesz ≤ (phdr data i).memsz
  congruent : ∀ i < phnum data, phType data i = ptLoad →
    (phdr data i).offset.toNat % 4096 = (phdr data i).vaddr.toNat % 4096
  ends : ∀ i < phnum data, phType data i = ptLoad → (phdr data i).vaddr.toNat + (phdr data i).memsz.toNat < 2 ^ 64
  inFile : ∀ i < phnum data, phType data i = ptLoad →
    (phdr data i).offset.toNat + (phdr data i).filesz.toNat ≤ size.toNat
  apart : ∀ i < phnum data, ∀ j < phnum data, i ≠ j → phType data i = ptLoad → phType data j = ptLoad →
    ∀ P, (phdr data i).InPages P → ¬(phdr data j).InPages P

/-- The byte that is mapped at an address. -/
def byteAt (space : Space) (va : ℕ) : Option UInt8 := (space (va / 4096)).map fun page => page.bytes (va % 4096)

/-- Each segment is mapped as the file has it, with zeros behind; and nothing but the file is read. -/
def LoadOk (data : Mem) (size : UInt64) : Prop :=
  (SegmentsOk data size → ∀ env info, (elfLoadFromMemory data size env).value = some info →
    ∀ i < phnum data, phType data i = ptLoad → ∀ k < (phdr data i).memsz.toNat,
      byteAt info.pml4 ((phdr data i).vaddr.toNat + k) =
        some (if k < (phdr data i).filesz.toNat then data ((phdr data i).offset.toNat + k) else 0)) ∧
  ∀ env, Within size.toNat (elfLoadFromMemory data size env)

/-- Where a segment lies in the stack, its bytes are zero. Elsewhere its end rounds up to a page, and if its first page
is copied to the end, what stands behind it in the file is zero. -/
def BytesOk (data : Mem) (ph : Phdr) : Prop :=
  ∀ k < ph.memsz.toNat,
    if InStack ((ph.vaddr.toNat + k) / 4096) then k < ph.filesz.toNat → data (ph.offset.toNat + k) = 0
    else ph.vaddr.toNat + ph.memsz.toNat + 4095 < 2 ^ 64 ∧
      (ph.filesz.toNat ≤ k → k + ph.offset.toNat % 4096 < 4096 →
        4096 ≤ ph.filesz.toNat + 2 * (ph.offset.toNat % 4096) → data (ph.offset.toNat + k) = 0)

/-- The headers, the interpreter's name and what is copied lie in the file, and the bytes are right. -/
def FileFits (data : Mem) (size : UInt64) : Prop :=
  (∀ i < phnum data, HeaderFits data size.toNat i) ∧
    (∀ i < phnum data, phType data i = ptLoad → SegmentFits size.toNat (phdr data i)) ∧
    (SegmentsOk data size → ∀ i < phnum data, phType data i = ptLoad → BytesOk data (phdr data i))

theorem pages_eq (h : ph.vaddr.toNat + ph.memsz.toNat < 2 ^ 64) : ph.pages =
    if ph.vaddr.toNat + ph.memsz.toNat + 4095 < 2 ^ 64 then
      (ph.vaddr.toNat + ph.memsz.toNat + 4095) / 4096 - ph.vaddr.toNat / 4096
    else 0 := by
  have hsize : pageSize.toNat = 4096 := rfl
  have hone : (1 : UInt64).toNat = 1 := rfl
  have hsum : (ph.vaddr + ph.memsz + pageSize - 1).toNat =
      (ph.vaddr.toNat + ph.memsz.toNat + 4095) % 2 ^ 64 := by
    rw [UInt64.toNat_sub, UInt64.toNat_add, UInt64.toNat_add, hsize, hone]
    omega
  unfold Phdr.pages
  dsimp only
  rw [toNat_pageDown, toNat_pageDown, hsum]
  split_ifs <;> omega

theorem Phdr.Covers.inPages (h : ph.vaddr.toNat + ph.memsz.toNat < 2 ^ 64) {P : ℕ} (hP : ph.Covers P) :
    ph.InPages P := by
  obtain ⟨hlow, hhigh⟩ := hP
  rw [pages_eq h] at hhigh
  refine ⟨hlow, ?_⟩
  split_ifs at hhigh <;> omega

/-- The page of a byte is one of the segment's, if its end rounds up. -/
theorem covers_iff (h : ph.vaddr.toNat + ph.memsz.toNat < 2 ^ 64) {k : ℕ} (hk : k < ph.memsz.toNat) :
    ph.Covers ((ph.vaddr.toNat + k) / 4096) ↔ ph.vaddr.toNat + ph.memsz.toNat + 4095 < 2 ^ 64 := by
  unfold Phdr.Covers
  rw [pages_eq h]
  split_ifs with hround
  · exact iff_of_true (by omega) hround
  · exact iff_of_false (by omega) hround

theorem inPages_of_lt {k : ℕ} (hk : k < ph.memsz.toNat) : ph.InPages ((ph.vaddr.toNat + k) / 4096) := by
  unfold Phdr.InPages
  omega

/-- The loader goes through its parts, or returns early. -/
theorem load_eq {sz : UInt64} (hv : Verified data sz) (env : Env) : ∃ f : LoadState → ElfLoadInfo,
    (∀ t, (f t).pml4 = t.space) ∧ (elfLoadFromMemory data sz env).value =
      if env.created then (loadSegments data (phoff data) (phnum data) 0 ⟨env.frames, env.space⟩).value.bind fun s =>
        (mapStack stackPages s).map f
      else none := by
  obtain ⟨hsize, hverify⟩ := hv
  unfold elfLoadFromMemory
  rw [if_neg (Nat.not_lt.mpr hsize)]
  simp only [value_bind, hverify, Bool.not_true, Bool.false_eq_true, if_false]
  refine ⟨fun s => ⟨(xword data 24).value, userStackTop, (scanHeaders data (phoff data) (phnum data) 0
    (decide ((half data 16).value = 3) || (leonosCompatDetectElf data sz).value) 0).value.2, s.space,
    (half data 56).value, (half data 54).value, (scanHeaders data (phoff data) (phnum data) 0
    (decide ((half data 16).value = 3) || (leonosCompatDetectElf data sz).value) 0).value.1⟩, fun t => rfl, ?_⟩
  have hphoff : (xword data 32).value = phoff data := rfl
  have hphnum : (half data 56).value.toNat = phnum data := rfl
  rw [hphoff, hphnum]
  cases env.created with
  | false => rfl
  | true =>
    simp only [Bool.not_true, Bool.false_eq_true, if_false, if_true, value_bind]
    generalize mapStack stackPages = stack
    cases (loadSegments data (phoff data) (phnum data) 0 ⟨env.frames, env.space⟩).value with
    | none => rfl
    | some s => rfl

/-- A file that is not taken loads nothing. -/
theorem load_none {sz : UInt64} (hv : ¬Verified data sz) (env : Env) :
    (elfLoadFromMemory data sz env).value = none := by
  unfold elfLoadFromMemory
  by_cases hsize : sz.toNat < ehdrSize
  · rw [if_pos hsize]
    rfl
  · have hverify : (elfVerify data).value = false := by
      rw [← Bool.not_eq_true]
      exact fun htrue => hv ⟨Nat.not_lt.mp hsize, htrue⟩
    rw [if_neg hsize, value_bind, hverify]
    rfl

theorem within_load_of_not_verified {sz : UInt64} (hv : ¬Verified data sz) (env : Env) :
    Within sz.toNat (elfLoadFromMemory data sz env) := by
  unfold elfLoadFromMemory
  by_cases hsize : sz.toNat < ehdrSize
  · rw [if_pos hsize]
    exact within_pure _
  · have hverify : (elfVerify data).value = false := by
      rw [← Bool.not_eq_true]
      exact fun htrue => hv ⟨Nat.not_lt.mp hsize, htrue⟩
    rw [if_neg hsize, within_bind, hverify]
    exact ⟨within_elfVerify (Nat.not_lt.mp hsize), within_pure _⟩

/-- The reads of the whole. -/
theorem within_load {sz : UInt64} (hv : Verified data sz) (env : Env) :
    Within sz.toNat (elfLoadFromMemory data sz env) ↔ (∀ i < phnum data, HeaderFits data sz.toNat i) ∧
      (env.created = true →
        Within sz.toNat (loadSegments data (phoff data) (phnum data) 0 ⟨env.frames, env.space⟩)) := by
  obtain ⟨hsize, hverify⟩ := hv
  have hscan : ∀ b, Within sz.toNat (scanHeaders data (phoff data) (phnum data) 0 b 0) ↔
      ∀ i < phnum data, HeaderFits data sz.toNat i := by
    intro b
    rw [within_scanHeaders]
    simp only [Nat.zero_add]
  have hphoff : (xword data 32).value = phoff data := rfl
  have hphnum : (half data 56).value.toNat = phnum data := rfl
  unfold elfLoadFromMemory
  rw [if_neg (Nat.not_lt.mpr hsize)]
  simp only [within_bind, hverify, Bool.not_true, Bool.false_eq_true, if_false, within_half, within_xword, hphoff,
    hphnum, hscan]
  rw [within_ite, within_bind]
  have hdetect : (∀ i < phnum data, HeaderFits data sz.toNat i) → Within sz.toNat (leonosCompatDetectElf data sz) :=
    within_leonosCompatDetectElf hsize
  have hfirst : Within sz.toNat (elfVerify data) := within_elfVerify hsize
  unfold ehdrSize at hsize
  constructor
  · rintro ⟨-, -, -, -, -, -, -, hheaders, -, hrest⟩
    exact ⟨hheaders, fun hcreated => (hrest (by rw [hcreated]; decide)).1⟩
  · rintro ⟨hheaders, hload⟩
    refine ⟨hfirst, by omega, by omega, by omega, by omega, hdetect hheaders, by omega, hheaders,
      fun _ => within_pure _, fun hnot => ⟨hload ?_, ?_⟩⟩
    · simpa using hnot
    · cases (loadSegments data (phoff data) (phnum data) 0 ⟨env.frames, env.space⟩).value with
      | none => exact within_pure _
      | some s => exact within_pure _

/-- With enough frames the file is loaded. -/
theorem load_some {sz : UInt64} (hv : Verified data sz) (space : Space) :
    ∃ info, (elfLoadFromMemory data sz ⟨true, space, pagesFrom data (phnum data) 0 + 512⟩).value = some info := by
  obtain ⟨f, -, hvalue⟩ := load_eq hv ⟨true, space, pagesFrom data (phnum data) 0 + 512⟩
  obtain ⟨s, hs, hframes⟩ := loadSegments_some (n := phnum data) (i := 0)
    (s := ⟨pagesFrom data (phnum data) 0 + 512, space⟩) (Nat.le_add_right _ _)
  dsimp only at hframes
  obtain ⟨t, ht⟩ := mapStack_some (s := s) (show stackPages.length ≤ s.frames by
    rw [hframes, Nat.add_sub_cancel_left]
    unfold stackPages
    rw [List.length_map, List.length_range]
    exact Nat.le_refl 512)
  refine ⟨f t, ?_⟩
  rw [hvalue, if_pos rfl, hs, Option.bind_some, ht]
  rfl

/-- What is mapped of a segment in the end: its bytes as its pages were copied, and zeros where the stack is. -/
theorem load_byte {sz : UInt64} (hok : SegmentsOk data sz) {env : Env} {info : ElfLoadInfo}
    (h : (elfLoadFromMemory data sz env).value = some info) (hi : i < phnum data) (hload : phType data i = ptLoad)
    {k : ℕ} (hk : k < (phdr data i).memsz.toNat) :
    byteAt info.pml4 ((phdr data i).vaddr.toNat + k) =
      if InStack (((phdr data i).vaddr.toNat + k) / 4096) then some 0
      else if (phdr data i).Covers (((phdr data i).vaddr.toNat + k) / 4096) then
        some ((phdr data i).frame data (((phdr data i).vaddr.toNat + k) / 4096)
          (((phdr data i).vaddr.toNat + k) % 4096))
      else byteAt env.space ((phdr data i).vaddr.toNat + k) := by
  have hv : Verified data sz := by
    by_contra hnot
    rw [load_none hnot] at h
    exact absurd h (by simp)
  obtain ⟨f, hf, hvalue⟩ := load_eq hv env
  rw [hvalue] at h
  split_ifs at h with hcreated
  obtain ⟨s, hs, hmap⟩ := Option.bind_eq_some_iff.mp h
  obtain ⟨t, ht, rfl⟩ := Option.map_eq_some_iff.mp hmap
  rw [hf]
  have hapart : ∀ j k P, j < k → k < 0 + phnum data → phType data j = ptLoad → phType data k = ptLoad →
      (phdr data j).Covers P → ¬(phdr data k).Covers P := by
    intro j k P hjk hkn hj hk hP hP'
    rw [Nat.zero_add] at hkn
    exact hok.apart j (hjk.trans hkn) k hkn (Nat.ne_of_lt hjk) hj hk P
      (Phdr.Covers.inPages (hok.ends j (hjk.trans hkn) hj) hP) (Phdr.Covers.inPages (hok.ends k hkn hk) hP')
  obtain ⟨hin, hout⟩ := loadSegments_space hapart hs
  have hspace := stack_space ht
  clear ht
  unfold byteAt
  rw [hspace]
  split_ifs with hP hC
  · rw [Option.map_some]
  · rw [hin i _ (Nat.zero_le i) (by omega) hload hC, Option.map_some]
  · have hnone : ∀ j, 0 ≤ j → j < 0 + phnum data → phType data j = ptLoad →
        ¬(phdr data j).Covers (((phdr data i).vaddr.toNat + k) / 4096) := by
      intro j _ hj hjload hcov
      rw [Nat.zero_add] at hj
      rcases eq_or_ne i j with rfl | hne
      · exact hC hcov
      · exact hok.apart i hi j hj hne hload hjload _ (inPages_of_lt hk)
          (Phdr.Covers.inPages (hok.ends j hj hjload) hcov)
    rw [hout _ hnone]

/-- What a segment needs to be mapped right, where what is copied lies in the file. -/
theorem bytesOk_iff {sz : UInt64} (hv : Verified data sz) (hok : SegmentsOk data sz) (hi : i < phnum data)
    (hload : phType data i = ptLoad) (hfits : SegmentFits sz.toNat (phdr data i)) :
    (∀ env info, (elfLoadFromMemory data sz env).value = some info → ∀ k < (phdr data i).memsz.toNat,
      byteAt info.pml4 ((phdr data i).vaddr.toNat + k) =
        some (if k < (phdr data i).filesz.toNat then data ((phdr data i).offset.toNat + k) else 0)) ↔
      BytesOk data (phdr data i) := by
  have hends := hok.ends i hi hload
  have hframe : ∀ k < (phdr data i).memsz.toNat, (phdr data i).Covers (((phdr data i).vaddr.toNat + k) / 4096) →
      (phdr data i).frame data (((phdr data i).vaddr.toNat + k) / 4096) (((phdr data i).vaddr.toNat + k) % 4096) =
        (phdr data i).byte data k := by
    intro k hk hcovers
    have hpage := hfits ((((phdr data i).vaddr.toNat + k) / 4096) - (phdr data i).vaddr.toNat / 4096)
      (by unfold Phdr.Covers at hcovers; omega)
    exact frame_byte sz.toNat_lt (hok.inFile i hi hload) (hok.congruent i hi hload) (by omega) hpage
  have hbyte : ∀ k, (phdr data i).byte data k =
      (if k < (phdr data i).filesz.toNat then data ((phdr data i).offset.toNat + k) else 0) ↔
        ((phdr data i).filesz.toNat ≤ k → k + (phdr data i).offset.toNat % 4096 < 4096 →
          4096 ≤ (phdr data i).filesz.toNat + 2 * ((phdr data i).offset.toNat % 4096) →
            data ((phdr data i).offset.toNat + k) = 0) := by
    intro k
    unfold Phdr.byte
    grind
  constructor
  · intro hall k hk
    obtain ⟨info, hinfo⟩ := load_some hv fun _ => none
    have hmapped := hall _ info hinfo k hk
    rw [load_byte hok hinfo hi hload hk] at hmapped
    by_cases hstack : InStack (((phdr data i).vaddr.toNat + k) / 4096)
    · rw [if_pos hstack] at hmapped ⊢
      intro hlt
      rw [if_pos hlt] at hmapped
      exact (Option.some.inj hmapped).symm
    · rw [if_neg hstack] at hmapped ⊢
      by_cases hcovers : (phdr data i).Covers (((phdr data i).vaddr.toNat + k) / 4096)
      · rw [if_pos hcovers, hframe k hk hcovers] at hmapped
        exact ⟨(covers_iff hends hk).mp hcovers, (hbyte k).mp (Option.some.inj hmapped)⟩
      · rw [if_neg hcovers] at hmapped
        exact absurd hmapped (by simp [byteAt])
  · intro hbytes env info hinfo k hk
    have hk' := hbytes k hk
    rw [load_byte hok hinfo hi hload hk]
    by_cases hstack : InStack (((phdr data i).vaddr.toNat + k) / 4096)
    · rw [if_pos hstack] at hk' ⊢
      split_ifs with hlt
      · rw [hk' hlt]
      · rfl
    · rw [if_neg hstack] at hk' ⊢
      have hcovers := (covers_iff hends hk).mpr hk'.1
      rw [if_pos hcovers, hframe k hk hcovers, (hbyte k).mpr hk'.2]

/-- The loader is right and reads only the file exactly if the file fits. -/
theorem load_ok_iff (data : Mem) (size : UInt64) : LoadOk data size ↔ (Verified data size → FileFits data size) := by
  by_cases hv : Verified data size
  · constructor
    · rintro ⟨hbytes, hwithin⟩ -
      obtain ⟨hheaders, hsegments⟩ :=
        (within_load hv ⟨true, fun _ => none, pagesFrom data (phnum data) 0⟩).mp (hwithin _)
      have hfits : ∀ i < phnum data, phType data i = ptLoad → SegmentFits size.toNat (phdr data i) := by
        intro i hi hload
        have hall := segmentsFit_of_within (Nat.le_refl _) (hsegments rfl) i hi
        rw [Nat.zero_add] at hall
        exact hall hload
      refine ⟨hheaders, hfits, fun hok i hi hload => ?_⟩
      exact (bytesOk_iff hv hok hi hload (hfits i hi hload)).mp fun env info hinfo =>
        hbytes hok env info hinfo i hi hload
    · intro himp
      obtain ⟨hheaders, hfits, hbytes⟩ := himp hv
      refine ⟨fun hok env info hinfo i hi hload => ?_, fun env => ?_⟩
      · exact (bytesOk_iff hv hok hi hload (hfits i hi hload)).mpr (hbytes hok i hi hload) env info hinfo
      · refine (within_load hv env).mpr ⟨hheaders, fun _ => within_loadSegments (fun j hj => ?_) (fun j hj => ?_) _⟩
        · rw [Nat.zero_add]
          exact hheaders j hj
        · rw [Nat.zero_add]
          exact hfits j hj
  · refine iff_of_true ⟨fun _ env info hinfo => ?_, within_load_of_not_verified hv⟩ fun hyes => absurd hyes hv
    rw [load_none hv] at hinfo
    exact absurd hinfo (by simp)

/-- A file with one segment, of one byte at offset 2048 and two bytes in memory; the byte behind it is 9. -/
def leakyFile : Mem := fun i =>
  if i < 64 then
    [0x7f, 0x45, 0x4c, 0x46, 2, 1, 1, 0, 0, 0, 0, 0, 0, 0, 0, 0, 2, 0, 62, 0, 0, 0, 0, 0, 0, 0, 0, 0, 0, 0, 0, 0,
      64, 0, 0, 0, 0, 0, 0, 0, 0, 0, 0, 0, 0, 0, 0, 0, 0, 0, 0, 0, 0, 0, 56, 0, 1, 0].getD i 0
  else if i < 120 then
    [1, 0, 0, 0, 6, 0, 0, 0, 0, 8, 0, 0, 0, 0, 0, 0, 0, 8, 0x40, 0, 0, 0, 0, 0, 0, 0, 0, 0, 0, 0, 0, 0,
      1, 0, 0, 0, 0, 0, 0, 0, 2, 0, 0, 0, 0, 0, 0, 0].getD (i - 64) 0
  else if i = 2049 then 9
  else 0

/-- The byte behind the segment is mapped where a zero should be. -/
theorem byte_leaks : ¬LoadOk leakyFile 4096 := by
  rintro ⟨hbytes, hwithin⟩
  have hv : Verified leakyFile 4096 := ⟨by decide, by decide⟩
  have hphnum : phnum leakyFile = 1 := by decide
  have hone : ∀ i < phnum leakyFile, i = 0 := fun i hi => by omega
  have hoffset : (phdr leakyFile 0).offset.toNat = 2048 := by decide
  have hvaddr : (phdr leakyFile 0).vaddr.toNat = 0x400800 := by decide
  have hfilesz : (phdr leakyFile 0).filesz.toNat = 1 := by decide
  have hmemsz : (phdr leakyFile 0).memsz.toNat = 2 := by decide
  have hload : phType leakyFile 0 = ptLoad := by decide
  have hok : SegmentsOk leakyFile 4096 := by
    refine ⟨fun i hi _ => ?_, fun i hi _ => ?_, fun i hi _ => ?_, fun i hi _ => ?_, fun i hi j hj hne => ?_⟩
    · rw [hone i hi, UInt64.le_iff_toNat_le, hfilesz, hmemsz]
      decide
    · rw [hone i hi, hoffset, hvaddr]
    · rw [hone i hi, hvaddr, hmemsz]
      decide
    · rw [hone i hi, hoffset, hfilesz]
      decide
    · exact absurd ((hone i hi).trans (hone j hj).symm) hne
  obtain ⟨-, hsegments⟩ :=
    (within_load hv ⟨true, fun _ => none, pagesFrom leakyFile (phnum leakyFile) 0⟩).mp (hwithin _)
  have hfits : SegmentFits (4096 : UInt64).toNat (phdr leakyFile 0) :=
    segmentsFit_of_within (Nat.le_refl _) (hsegments rfl) 0 (by rw [hphnum]; decide) hload
  have hright := (bytesOk_iff hv hok (by rw [hphnum]; decide) hload hfits).mp
    (fun env info hinfo => hbytes hok env info hinfo 0 (by rw [hphnum]; decide) hload) 1 (by rw [hmemsz]; decide)
  rw [hvaddr, hoffset, hfilesz, hmemsz, if_neg (by decide)] at hright
  exact absurd (hright.2 (Nat.le_refl 1) (by decide) (by decide)) (by decide)

end Elf
