import Kenux.Swap.Proofs.Slots

/-!
# Swapping a page out and in again

While an entry is out, its slot stays taken and, in a file, its block keeps the bytes of the page. A
partition keeps nothing: a page comes back from it filled with zeros.
-/

namespace Swap

open Function (update_self update_of_ne)

variable {τ φ : Type*} {vfs : Files.Ops τ} {s s' : State τ}

section Slot

variable (rb : Files.ReadsBack vfs φ) {area : SwapArea} {slot : ℕ} {buffer : ℕ → UInt8} {files : τ}

/-- Where a slot of an area is: in which file, and from which offset on. -/
def InBlock (files : τ) (area : SwapArea) (slot : ℕ) (f : φ) (o : ℕ) : Prop :=
  area.type = swapTypeFile ∧ f = rb.file files area.fd ∧
    slot * swapSlotSize ≤ o ∧ o < slot * swapSlotSize + swapSlotSize

theorem swapWriteSlot_file (area : SwapArea) (slot : ℕ) (buffer : ℕ → UInt8) (files : τ) (fd : ℤ) :
    rb.file (swapWriteSlot vfs area slot buffer files).2 fd = rb.file files fd := by
  unfold swapWriteSlot
  dsimp only
  split_ifs
  all_goals first | rfl | rw [rb.write_file, rb.lseek_file] | rw [rb.lseek_file]

/-- Writing a slot changes bytes of its block only. -/
theorem swapWriteSlot_byte {f : φ} {o : ℕ} (h : ¬InBlock rb files area slot f o) :
    rb.byte (swapWriteSlot vfs area slot buffer files).2 f o = rb.byte files f o := by
  unfold swapWriteSlot
  dsimp only
  split_ifs with _ _ htype _ hseek
  all_goals first | rfl | rw [rb.lseek_byte] | skip
  all_goals
    rw [rb.write_other, rb.lseek_byte]
    intro hf
    rw [rb.lseek_file] at hf
    have hpos := rb.lseek_pos files area.fd (slot * swapSlotSize) (by simpa using hseek)
    rw [hpos]
    unfold InBlock at h
    by_contra hno
    exact h ⟨htype, hf, by omega, by omega⟩

/-- What a write that succeeds has done. -/
theorem swapWriteSlot_data (h : 0 ≤ (swapWriteSlot vfs area slot buffer files).1) :
    area.type = swapTypePartition ∨ area.type = swapTypeFile ∧ ∀ k < swapSlotSize,
      rb.byte (swapWriteSlot vfs area slot buffer files).2 (rb.file files area.fd)
        (slot * swapSlotSize + k) = buffer k := by
  unfold swapWriteSlot at h ⊢
  dsimp only at h ⊢
  split_ifs at h ⊢ with _ htype hfile _ hseek hbytes
  all_goals first | exact absurd h (show ¬(0 : ℤ) ≤ -1 by decide) | exact .inl htype | skip
  refine .inr ⟨hfile, fun k hk => ?_⟩
  have hpos := rb.lseek_pos files area.fd (slot * swapSlotSize) (by simpa using hseek)
  have hdata := rb.write_data (vfs.lseek files area.fd ((slot * swapSlotSize : ℕ) : ℤ)).2 area.fd buffer
    swapSlotSize (by simpa using hbytes) k hk
  rw [rb.lseek_file, hpos] at hdata
  exact hdata

theorem swapReadSlot_file (area : SwapArea) (slot : ℕ) (buffer : ℕ → UInt8) (files : τ) (fd : ℤ) :
    rb.file (swapReadSlot vfs area slot buffer files).2.2 fd = rb.file files fd := by
  unfold swapReadSlot
  dsimp only
  split_ifs
  all_goals first | rfl | rw [rb.read_file, rb.lseek_file] | rw [rb.lseek_file]

theorem swapReadSlot_byte (area : SwapArea) (slot : ℕ) (buffer : ℕ → UInt8) (files : τ) :
    rb.byte (swapReadSlot vfs area slot buffer files).2.2 = rb.byte files := by
  unfold swapReadSlot
  dsimp only
  split_ifs
  all_goals first | rfl | rw [rb.read_byte, rb.lseek_byte] | rw [rb.lseek_byte]

/-- What a read that succeeds gives: zeros from a partition, the block from a file. -/
theorem swapReadSlot_data (h : 0 ≤ (swapReadSlot vfs area slot buffer files).1) {k : ℕ}
    (hk : k < swapSlotSize) :
    area.type = swapTypePartition ∧ (swapReadSlot vfs area slot buffer files).2.1 k = 0 ∨
      area.type = swapTypeFile ∧ (swapReadSlot vfs area slot buffer files).2.1 k =
        rb.byte files (rb.file files area.fd) (slot * swapSlotSize + k) := by
  unfold swapReadSlot at h ⊢
  dsimp only at h ⊢
  split_ifs at h ⊢ with _ htype hfile _ hseek hbytes
  all_goals first | exact absurd h (show ¬(0 : ℤ) ≤ -1 by decide) | exact .inl ⟨htype, rfl⟩ | skip
  refine .inr ⟨hfile, ?_⟩
  have hbytes : (vfs.read (vfs.lseek files area.fd ((slot * swapSlotSize : ℕ) : ℤ)).2 area.fd
      swapSlotSize).1 = swapSlotSize := by simpa using hbytes
  have hpos := rb.lseek_pos files area.fd (slot * swapSlotSize) (by simpa using hseek)
  have hdata := rb.read_data (vfs.lseek files area.fd ((slot * swapSlotSize : ℕ) : ℤ)).2 area.fd
    swapSlotSize hbytes k hk
  rw [rb.lseek_file, rb.lseek_byte, hpos] at hdata
  dsimp only
  rw [if_pos (by omega)]
  exact hdata

end Slot

section Memory

variable {m : Mem} {virt : UInt64} {data : ℕ → UInt8}

theorem bytesAt_putBytes {k : ℕ} (hk : k < swapSlotSize) :
    bytesAt (putBytes m virt data) virt k = data k := by
  have hsub : virt + UInt64.ofNat k - virt = UInt64.ofNat k := by grind
  have hnat : (UInt64.ofNat k).toNat = k :=
    UInt64.toNat_ofNat_of_lt' (show k < 2 ^ 64 by unfold swapSlotSize at hk; omega)
  unfold bytesAt putBytes
  rw [hsub, hnat, if_pos hk]

end Memory

section Calls

variable {m m' : Mem} {pml4 page v e : UInt64} {ret : ℤ} {calls : List VmCall}

variable (vfs) in
/-- The outcomes of `swap_out`: nothing happens; slot 0 of area 0 is lost; the slot cannot be written and
is given back; the page is written to the slot of the entry. -/
theorem swapOut_cases (hs : Sized s) (m : Mem) (pml4 page v : UInt64) :
    (swapOut vfs s m pml4 page v = (0, [], s)) ∨
    ∃ i slot, i < s.areaCount ∧ Gives (s.areas i) slot ∧
      (swapAllocEntry s).1 = swapEntryEncode (UInt64.ofNat i) (UInt64.ofNat slot) ∧
      (swapEntryEncode (UInt64.ofNat i) (UInt64.ofNat slot) = 0 ∧
        swapOut vfs s m pml4 page v = (0, [], s.setArea i ((s.areas i).take slot)) ∨
      ∃ r : ℤ × τ, swapEntryEncode (UInt64.ofNat i) (UInt64.ofNat slot) ≠ 0 ∧
        r = swapWriteSlot vfs ((s.areas i).take slot) slot (bytesAt m (pageVirt page)) s.files ∧
        (swapOut vfs s m pml4 page v =
          (0, [], { s.setArea i (((s.areas i).take slot).giveBack slot) with files := r.2 }) ∨
        0 ≤ r.1 ∧ ∃ calls, swapOut vfs s m pml4 page v =
          (swapEntryEncode (UInt64.ofNat i) (UInt64.ofNat slot), calls,
            { s.setArea i ((s.areas i).take slot) with files := r.2 }))) := by
  unfold swapOut
  by_cases hinit : ¬s.initialized ∨ page = 0
  · exact .inl (if_pos hinit)
  rw [if_neg hinit]
  rcases swapAllocEntry_cases s with heq | ⟨i, slot, hi, hg, heq⟩
  · rw [heq]
    exact .inl rfl
  · obtain ⟨h256, -, h56, -⟩ := hs.gives_bounds hi hg
    refine .inr ⟨i, slot, hi, hg, by rw [heq], ?_⟩
    rw [heq]
    dsimp only
    split_ifs with h0
    · exact .inl ⟨h0, rfl⟩
    all_goals
      refine .inr ⟨_, h0, rfl, ?_⟩
      simp only [swapEntryGetArea_encode h256 h56, swapEntryGetSlot_encode h256 h56,
        State.setArea_areas, State.setArea_files, Function.update_self] at *
    · refine .inl ?_
      unfold State.setArea
      rw [Function.update_idem]
    all_goals exact .inr ⟨by omega, _, rfl⟩

variable (vfs) in
/-- The outcomes of `swap_in`: it is refused; the slot cannot be read; the slot is read into the page and
given back. -/
theorem swapIn_cases (s : State τ) (m : Mem) (pml4 e page v : UInt64) :
    (swapIn vfs s m pml4 e page v = (-1, [], m, s)) ∨
    ∃ r : ℤ × (ℕ → UInt8) × τ, Freeable s e ∧
      r = swapReadSlot vfs (s.areas (swapEntryGetArea e)) (swapEntryGetSlot e)
        (bytesAt m (pageVirt page)) s.files ∧
      (swapIn vfs s m pml4 e page v =
        (-1, [], putBytes m (pageVirt page) r.2.1, { s with files := r.2.2 }) ∨
      0 ≤ r.1 ∧ ∃ calls, swapIn vfs s m pml4 e page v =
        (0, calls, putBytes m (pageVirt page) r.2.1,
          { s.setArea (swapEntryGetArea e)
            ((s.areas (swapEntryGetArea e)).giveBack (swapEntryGetSlot e)) with files := r.2.2 })) := by
  unfold swapIn
  by_cases h₁ : ¬s.initialized ∨ e = 0 ∨ page = 0
  · exact .inl (if_pos h₁)
  rw [if_neg h₁]
  dsimp only
  by_cases h₂ : swapEntryGetArea e ≥ s.areaCount
  · exact .inl (if_pos h₂)
  rw [if_neg h₂]
  by_cases h₃ : ¬(s.areas (swapEntryGetArea e)).active = true ∨
      swapEntryGetSlot e ≥ (s.areas (swapEntryGetArea e)).totalSlots
  · exact .inl (if_pos h₃)
  rw [if_neg h₃]
  by_cases h₄ : Bitmap.test (s.areas (swapEntryGetArea e)).bitmap (swapEntryGetSlot e) = true
  swap
  · exact .inl (if_pos h₄)
  rw [if_neg (not_not.mpr h₄)]
  rw [not_or, not_or, Decidable.not_not] at h₁
  rw [not_or, Decidable.not_not] at h₃
  have hf : Freeable s e := ⟨h₁.1, h₁.2.1, Nat.not_le.mp h₂, h₃.1, Nat.not_le.mp h₃.2, h₄⟩
  refine .inr ⟨_, hf, rfl, ?_⟩
  split_ifs with h₅
  · exact .inl rfl
  all_goals exact .inr ⟨Int.not_lt.mp h₅, _, rfl⟩

end Calls

section Sizes

theorem Sized.setArea (hs : Sized s) (i : ℕ) (area : SwapArea) (files : τ)
    (h : area.totalSlots = (s.areas i).totalSlots) :
    Sized { s.setArea i area with files := files } := by
  refine ⟨hs.areaCount, fun j hj => ?_⟩
  dsimp only
  rw [State.setArea_areas]
  by_cases hji : j = i
  · subst hji
    rw [update_self, h]
    exact hs.totalSlots j hj
  · rw [update_of_ne hji]
    exact hs.totalSlots j hj

theorem Sized.withFiles (hs : Sized s) (files : τ) : Sized { s with files := files } :=
  ⟨hs.areaCount, hs.totalSlots⟩

theorem Sized.call {c : Call} (hs : Sized s) (hst : callStep vfs s c = some s') : Sized s' := by
  cases c with
  | addArea type path size zalloc =>
    cases hst
    obtain ⟨-, hareas, hlast⟩ := swapAddArea_appended vfs s type path size zalloc
    refine ⟨swapAddArea_areaCount vfs hs.areaCount type path size zalloc, fun j hj => ?_⟩
    by_cases hjc : j < s.areaCount
    · exact hareas j hjc ▸ hs.totalSlots j hjc
    · rcases hlast with heq | ⟨heq, hok, -⟩
      · omega
      · rw [show j = s.areaCount by omega]
        exact hok.small
  | removeArea i =>
    cases hst
    rcases swapRemoveArea_cases vfs s i with ⟨heq, -⟩ | ⟨hi, -, -, hcount, hareas⟩
    · rw [heq]
      exact hs
    · have hle := hs.areaCount
      refine ⟨by omega, fun j hj => ?_⟩
      rw [hcount] at hj
      rw [hareas j hj]
      split_ifs
      · exact hs.totalSlots _ (by omega)
      · exact hs.totalSlots j (by omega)
  | allocEntry =>
    cases hst
    rcases swapAllocEntry_cases s with heq | ⟨i, slot, -, -, heq⟩
    · rw [heq]
      exact hs
    · rw [heq]
      exact hs.setArea i _ s.files rfl
  | freeEntry e =>
    cases hst
    rcases swapFreeEntry_cases s e with ⟨-, heq⟩ | ⟨-, heq⟩
    · rw [heq]
      exact hs
    · rw [heq]
      exact hs.setArea _ _ s.files rfl
  | swapOut m pml4 page v =>
    cases hst
    rcases swapOut_cases vfs hs m pml4 page v with
      heq | ⟨i, slot, -, -, -, ⟨-, heq⟩ | ⟨r, -, -, heq | ⟨-, calls, heq⟩⟩⟩
    · rw [heq]
      exact hs
    · rw [heq]
      exact hs.setArea i _ s.files rfl
    · rw [heq]
      exact hs.setArea i _ _ rfl
    · rw [heq]
      exact hs.setArea i _ _ rfl
  | swapIn m pml4 e page v =>
    cases hst
    rcases swapIn_cases vfs s m pml4 e page v with
      heq | ⟨r, -, -, heq | ⟨-, calls, heq⟩⟩
    · rw [heq]
      exact hs
    · rw [heq]
      exact hs.withFiles _
    · rw [heq]
      exact hs.setArea _ _ _ rfl

theorem sized_init (files : τ) : Sized (swapInit files) :=
  ⟨Nat.zero_le _, fun i hi => absurd hi (Nat.not_lt_zero i)⟩

end Sizes

section Held

variable (rb : Files.ReadsBack vfs φ)

/-- The slot of `e` is taken; in a file its block holds the page. -/
structure Held (e : UInt64) (ty : UInt32) (fildes : ℤ) (page : ℕ → UInt8) (s : State τ) : Prop where
  sized : Sized s
  type : (s.areas (swapEntryGetArea e)).type = ty
  fd : (s.areas (swapEntryGetArea e)).fd = fildes
  taken : Bitmap.test (s.areas (swapEntryGetArea e)).bitmap (swapEntryGetSlot e) = true
  data : ty = swapTypeFile → ∀ k < swapSlotSize,
    rb.byte s.files (rb.file s.files fildes) (swapEntryGetSlot e * swapSlotSize + k) = page k

variable {rb} {e : UInt64} {type : UInt32} {fd : ℤ} {data : ℕ → UInt8}

/-- The slot stays held when another slot of some area changes, and only other blocks of the files. -/
theorem Held.frame (h : Held rb e type fd data s) {i : ℕ} {area : SwapArea} {files : τ}
    (hsize : area.totalSlots = (s.areas i).totalSlots) (htype : area.type = (s.areas i).type)
    (hfd : area.fd = (s.areas i).fd)
    (htaken : i = swapEntryGetArea e → Bitmap.test area.bitmap (swapEntryGetSlot e) = true)
    (hfile : ∀ fd, rb.file files fd = rb.file s.files fd)
    (hbyte : type = swapTypeFile → ∀ k < swapSlotSize,
      rb.byte files (rb.file s.files fd) (swapEntryGetSlot e * swapSlotSize + k) =
        rb.byte s.files (rb.file s.files fd) (swapEntryGetSlot e * swapSlotSize + k)) :
    Held rb e type fd data { s.setArea i area with files := files } := by
  have hdata : type = swapTypeFile → ∀ k < swapSlotSize,
      rb.byte files (rb.file files fd) (swapEntryGetSlot e * swapSlotSize + k) = data k := by
    intro ht k hk
    rw [hfile, hbyte ht k hk]
    exact h.data ht k hk
  refine ⟨h.sized.setArea i area files hsize, ?_, ?_, ?_, hdata⟩
  all_goals
    rw [State.setArea_areas]
    by_cases hi : swapEntryGetArea e = i
  · rw [hi, update_self, htype, ← hi]
    exact h.type
  · rw [update_of_ne hi]
    exact h.type
  · rw [hi, update_self, hfd, ← hi]
    exact h.fd
  · rw [update_of_ne hi]
    exact h.fd
  · rw [hi, update_self]
    exact htaken hi.symm
  · rw [update_of_ne hi]
    exact h.taken

theorem Held.swapOut (h : Held rb e type fd data s) (m : Mem) (pml4 page v : UInt64)
    (hok : ¬TakesSameBlock rb s e) :
    Held rb e type fd data (swapOut vfs s m pml4 page v).2.2 := by
  rcases swapOut_cases vfs h.sized m pml4 page v with
    heq | ⟨i, slot, hi, hg, halloc, hcase⟩
  · rw [heq]
    exact h
  obtain ⟨h256, -, h56, hclear⟩ := h.sized.gives_bounds hi hg
  have htaken : i = swapEntryGetArea e →
      Bitmap.test ((s.areas i).take slot).bitmap (swapEntryGetSlot e) = true := by
    rintro rfl
    show Bitmap.test (Bitmap.set _ slot) _ = true
    rw [Bitmap.test_set, h.taken, Bool.or_true]
  rcases hcase with ⟨-, heq⟩ | ⟨r, hne, hr, hcase⟩
  · rw [heq]
    exact h.frame rfl rfl rfl htaken (fun _ => rfl) fun _ _ _ => rfl
  -- the block of the slot taken is another one
  have hbyte : type = swapTypeFile → ∀ k < swapSlotSize,
      rb.byte r.2 (rb.file s.files fd) (swapEntryGetSlot e * swapSlotSize + k) =
        rb.byte s.files (rb.file s.files fd) (swapEntryGetSlot e * swapSlotSize + k) := by
    intro ht k hk
    rw [hr]
    refine swapWriteSlot_byte rb ?_
    rintro ⟨htype, hfile, hlo, hhi⟩
    have hslot : slot = swapEntryGetSlot e := by
      unfold swapSlotSize at *
      omega
    refine hok ⟨?_, ?_, ?_, ?_, ?_⟩
    · rw [halloc]
      exact hne
    · rw [halloc, swapEntryGetSlot_encode h256 h56, hslot]
    · rw [h.type, ht]
    · rw [halloc, swapEntryGetArea_encode h256 h56]
      exact htype
    · rw [halloc, swapEntryGetArea_encode h256 h56, h.fd]
      exact hfile.symm
  have hfile : ∀ fd, rb.file r.2 fd = rb.file s.files fd := fun fd => by
    rw [hr]
    exact swapWriteSlot_file rb _ _ _ _ fd
  rcases hcase with heq | ⟨-, calls, heq⟩
  · rw [heq]
    refine h.frame rfl rfl rfl (fun hie => ?_) hfile hbyte
    have hslot : slot ≠ swapEntryGetSlot e := by
      rintro rfl
      subst hie
      rw [h.taken] at hclear
      cases hclear
    show Bitmap.test (Bitmap.clear _ slot) _ = true
    rw [Bitmap.test_clear, htaken hie, decide_eq_false hslot]
    rfl
  · rw [heq]
    exact h.frame rfl rfl rfl htaken hfile hbyte

theorem Held.swapIn (h : Held rb e type fd data s) (m : Mem) (pml4 page v : UInt64) {e' : UInt64}
    (hne : e' ≠ e) : Held rb e type fd data (swapIn vfs s m pml4 e' page v).2.2.2 := by
  rcases swapIn_cases vfs s m pml4 e' page v with heq | ⟨r, -, hr, hcase⟩
  · rw [heq]
    exact h
  have hfile : ∀ fd, rb.file r.2.2 fd = rb.file s.files fd := fun fd => by
    rw [hr]
    exact swapReadSlot_file rb _ _ _ _ fd
  have hbyte : rb.byte r.2.2 = rb.byte s.files := by
    rw [hr]
    exact swapReadSlot_byte rb _ _ _ _
  rcases hcase with heq | ⟨-, calls, heq⟩
  · rw [heq]
    refine ⟨h.sized.withFiles _, h.type, h.fd, h.taken, fun ht k hk => ?_⟩
    dsimp only
    rw [hfile, hbyte]
    exact h.data ht k hk
  · rw [heq]
    refine h.frame rfl rfl rfl (fun hie => ?_) hfile fun _ _ _ => by rw [hbyte]
    have hslot : swapEntryGetSlot e' ≠ swapEntryGetSlot e := fun hs => hne (entry_ext hie hs)
    show Bitmap.test (Bitmap.clear _ _) _ = true
    rw [Bitmap.test_clear, decide_eq_false hslot, hie, h.taken]
    rfl

theorem Held.call {c : Call} (h : Held rb e type fd data s) (hok : OfOthers rb e s c)
    (hst : callStep vfs s c = some s') : Held rb e type fd data s' := by
  cases c with
  | swapOut m pml4 page v =>
    cases hst
    exact h.swapOut m pml4 page v hok
  | swapIn m pml4 e' page v =>
    cases hst
    exact h.swapIn m pml4 page v hok
  | addArea => exact hok.elim
  | removeArea => exact hok.elim
  | allocEntry => exact hok.elim
  | freeEntry => exact hok.elim

variable {m m' : Mem} {pml4 page v : UInt64} {calls : List VmCall}

/-- A page that was swapped out is held in its slot. -/
theorem swapOut_held (rb : Files.ReadsBack vfs φ) (hs : Sized s)
    (hout : Swap.swapOut vfs s m pml4 page v = (e, calls, s')) (he : e ≠ 0) :
    Held rb e (s'.areas (swapEntryGetArea e)).type (s'.areas (swapEntryGetArea e)).fd
      (bytesAt m (pageVirt page)) s' := by
  rcases swapOut_cases vfs hs m pml4 page v with
    heq | ⟨i, slot, hi, hg, halloc, ⟨-, heq⟩ | ⟨r, hne, hr, heq | ⟨hret, calls', heq⟩⟩⟩
  all_goals
    rw [heq] at hout
    cases hout
  · exact absurd rfl he
  · exact absurd rfl he
  · exact absurd rfl he
  obtain ⟨h256, -, h56, hclear⟩ := hs.gives_bounds hi hg
  refine ⟨hs.setArea i _ _ rfl, rfl, rfl, ?_, ?_⟩
  all_goals simp only [swapEntryGetArea_encode h256 h56, swapEntryGetSlot_encode h256 h56,
    State.setArea_areas, update_self]
  · show Bitmap.test (Bitmap.set _ slot) slot = true
    rw [Bitmap.test_set, decide_eq_true rfl, Bool.true_or]
  · intro htype k hk
    rw [hr] at hret ⊢
    rcases swapWriteSlot_data rb hret with hpart | ⟨-, hdata⟩
    · rw [htype] at hpart
      exact absurd hpart (by decide)
    · rw [swapWriteSlot_file]
      exact hdata k hk

end Held

section RoundTrip

variable {m₁ m₂ m₃ : Mem} {pml4 pml4' page newPage v e : UInt64} {files : τ} {s₁ s₂ s₃ : State τ}
  {calls calls' : List VmCall}

/-- A page that was swapped out while only other entries come and go comes back as it was exactly when its
slot is in a file or it was all zeros. -/
theorem swapped_page_comes_back_iff (rb : Files.ReadsBack vfs φ)
    (h₁ : Run.Reach (callStep vfs) (fun _ _ => True) (swapInit files) s)
    (hout : swapOut vfs s m₁ pml4 page v = (e, calls, s₁)) (he : e ≠ 0)
    (h₂ : Run.Reach (callStep vfs) (OfOthers rb e) s₁ s₂)
    (hin : swapIn vfs s₂ m₂ pml4' e newPage v = (0, calls', m₃, s₃)) :
    (∀ k < swapSlotSize, bytesAt m₃ (pageVirt newPage) k = bytesAt m₁ (pageVirt page) k) ↔
      (s₁.areas (swapEntryGetArea e)).type = swapTypeFile ∨
        ∀ k < swapSlotSize, bytesAt m₁ (pageVirt page) k = 0 := by
  have hs : Sized s := h₁.invariant (sized_init files) fun _ _ _ hs _ hst => hs.call hst
  have hheld := h₂.invariant (swapOut_held rb hs hout he) fun _ _ _ h hok hst => h.call hok hst
  rcases swapIn_cases vfs s₂ m₂ pml4' e newPage v with
    heq | ⟨r, -, hr, heq | ⟨hret, calls'', heq⟩⟩
  all_goals
    rw [heq] at hin
    cases hin
  have hread : ∀ k < swapSlotSize,
      (s₁.areas (swapEntryGetArea e)).type = swapTypePartition ∧
        bytesAt (putBytes m₂ (pageVirt newPage) r.2.1) (pageVirt newPage) k = 0 ∨
      (s₁.areas (swapEntryGetArea e)).type = swapTypeFile ∧
        bytesAt (putBytes m₂ (pageVirt newPage) r.2.1) (pageVirt newPage) k =
          bytesAt m₁ (pageVirt page) k := by
    intro k hk
    rw [hr] at hret
    have hdata := swapReadSlot_data rb hret hk
    rw [← hr, hheld.type, hheld.fd] at hdata
    rw [bytesAt_putBytes hk]
    rcases hdata with ⟨htype, h0⟩ | ⟨htype, hbyte⟩
    · exact .inl ⟨htype, h0⟩
    · exact .inr ⟨htype, hbyte.trans (hheld.data htype k hk)⟩
  constructor
  · intro hsame
    by_cases htype : (s₁.areas (swapEntryGetArea e)).type = swapTypeFile
    · exact .inl htype
    · refine .inr fun k hk => ?_
      rcases hread k hk with ⟨-, h0⟩ | ⟨hfile, -⟩
      · rw [← hsame k hk, h0]
      · exact absurd hfile htype
  · intro hcond k hk
    rcases hread k hk with ⟨hpart, h0⟩ | ⟨-, hbyte⟩
    · rcases hcond with hfile | hzero
      · rw [hfile] at hpart
        exact absurd hpart (by decide)
      · rw [h0, hzero k hk]
    · exact hbyte

end RoundTrip

section Example

/-- Files in memory, each under its name; every descriptor is new. -/
structure Ram where
  bytes : String → ℕ → UInt8 := fun _ _ => 0
  names : ℤ → String := fun _ => ""
  pos : ℤ → ℕ := fun _ => 0
  next : ℕ := 3

def ramFiles : Files.Ops Ram where
  openFile := fun r path =>
    (r.next, { r with names := Function.update r.names r.next path, next := r.next + 1 })
  close := fun r _ => r
  lseek := fun r fd o => (o, { r with pos := Function.update r.pos fd o.toNat })
  read := fun r fd n => (n, fun k => r.bytes (r.names fd) (r.pos fd + k),
    { r with pos := Function.update r.pos fd (r.pos fd + n) })
  write := fun r fd d n => (n,
    { r with
      bytes := fun f o => if f = r.names fd ∧ r.pos fd ≤ o ∧ o < r.pos fd + n then d (o - r.pos fd)
        else r.bytes f o
      pos := Function.update r.pos fd (r.pos fd + n) })

def ramReadsBack : Files.ReadsBack ramFiles String where
  file := Ram.names
  pos := Ram.pos
  byte := Ram.bytes
  lseek_file := fun _ _ _ _ => rfl
  lseek_byte := fun _ _ _ => rfl
  lseek_pos := fun r fd o _ => Function.update_self fd _ r.pos
  read_file := fun _ _ _ _ => rfl
  read_byte := fun _ _ _ => rfl
  read_data := fun _ _ _ _ _ _ => rfl
  write_file := fun _ _ _ _ _ => rfl
  write_data := fun r fd d n _ k hk => by
    show (if _ then d (r.pos fd + k - r.pos fd) else _) = d k
    rw [if_pos ⟨rfl, by omega, by omega⟩, Nat.add_sub_cancel_left]
  write_other := fun r fd d n f o h => if_neg fun hin => by
    have := h hin.1
    omega

/-- One area of three slots, the first of which is lost. -/
def ramState (type : UInt32) : State Ram :=
  (swapAllocEntry (swapAddArea ramFiles (swapInit {}) type (some "swapfile") 3 true).2).2

theorem ramState_reach (type : UInt32) :
    Run.Reach (callStep ramFiles) (fun _ _ => True) (swapInit {}) (ramState type) :=
  (Run.Reach.start.step (.addArea type (some "swapfile") 3 true) trivial rfl).step
    Call.allocEntry trivial rfl

/-- A page of sevens goes to slot 1 of a file, another page to slot 2, and the first comes back. -/
theorem swapped_page_comes_back_iff_file : ∃ r₁ r₂ r₃,
    r₁ = swapOut ramFiles (ramState swapTypeFile) (fun _ => 7) 0 0x1000 0 ∧ r₁.1 = 1 ∧
    r₂ = swapOut ramFiles r₁.2.2 (fun _ => 8) 0 0x2000 0 ∧
    r₃ = swapIn ramFiles r₂.2.2 (fun _ => 9) 0 1 0x3000 0 ∧ r₃.1 = 0 ∧
    ((∀ k < swapSlotSize,
        bytesAt r₃.2.2.1 (pageVirt 0x3000) k = bytesAt (fun _ => 7) (pageVirt 0x1000) k) ↔
      (r₁.2.2.areas (swapEntryGetArea 1)).type = swapTypeFile ∨
        ∀ k < swapSlotSize, bytesAt (fun _ => 7) (pageVirt 0x1000) k = 0) := by
  have hout : (swapOut ramFiles (ramState swapTypeFile) (fun _ => 7) 0 0x1000 0).1 = 1 := by
    decide +kernel
  have hin : (swapIn ramFiles (swapOut ramFiles
      (swapOut ramFiles (ramState swapTypeFile) (fun _ => 7) 0 0x1000 0).2.2 (fun _ => 8) 0 0x2000 0).2.2
      (fun _ => 9) 0 1 0x3000 0).1 = 0 := by
    decide +kernel
  have hslot : swapEntryGetSlot (swapAllocEntry
      (swapOut ramFiles (ramState swapTypeFile) (fun _ => 7) 0 0x1000 0).2.2).1 ≠
      swapEntryGetSlot 1 := by
    decide +kernel
  refine ⟨_, _, _, rfl, hout, rfl, rfl, hin, ?_⟩
  refine swapped_page_comes_back_iff ramReadsBack (ramState_reach _) (Prod.ext hout rfl) (by decide)
    (Run.Reach.start.step (.swapOut (fun _ => 8) 0 0x2000 0) ?_ rfl) (Prod.ext hin rfl)
  exact fun h => hslot h.2.1

/-- The same page goes to a partition and comes back as zeros. -/
theorem swapped_page_lost : ¬ ∀ (s s₁ s₂ s₃ : State Ram) (m₁ m₂ m₃ : Mem)
    (pml4 pml4' page newPage v e : UInt64) (calls calls' : List VmCall),
    Run.Reach (callStep ramFiles) (fun _ _ => True) (swapInit {}) s →
    swapOut ramFiles s m₁ pml4 page v = (e, calls, s₁) → e ≠ 0 →
    Run.Reach (callStep ramFiles) (OfOthers ramReadsBack e) s₁ s₂ →
    swapIn ramFiles s₂ m₂ pml4' e newPage v = (0, calls', m₃, s₃) →
    ∀ k < swapSlotSize, bytesAt m₃ (pageVirt newPage) k = bytesAt m₁ (pageVirt page) k := by
  intro hall
  have hout : (swapOut ramFiles (ramState swapTypePartition) (fun _ => 7) 0 0x1000 0).1 = 1 := by
    decide +kernel
  have hin : (swapIn ramFiles
      (swapOut ramFiles (ramState swapTypePartition) (fun _ => 7) 0 0x1000 0).2.2
      (fun _ => 9) 0 1 0x3000 0).1 = 0 := by
    decide +kernel
  have hbyte : bytesAt (swapIn ramFiles
      (swapOut ramFiles (ramState swapTypePartition) (fun _ => 7) 0 0x1000 0).2.2
      (fun _ => 9) 0 1 0x3000 0).2.2.1 (pageVirt 0x3000) 0 = 0 := by
    decide +kernel
  have h := hall _ _ _ _ _ _ _ _ _ _ _ _ _ _ _ (ramState_reach _) (Prod.ext hout rfl) (by decide)
    .start (Prod.ext hin rfl) 0 (by decide)
  have h07 : (0 : UInt8) = 7 := hbyte.symm.trans h
  exact absurd h07 (by decide)

end Example

end Swap
