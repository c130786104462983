import Kenux.Lib.Word
import Kenux.Swap.Model

/-!
# Entries and slots

The packing of entries, and for every call the one area it changes.
-/

namespace Swap

variable {τ : Type*} {s : State τ}

section Entries

theorem swapEntryGetArea_eq (e : UInt64) : swapEntryGetArea e = e.toNat / 2 ^ 56 := by
  have hlt := UInt64.toNat_lt e
  have hshift : (e >>> 56).toNat = e.toNat / 2 ^ 56 := Word.toNat_shiftRight 56 rfl (by omega)
  unfold swapEntryGetArea
  rw [UInt64.toNat_toUInt32, hshift]
  omega

theorem swapEntryGetSlot_eq (e : UInt64) : swapEntryGetSlot e = e.toNat % 2 ^ 56 := by
  unfold swapEntryGetSlot
  rw [Word.toNat_and_field 0 56 (by decide)]
  omega

/-- An entry is determined by its area and its slot. -/
theorem entry_ext {e e' : UInt64} (ha : swapEntryGetArea e = swapEntryGetArea e')
    (hs : swapEntryGetSlot e = swapEntryGetSlot e') : e = e' := by
  rw [swapEntryGetArea_eq, swapEntryGetArea_eq] at ha
  rw [swapEntryGetSlot_eq, swapEntryGetSlot_eq] at hs
  exact UInt64.toNat_inj.mp (by omega)

variable {i slot : ℕ}

theorem swapEntryEncode_toNat (hi : i < 256) (hslot : slot < 2 ^ 56) :
    (swapEntryEncode (UInt64.ofNat i) (UInt64.ofNat slot)).toNat = i * 2 ^ 56 + slot := by
  have h₁ : (UInt64.ofNat i).toNat = i := UInt64.toNat_ofNat_of_lt' (show i < 2 ^ 64 by omega)
  have h₂ : (UInt64.ofNat slot).toNat = slot := UInt64.toNat_ofNat_of_lt' (show slot < 2 ^ 64 by omega)
  have hshift : (UInt64.ofNat i <<< 56).toNat = 2 ^ 56 * i := by
    rw [UInt64.toNat_shiftLeft, h₁, Nat.shiftLeft_eq]
    show i * 2 ^ 56 % 2 ^ 64 = _
    omega
  unfold swapEntryEncode swapEntrySlotMask
  rw [UInt64.toNat_or, hshift, Word.toNat_and_field 0 56 (by decide), h₂]
  rw [show slot / 2 ^ 0 % 2 ^ 56 * 2 ^ 0 = slot by omega, ← Nat.two_pow_add_eq_or_of_lt hslot]
  omega

theorem swapEntryGetArea_encode (hi : i < 256) (hslot : slot < 2 ^ 56) :
    swapEntryGetArea (swapEntryEncode (UInt64.ofNat i) (UInt64.ofNat slot)) = i := by
  rw [swapEntryGetArea_eq, swapEntryEncode_toNat hi hslot]
  omega

theorem swapEntryGetSlot_encode (hi : i < 256) (hslot : slot < 2 ^ 56) :
    swapEntryGetSlot (swapEntryEncode (UInt64.ofNat i) (UInt64.ofNat slot)) = slot := by
  rw [swapEntryGetSlot_eq, swapEntryEncode_toNat hi hslot]
  omega

/-- Only slot 0 of area 0 is packed into the value that means failure. -/
theorem swapEntryEncode_eq_zero (hi : i < 256) (hslot : slot < 2 ^ 56) :
    swapEntryEncode (UInt64.ofNat i) (UInt64.ofNat slot) = 0 ↔ i = 0 ∧ slot = 0 := by
  rw [← UInt64.toNat_inj, swapEntryEncode_toNat hi hslot]
  show i * 2 ^ 56 + slot = 0 ↔ _
  omega

end Entries

section Areas

/-- The counters of an area agree with its bitmap. -/
structure AreaOk (area : SwapArea) : Prop where
  active : area.active = true
  small : area.totalSlots ≤ swapMapMaxSlots
  used : area.usedSlots = Bitmap.count area.bitmap area.totalSlots
  total : area.usedSlots + area.freeSlots = area.totalSlots

variable {area : SwapArea} {slot : ℕ}

theorem AreaOk.isSome_iff (h : AreaOk area) :
    (Bitmap.findFreeFrom area.bitmap 0 area.totalSlots).isSome ↔ area.freeSlots ≠ 0 := by
  have hused := h.used
  have htotal := h.total
  rw [Bitmap.findFreeFrom_isSome]
  omega

theorem AreaOk.not_test (h : AreaOk area) (h0 : area.usedSlots = 0) (hslot : slot < area.totalSlots) :
    Bitmap.test area.bitmap slot = false :=
  Bitmap.count_eq_zero.mp (h.used ▸ h0) slot hslot

theorem AreaOk.take (h : AreaOk area) (hslot : slot < area.totalSlots)
    (hclear : Bitmap.test area.bitmap slot = false) : AreaOk (area.take slot) := by
  have hlt := Bitmap.count_lt hslot hclear
  have hused := h.used
  have htotal := h.total
  refine ⟨h.active, h.small, ?_, ?_⟩
  · show area.usedSlots + 1 = Bitmap.count (Bitmap.set area.bitmap slot) area.totalSlots
    rw [Bitmap.count_set hslot hclear, hused]
  · show area.usedSlots + 1 + (area.freeSlots - 1) = area.totalSlots
    omega

theorem AreaOk.giveBack (h : AreaOk area) (hslot : slot < area.totalSlots)
    (hset : Bitmap.test area.bitmap slot = true) : AreaOk (area.giveBack slot) := by
  have hcount := Bitmap.count_clear hslot hset
  have hused := h.used
  have htotal := h.total
  refine ⟨h.active, h.small, ?_, ?_⟩
  · show area.usedSlots - 1 = Bitmap.count (Bitmap.clear area.bitmap slot) area.totalSlots
    omega
  · show area.usedSlots - 1 + (area.freeSlots + 1) = area.totalSlots
    omega

end Areas

section Calls

variable {vfs : Files.Ops τ} {n i slot : ℕ} {e : UInt64}

/-- The area can give the slot. -/
def Gives (area : SwapArea) (slot : ℕ) : Prop :=
  area.active = true ∧ area.freeSlots ≠ 0 ∧
    Bitmap.findFreeFrom area.bitmap 0 area.totalSlots = some slot

/-- The result of the allocation loop over the `n` areas from `i` on: the first of them that can give a
slot gives it. -/
def AllocOutcome (s : State τ) (i n : ℕ) (r : UInt64 × State τ) : Prop :=
  (r = (0, s) ∧ ∀ j, i ≤ j → j < i + n → ∀ slot, ¬Gives (s.areas j) slot) ∨
    ∃ j slot, i ≤ j ∧ j < i + n ∧ Gives (s.areas j) slot ∧
      (∀ k, i ≤ k → k < j → ∀ slot, ¬Gives (s.areas k) slot) ∧
      r = (swapEntryEncode (UInt64.ofNat j) (UInt64.ofNat slot), s.setArea j ((s.areas j).take slot))

theorem AllocOutcome.skip {r : UInt64 × State τ} (hno : ∀ slot, ¬Gives (s.areas i) slot)
    (h : AllocOutcome s (i + 1) n r) : AllocOutcome s i (n + 1) r := by
  rcases h with ⟨hr, hall⟩ | ⟨j, slot, hj, hlt, hg, hbefore, hr⟩
  · refine Or.inl ⟨hr, fun j hj hlt => ?_⟩
    by_cases hij : i = j
    · exact hij ▸ hno
    · exact hall j (by omega) (by omega)
  · refine Or.inr ⟨j, slot, by omega, by omega, hg, fun k hk hlt => ?_, hr⟩
    by_cases hik : i = k
    · exact hik ▸ hno
    · exact hbefore k (by omega) hlt

theorem allocFrom_outcome (s : State τ) (i n : ℕ) : AllocOutcome s i n (allocFrom s i n) := by
  induction n generalizing i with
  | zero => exact .inl ⟨rfl, by omega⟩
  | succ n ih =>
    unfold allocFrom
    dsimp only
    split_ifs with hact
    · exact (ih (i + 1)).skip fun slot hg => hact.elim (fun h => h hg.1) hg.2.1
    · rw [not_or, Decidable.not_not] at hact
      split
      · rename_i hfind
        exact (ih (i + 1)).skip fun slot hg => by cases hfind.symm.trans hg.2.2
      · rename_i slot hfind
        exact .inr ⟨i, slot, Nat.le_refl i, by omega, ⟨hact.1, hact.2, hfind⟩, by omega, rfl⟩

/-- The limits that `swap_add_area` keeps. -/
structure Sized (s : State τ) : Prop where
  areaCount : s.areaCount ≤ swapMaxAreas
  totalSlots : ∀ i < s.areaCount, (s.areas i).totalSlots ≤ swapMapMaxSlots

theorem Sized.gives_bounds (hs : Sized s) (hi : i < s.areaCount) (hg : Gives (s.areas i) slot) :
    i < 256 ∧ slot < (s.areas i).totalSlots ∧ slot < 2 ^ 56 ∧
      Bitmap.test (s.areas i).bitmap slot = false := by
  obtain ⟨-, hlt, hclear⟩ := Bitmap.findFreeFrom_some hg.2.2
  have hcount := hs.areaCount
  have hsmall := hs.totalSlots i hi
  unfold swapMaxAreas at hcount
  unfold swapMapMaxSlots at hsmall
  exact ⟨by omega, by omega, by omega, hclear⟩

/-- An allocation changes nothing or takes a slot of one area. -/
theorem swapAllocEntry_cases (s : State τ) :
    swapAllocEntry s = (0, s) ∨ ∃ i slot, i < s.areaCount ∧ Gives (s.areas i) slot ∧
      swapAllocEntry s = (swapEntryEncode (UInt64.ofNat i) (UInt64.ofNat slot),
        s.setArea i ((s.areas i).take slot)) := by
  unfold swapAllocEntry
  split_ifs
  · rcases allocFrom_outcome s 0 s.areaCount with ⟨heq, -⟩ | ⟨i, slot, -, hi, hg, -, heq⟩
    · exact .inl heq
    · exact .inr ⟨i, slot, by omega, hg, heq⟩
  · exact .inl rfl

/-- What an entry that can be freed is. -/
structure Freeable (s : State τ) (e : UInt64) : Prop where
  initialized : s.initialized = true
  nonzero : e ≠ 0
  inRange : swapEntryGetArea e < s.areaCount
  active : (s.areas (swapEntryGetArea e)).active = true
  bound : swapEntryGetSlot e < (s.areas (swapEntryGetArea e)).totalSlots
  taken : Bitmap.test (s.areas (swapEntryGetArea e)).bitmap (swapEntryGetSlot e) = true

theorem swapFreeEntry_cases (s : State τ) (e : UInt64) :
    (¬Freeable s e ∧ swapFreeEntry s e = (-1, s)) ∨
      (Freeable s e ∧ swapFreeEntry s e = (0, s.setArea (swapEntryGetArea e)
        ((s.areas (swapEntryGetArea e)).giveBack (swapEntryGetSlot e)))) := by
  unfold swapFreeEntry
  dsimp only
  split_ifs with h₁ h₂ h₃ h₄
  · exact .inl ⟨fun h => h₁.elim (fun hi => hi h.initialized) h.nonzero, rfl⟩
  · exact .inl ⟨fun h => absurd h.inRange (Nat.not_lt.mpr h₂), rfl⟩
  · refine .inl ⟨fun h => ?_, rfl⟩
    exact h₃.elim (fun ha => ha h.active) fun hb => absurd h.bound (Nat.not_lt.mpr hb)
  · rw [not_or, Decidable.not_not] at h₁ h₃
    exact .inr ⟨⟨h₁.1, h₁.2, Nat.not_le.mp h₂, h₃.1, Nat.not_le.mp h₃.2, h₄⟩, rfl⟩
  · exact .inl ⟨fun h => h₄ h.taken, rfl⟩

theorem swapFreeEntry_eq_zero : (swapFreeEntry s e).1 = 0 ↔ Freeable s e := by
  rcases swapFreeEntry_cases s e with ⟨hno, heq⟩ | ⟨hf, heq⟩
  · rw [heq]
    exact ⟨fun h => absurd h (show (-1 : ℤ) ≠ 0 by decide), fun h => absurd h hno⟩
  · rw [heq]
    exact ⟨fun _ => hf, fun _ => rfl⟩

theorem newArea_ok {type : UInt32} {size : UInt64} {serial : ℕ} (hsmall : size.toNat ≤ swapMapMaxSlots)
    (fd : ℤ) : AreaOk { newArea type size serial with fd := fd } := by
  refine ⟨rfl, hsmall, ?_, Nat.zero_add _⟩
  exact (Bitmap.count_eq_zero.mpr fun j _ => Bitmap.test_zero).symm

/-- Only the place after the last area changes, and if the number of areas grows a fresh area is there. -/
structure Appended (s s' : State τ) : Prop where
  initialized : s'.initialized = s.initialized
  areas : ∀ j < s.areaCount, s'.areas j = s.areas j
  last : s'.areaCount = s.areaCount ∨ s'.areaCount = s.areaCount + 1 ∧
    AreaOk (s'.areas s.areaCount) ∧ (s'.areas s.areaCount).usedSlots = 0

variable (vfs) in
theorem openArea_appended (s : State τ) {type : UInt32} {size : UInt64} {serial : ℕ}
    (hsmall : size.toNat ≤ swapMapMaxSlots) (path : Option String) :
    Appended s (openArea vfs s (newArea type size serial) size path).2 := by
  have hput : ∀ area : SwapArea, ∀ j < s.areaCount,
      Function.update s.areas s.areaCount area j = s.areas j :=
    fun area j hj => Function.update_of_ne (by omega) _ _
  have hfresh : ∀ fd : ℤ, ∀ area, area = { newArea type size serial with fd := fd } →
      AreaOk area ∧ area.usedSlots = 0 := fun fd area h => h ▸ ⟨newArea_ok hsmall fd, rfl⟩
  unfold openArea
  cases path with
  | some path =>
    dsimp only
    split_ifs
    · exact ⟨rfl, hput _, .inl rfl⟩
    · exact ⟨rfl, hput _, .inr ⟨rfl, hfresh _ _ (Function.update_self _ _ _)⟩⟩
  | none => exact ⟨rfl, hput _, .inr ⟨rfl, hfresh _ _ (Function.update_self _ _ _)⟩⟩

variable (vfs) in
theorem swapAddArea_appended (s : State τ) (type : UInt32) (path : Option String) (size : UInt64)
    (zalloc : Bool) : Appended s (swapAddArea vfs s type path size zalloc).2 := by
  have hsame : Appended s s := ⟨rfl, fun _ _ => rfl, .inl rfl⟩
  have hopen (hsmall : size.toNat ≤ swapMapMaxSlots) (path : Option String) :
      Appended s (openArea vfs { s with made := s.made + 1 } (newArea type size s.made) size path).2 := by
    obtain ⟨hinit, hareas, hlast⟩ := @openArea_appended _ vfs { s with made := s.made + 1 } type
      size s.made hsmall path
    exact ⟨hinit, hareas, hlast⟩
  unfold swapAddArea
  dsimp only
  split_ifs with _ _ h₃
  · exact hsame
  · exact hsame
  · exact hsame
  · exact hsame
  · rw [not_or, Nat.not_lt] at h₃
    exact hopen h₃.2 _
  · rw [not_or, Nat.not_lt] at h₃
    exact hopen h₃.2 _
  · exact ⟨rfl, fun j hj => Function.update_of_ne (by omega) _ _, .inl rfl⟩
  · exact hsame

variable (vfs) in
theorem swapAddArea_areaCount (h : s.areaCount ≤ swapMaxAreas) (type : UInt32) (path : Option String)
    (size : UInt64) (zalloc : Bool) :
    (swapAddArea vfs s type path size zalloc).2.areaCount ≤ swapMaxAreas := by
  by_cases hfull : s.areaCount ≥ swapMaxAreas
  · unfold swapAddArea
    dsimp only
    rw [if_pos hfull]
    split_ifs
    all_goals exact h
  · rcases (swapAddArea_appended vfs s type path size zalloc).last with heq | ⟨heq, -⟩
    all_goals omega

@[simp] theorem closeArea_areaCount (s : State τ) (i : ℕ) :
    (s.closeArea vfs i).areaCount = s.areaCount := by
  unfold State.closeArea
  dsimp only
  split_ifs <;> rfl

@[simp] theorem closeArea_initialized (s : State τ) (i : ℕ) :
    (s.closeArea vfs i).initialized = s.initialized := by
  unfold State.closeArea
  dsimp only
  split_ifs <;> rfl

theorem closeArea_areas {j : ℕ} (h : j ≠ i) : (s.closeArea vfs i).areas j = s.areas j := by
  unfold State.closeArea
  dsimp only
  split_ifs <;> exact Function.update_of_ne h _ _

variable (vfs) in
/-- A removal is refused, or one area without used slots goes and the last one takes its place. -/
theorem swapRemoveArea_cases (s : State τ) (i : ℕ) :
    ((swapRemoveArea vfs s i).2 = s ∧
        ¬(s.initialized = true ∧ i < s.areaCount ∧ (s.areas i).usedSlots = 0)) ∨
      i < s.areaCount ∧ (s.areas i).usedSlots = 0 ∧
        (swapRemoveArea vfs s i).2.initialized = s.initialized ∧
        (swapRemoveArea vfs s i).2.areaCount = s.areaCount - 1 ∧
        ∀ j < s.areaCount - 1, (swapRemoveArea vfs s i).2.areas j =
          if j = i then s.areas (s.areaCount - 1) else s.areas j := by
  unfold swapRemoveArea State.moveLast
  dsimp only
  split_ifs with h₁ h₂ h₃ h₄
  · exact .inl ⟨rfl, by omega⟩
  · exact .inl ⟨rfl, by tauto⟩
  · rw [closeArea_areaCount] at h₄
    refine .inr ⟨by omega, by omega, closeArea_initialized s i, ?_, fun j hj => ?_⟩
    · dsimp only
      rw [State.setArea_areaCount, closeArea_areaCount]
    · dsimp only
      rw [State.setArea_areas, closeArea_areaCount, closeArea_areas (by omega)]
      split_ifs with hji
      · rw [hji, Function.update_self]
      · rw [Function.update_of_ne hji, closeArea_areas hji]
  · rw [closeArea_areaCount] at h₄
    refine .inr ⟨by omega, by omega, closeArea_initialized s i, ?_, fun j hj => ?_⟩
    · dsimp only
      rw [closeArea_areaCount]
    · dsimp only
      rw [if_neg (by omega), closeArea_areas (by omega)]
  · exact .inl ⟨rfl, by tauto⟩

end Calls

end Swap
