import Kenux.Pmap.Model
import Kenux.Swap.Proofs.Slots

/-!
# Outstanding entries over whole runs

The invariant ties the bitmaps to the outstanding handles: every set bit is the slot of one of them, but
for slot 0 of area 0, whose entry is the failure value and which is lost once it is taken.
-/

open Function (update_self update_of_ne)

namespace Swap

variable {τ : Type*} {vfs : Files.Ops τ} {w w' : World τ} {h₀ : Handle}
  {s s' : State τ}

structure Inv (w : World τ) : Prop where
  initialized : w.swap.initialized = true
  areaCount : w.swap.areaCount ≤ swapMaxAreas
  areas : ∀ i < w.swap.areaCount, AreaOk (w.swap.areas i)
  distinct : w.entries.Nodup
  nonzero : ∀ h ∈ w.outstanding, h.entry ≠ 0
  denotes : ∀ h ∈ w.outstanding, Denotes w.swap h
  owned : ∀ i < w.swap.areaCount, ∀ slot < (w.swap.areas i).totalSlots,
    Bitmap.test (w.swap.areas i).bitmap slot = true → i = 0 ∧ slot = 0 ∨
      ∃ h ∈ w.outstanding, swapEntryGetArea h.entry = i ∧ swapEntryGetSlot h.entry = slot

theorem inv_start (files : τ) : Inv (start files) where
  initialized := rfl
  areaCount := Nat.zero_le _
  areas := fun i hi => absurd hi (Nat.not_lt_zero i)
  distinct := List.nodup_nil
  nonzero := fun _ hh => absurd hh List.not_mem_nil
  denotes := fun _ hh => absurd hh List.not_mem_nil
  owned := fun i hi => absurd hi (Nat.not_lt_zero i)

theorem mem_entries {e : UInt64} : e ∈ w.entries ↔ ∃ h ∈ w.outstanding, h.entry = e := List.mem_map

/-- A handle still denotes its slot when its area is as before. -/
theorem Denotes.congr (h : Denotes s h₀) (hlt : swapEntryGetArea h₀.entry < s'.areaCount)
    (hareas : s'.areas (swapEntryGetArea h₀.entry) = s.areas (swapEntryGetArea h₀.entry)) :
    Denotes s' h₀ := by
  refine ⟨hlt, ?_, ?_, h.slot, ?_, ?_⟩
  all_goals rw [hareas]
  · exact h.active
  · exact h.area
  · exact h.bound
  · exact h.taken

/-- The area of a handle has a slot in use. -/
theorem Denotes.used (h : Denotes s h₀) (hok : AreaOk (s.areas (swapEntryGetArea h₀.entry))) :
    (s.areas (swapEntryGetArea h₀.entry)).usedSlots ≠ 0 := fun h0 => by
  have hclear := hok.not_test h0 h.bound
  rw [h.taken] at hclear
  cases hclear

theorem Inv.handlesOk (hw : Inv w) : HandlesOk w := by
  refine ⟨hw.distinct, hw.denotes, fun e => ?_⟩
  rw [swapFreeEntry_eq_zero, mem_entries]
  constructor
  · intro hf
    rcases hw.owned _ hf.inRange _ hf.bound hf.taken with ⟨ha, hs⟩ | ⟨h, hh, ha, hs⟩
    · exact absurd (@entry_ext _ 0 ha hs) hf.nonzero
    · exact ⟨h, hh, entry_ext ha hs⟩
  · rintro ⟨h, hh, rfl⟩
    obtain ⟨hlt, hact, -, hslot, hbound, htaken⟩ := hw.denotes h hh
    rw [← hslot] at hbound htaken
    exact ⟨hw.initialized, hw.nonzero h hh, hlt, hact, hbound, htaken⟩

section Alloc

variable {i slot : ℕ}

theorem Inv.sized (hw : Inv w) : Sized w.swap :=
  ⟨hw.areaCount, fun i hi => (hw.areas i hi).small⟩

/-- An allocation takes a slot of one area, or finds none. -/
theorem Inv.alloc_cases (hw : Inv w) :
    ((swapAllocEntry w.swap) = (0, w.swap) ∧ ¬HasFreeSlot w.swap) ∨
      ∃ i slot, i < w.swap.areaCount ∧ Gives (w.swap.areas i) slot ∧
        (∀ k < i, ∀ slot, ¬Gives (w.swap.areas k) slot) ∧
        swapAllocEntry w.swap = (swapEntryEncode (UInt64.ofNat i) (UInt64.ofNat slot),
          w.swap.setArea i ((w.swap.areas i).take slot)) := by
  have halloc : swapAllocEntry w.swap = allocFrom w.swap 0 w.swap.areaCount :=
    if_neg (not_not.mpr hw.initialized)
  rw [halloc]
  rcases allocFrom_outcome w.swap 0 w.swap.areaCount with
    ⟨heq, hall⟩ | ⟨i, slot, -, hi, hg, hbefore, heq⟩
  · refine .inl ⟨heq, ?_⟩
    rintro ⟨i, hi, hact, hfree⟩
    obtain ⟨slot, hslot⟩ := Option.isSome_iff_exists.mp ((hw.areas i hi).isSome_iff.mpr hfree)
    exact hall i (Nat.zero_le i) (by omega) slot ⟨hact, hfree, hslot⟩
  · exact .inr ⟨i, slot, by omega, hg, fun k hk => hbefore k (Nat.zero_le k) hk, heq⟩

/-- A free slot is not the slot of an outstanding entry. -/
theorem Inv.not_mem_entries (hw : Inv w) (hi : i < w.swap.areaCount)
    (hg : Gives (w.swap.areas i) slot) :
    swapEntryEncode (UInt64.ofNat i) (UInt64.ofNat slot) ∉ w.entries := by
  obtain ⟨h256, -, h56, hclear⟩ := hw.sized.gives_bounds hi hg
  intro hmem
  obtain ⟨h, hh, he⟩ := mem_entries.mp hmem
  have hd := hw.denotes h hh
  have htaken := hd.taken
  rw [← hd.slot, he, swapEntryGetArea_encode h256 h56, swapEntryGetSlot_encode h256 h56,
    hclear] at htaken
  cases htaken

theorem Inv.givesNewEntry (hw : Inv w) : GivesNewEntry w := by
  intro hne
  rcases hw.alloc_cases with ⟨heq, -⟩ | ⟨i, slot, hi, hg, -, heq⟩
  · rw [heq] at hne
    exact absurd rfl hne
  · rw [heq]
    exact hw.not_mem_entries hi hg

/-- When slot 0 of area 0 is free, it is the slot that is given. -/
theorem TakesFirstSlot.gives (hw : Inv w) (h : TakesFirstSlot w.swap) : Gives (w.swap.areas 0) 0 := by
  obtain ⟨hlt, hact, hfree, hclear⟩ := h
  obtain ⟨slot, hslot⟩ := Option.isSome_iff_exists.mp ((hw.areas 0 hlt).isSome_iff.mpr hfree)
  have h0 : slot = 0 := by
    by_contra hne
    have := Bitmap.findFreeFrom_least hslot (Nat.le_refl 0) (Nat.pos_of_ne_zero hne)
    rw [hclear] at this
    cases this
  exact ⟨hact, hfree, h0 ▸ hslot⟩

theorem Inv.failsOnlyWhenFull_iff (hw : Inv w) :
    FailsOnlyWhenFull w.swap ↔ ¬TakesFirstSlot w.swap := by
  unfold FailsOnlyWhenFull
  rcases hw.alloc_cases with ⟨heq, hfull⟩ | ⟨i, slot, hi, hg, hbefore, heq⟩
  · rw [heq]
    refine ⟨fun _ ht => hfull ⟨0, ht.1, ht.2.1, ht.2.2.1⟩, fun _ => ⟨fun _ => hfull, fun _ => rfl⟩⟩
  · obtain ⟨h256, -, h56, hclear⟩ := hw.sized.gives_bounds hi hg
    have hfree : HasFreeSlot w.swap := ⟨i, hi, hg.1, hg.2.1⟩
    rw [heq]
    dsimp only
    rw [swapEntryEncode_eq_zero h256 h56]
    constructor
    · intro hiff ht
      have hg0 := ht.gives hw
      have hi0 : i = 0 := by
        by_contra hne
        exact hbefore 0 (Nat.pos_of_ne_zero hne) 0 hg0
      subst hi0
      have hslot : slot = 0 := Option.some.inj (hg.2.2.symm.trans hg0.2.2)
      exact hiff.mp ⟨rfl, hslot⟩ hfree
    · intro ht
      refine ⟨?_, fun hno => absurd hfree hno⟩
      rintro ⟨rfl, rfl⟩
      exact absurd ⟨hi, hg.1, hg.2.1, hclear⟩ ht

theorem Inv.step_alloc (hw : Inv w) (hst : step vfs w .allocEntry = some w') :
    Inv w' := by
  cases hst
  unfold newHandle
  rcases hw.alloc_cases with ⟨heq, -⟩ | ⟨i, slot, hi, hg, -, heq⟩
  · rw [heq]
    exact hw
  · obtain ⟨h256, hbound, h56, hclear⟩ := hw.sized.gives_bounds hi hg
    have hnew := hw.not_mem_entries hi hg
    have hzero := swapEntryEncode_eq_zero h256 h56
    have harea := swapEntryGetArea_encode h256 h56
    have hslot := swapEntryGetSlot_encode h256 h56
    rw [heq]
    dsimp only
    generalize swapEntryEncode (UInt64.ofNat i) (UInt64.ofNat slot) = e at hnew hzero harea hslot ⊢
    have hareas : ∀ j < w.swap.areaCount,
        AreaOk (Function.update w.swap.areas i ((w.swap.areas i).take slot) j) := by
      intro j hj
      by_cases hji : j = i
      · rw [hji, update_self]
        exact (hw.areas i hi).take hbound hclear
      · rw [update_of_ne hji]
        exact hw.areas j hj
    have hold : ∀ h ∈ w.outstanding,
        Denotes (w.swap.setArea i ((w.swap.areas i).take slot)) h := by
      intro h hh
      have hd := hw.denotes h hh
      by_cases hji : swapEntryGetArea h.entry = i
      · refine ⟨hd.inRange, ?_, ?_, hd.slot, ?_, ?_⟩
        all_goals rw [State.setArea_areas, hji, update_self]
        · exact hji ▸ hd.active
        · exact hji ▸ hd.area
        · exact hji ▸ hd.bound
        · show Bitmap.test (Bitmap.set _ slot) h.slot = true
          have htaken := hd.taken
          rw [hji] at htaken
          rw [Bitmap.test_set, htaken, Bool.or_true]
      · exact hd.congr hd.inRange (update_of_ne hji _ _)
    have howned : ∀ j < w.swap.areaCount,
        ∀ k < (Function.update w.swap.areas i ((w.swap.areas i).take slot) j).totalSlots,
        Bitmap.test (Function.update w.swap.areas i ((w.swap.areas i).take slot) j).bitmap k = true →
          (j = i ∧ k = slot) ∨ (j = 0 ∧ k = 0) ∨
            ∃ h ∈ w.outstanding, swapEntryGetArea h.entry = j ∧ swapEntryGetSlot h.entry = k := by
      intro j hj k hk ht
      by_cases hji : j = i
      · subst hji
        rw [update_self] at hk ht
        have ht : Bitmap.test (Bitmap.set (w.swap.areas j).bitmap slot) k = true := ht
        rw [Bitmap.test_set, Bool.or_eq_true, decide_eq_true_eq] at ht
        rcases ht with hks | ht
        · exact .inl ⟨rfl, hks.symm⟩
        · exact .inr (hw.owned j hj k hk ht)
      · rw [update_of_ne hji] at hk ht
        exact .inr (hw.owned j hj k hk ht)
    split_ifs with h0
    · obtain ⟨rfl, rfl⟩ := hzero.mp h0
      refine ⟨hw.initialized, hw.areaCount, hareas, hw.distinct, hw.nonzero, hold, ?_⟩
      intro j hj k hk ht
      exact (howned j hj k hk ht).elim .inl id
    · refine ⟨hw.initialized, hw.areaCount, hareas, ?_, ?_, ?_, ?_⟩
      · exact List.nodup_cons.mpr ⟨hnew, hw.distinct⟩
      · exact List.forall_mem_cons.mpr ⟨h0, hw.nonzero⟩
      · refine List.forall_mem_cons.mpr ⟨?_, hold⟩
        refine ⟨?_, ?_, rfl, rfl, ?_, ?_⟩
        all_goals
          dsimp only
          rw [harea]
        · exact hi
        · rw [State.setArea_areas, update_self]
          exact hg.1
        · rw [State.setArea_areas, update_self, hslot]
          exact hbound
        · rw [State.setArea_areas, update_self, hslot]
          show Bitmap.test (Bitmap.set _ slot) slot = true
          rw [Bitmap.test_set, decide_eq_true rfl, Bool.true_or]
      · intro j hj k hk ht
        rcases howned j hj k hk ht with ⟨rfl, rfl⟩ | hleak | ⟨h, hh, hjk⟩
        · exact .inr ⟨_, List.mem_cons_self, harea, hslot⟩
        · exact .inl hleak
        · exact .inr ⟨h, List.mem_cons_of_mem _ hh, hjk⟩

end Alloc

section Others

variable {type : UInt32} {path : Option String} {size : UInt64} {zalloc : Bool} {i : ℕ} {e : UInt64}

theorem Inv.step_add (hw : Inv w) (hst : step vfs w (.addArea type path size zalloc) = some w') :
    Inv w' := by
  cases hst
  have hcount := swapAddArea_areaCount vfs hw.areaCount type path size zalloc
  obtain ⟨hinit, hareas, hlast⟩ := swapAddArea_appended vfs w.swap type path size zalloc
  generalize (swapAddArea vfs w.swap type path size zalloc).2 = s' at hcount hinit hareas hlast
  -- an area in range is an old one, or the fresh one
  have hin : ∀ j < s'.areaCount, j < w.swap.areaCount ∨
      AreaOk (s'.areas j) ∧ (s'.areas j).usedSlots = 0 := by
    intro j hj
    rcases hlast with heq | ⟨heq, hfresh⟩
    · exact .inl (heq ▸ hj)
    · by_cases hjc : j < w.swap.areaCount
      · exact .inl hjc
      · rw [show j = w.swap.areaCount by omega]
        exact .inr hfresh
  have hle : w.swap.areaCount ≤ s'.areaCount := by
    rcases hlast with heq | ⟨heq, -⟩ <;> omega
  refine ⟨hinit.trans hw.initialized, hcount, fun j hj => ?_, hw.distinct, hw.nonzero, fun h hh => ?_,
    fun j hj slot hslot ht => ?_⟩
  · rcases hin j hj with hold | ⟨hok, -⟩
    · exact hareas j hold ▸ hw.areas j hold
    · exact hok
  · have hd := hw.denotes h hh
    exact hd.congr (Nat.lt_of_lt_of_le hd.inRange hle) (hareas _ hd.inRange)
  · rcases hin j hj with hold | ⟨hok, h0⟩
    · dsimp only at hslot ht
      rw [hareas j hold] at hslot ht
      exact hw.owned j hold slot hslot ht
    · have := hok.not_test h0 hslot
      rw [ht] at this
      cases this

theorem Inv.step_free (hw : Inv w) (hst : step vfs w (.freeEntry e) = some w') : Inv w' := by
  cases hst
  rcases swapFreeEntry_cases w.swap e with ⟨-, heq⟩ | ⟨hf, heq⟩
  · rw [heq]
    exact hw
  · rw [heq]
    dsimp only
    rw [if_pos rfl]
    have hmem : ∀ h, h ∈ w.outstanding.filter (·.entry ≠ e) ↔ h ∈ w.outstanding ∧ h.entry ≠ e := by
      intro h
      rw [List.mem_filter, decide_eq_true_eq]
    refine ⟨hw.initialized, hw.areaCount, fun j hj => ?_, ?_, fun h hh => ?_, fun h hh => ?_,
      fun j hj slot hslot ht => ?_⟩
    · rw [State.setArea_areas]
      by_cases hji : j = swapEntryGetArea e
      · rw [hji, update_self]
        exact (hw.areas _ hf.inRange).giveBack hf.bound hf.taken
      · rw [update_of_ne hji]
        exact hw.areas j hj
    · exact hw.distinct.sublist (List.filter_sublist.map _)
    · exact hw.nonzero h ((hmem h).mp hh).1
    · obtain ⟨hh, hne⟩ := (hmem h).mp hh
      have hd := hw.denotes h hh
      by_cases hji : swapEntryGetArea h.entry = swapEntryGetArea e
      · refine ⟨hd.inRange, ?_, ?_, hd.slot, ?_, ?_⟩
        all_goals rw [State.setArea_areas, hji, update_self]
        · exact hji ▸ hd.active
        · exact hji ▸ hd.area
        · exact hji ▸ hd.bound
        · have hslot : swapEntryGetSlot e ≠ h.slot := fun hs =>
            hne (entry_ext hji (hd.slot.trans hs.symm))
          have htaken := hd.taken
          rw [hji] at htaken
          show Bitmap.test (Bitmap.clear _ _) h.slot = true
          rw [Bitmap.test_clear, htaken, decide_eq_false hslot]
          rfl
      · exact hd.congr hd.inRange (update_of_ne hji _ _)
    · have howner : ∀ h ∈ w.outstanding, swapEntryGetArea h.entry = j →
          swapEntryGetSlot h.entry = slot → (j = swapEntryGetArea e → slot ≠ swapEntryGetSlot e) →
          h ∈ w.outstanding.filter (·.entry ≠ e) := by
        intro h hh ha hs hne
        refine (hmem h).mpr ⟨hh, ?_⟩
        rintro rfl
        exact hne ha.symm hs.symm
      have hold : (j = swapEntryGetArea e → slot ≠ swapEntryGetSlot e) ∧
          slot < (w.swap.areas j).totalSlots ∧ Bitmap.test (w.swap.areas j).bitmap slot = true := by
        rw [State.setArea_areas] at hslot ht
        by_cases hji : j = swapEntryGetArea e
        · subst hji
          rw [update_self] at hslot ht
          have ht : Bitmap.test (Bitmap.clear _ _) slot = true := ht
          rw [Bitmap.test_clear, Bool.and_eq_true, Bool.not_eq_true', decide_eq_false_iff_not] at ht
          exact ⟨fun _ => Ne.symm ht.1, hslot, ht.2⟩
        · rw [update_of_ne hji] at hslot ht
          exact ⟨fun h => absurd h hji, hslot, ht⟩
      obtain ⟨hne, hbound, htaken⟩ := hold
      rcases hw.owned j hj slot hbound htaken with hleak | ⟨h, hh, ha, hs⟩
      · exact .inl hleak
      · exact .inr ⟨h, howner h hh ha hs hne, ha, hs⟩

/-- An area with outstanding entries is neither removed nor moved. -/
theorem Inv.step_remove (hw : Inv w) (hok : ¬MovesUsedArea w.swap i) :
    Inv { w with swap := (swapRemoveArea vfs w.swap i).2 } := by
  rcases swapRemoveArea_cases vfs w.swap i with
    ⟨heq, -⟩ | ⟨hi, hused, hinit, hcount, hareas⟩
  · rw [heq]
    exact hw
  · generalize (swapRemoveArea vfs w.swap i).2 = s' at hinit hcount hareas ⊢
    have hlast : i < w.swap.areaCount - 1 → (w.swap.areas (w.swap.areaCount - 1)).usedSlots = 0 := by
      intro hlt
      by_contra hne
      exact hok ⟨hlt, hused, hne⟩
    have hlt : ∀ j < s'.areaCount, j < w.swap.areaCount - 1 := fun j hj => hcount ▸ hj
    refine ⟨hinit.trans hw.initialized, ?_, fun j hj => ?_, hw.distinct, hw.nonzero, fun h hh => ?_,
      fun j hj slot hslot ht => ?_⟩
    · have := hw.areaCount
      show s'.areaCount ≤ _
      omega
    · have hj := hlt j hj
      rw [hareas j hj]
      split_ifs
      · exact hw.areas _ (by omega)
      · exact hw.areas j (by omega)
    · have hd := hw.denotes h hh
      have hne := hd.used (hw.areas _ hd.inRange)
      have hnot : swapEntryGetArea h.entry ≠ i := fun heq => hne (heq ▸ hused)
      have hin : swapEntryGetArea h.entry < w.swap.areaCount - 1 := by
        have := hd.inRange
        by_contra hge
        have hlen : swapEntryGetArea h.entry = w.swap.areaCount - 1 := by omega
        exact hne (hlen ▸ hlast (by omega))
      exact hd.congr (hcount ▸ hin) ((hareas _ hin).trans (if_neg hnot))
    · have hj := hlt j hj
      dsimp only at hslot ht
      rw [hareas j hj] at hslot ht
      split_ifs at hslot ht with hji
      · have := (hw.areas _ (by omega)).not_test (hlast (by omega)) hslot
        rw [ht] at this
        cases this
      · exact hw.owned j (by omega) slot hslot ht

/-- A used area that moves leaves an outstanding entry behind that leads nowhere. -/
theorem Inv.handlesOk_remove_iff (hw : Inv w) :
    HandlesOk { w with swap := (swapRemoveArea vfs w.swap i).2 } ↔ ¬MovesUsedArea w.swap i := by
  refine ⟨?_, fun hok => (hw.step_remove hok).handlesOk⟩
  rintro hall ⟨hlt, hused, hlast⟩
  rcases swapRemoveArea_cases vfs w.swap i with
    ⟨-, hno⟩ | ⟨-, -, -, hcount, -⟩
  · exact hno ⟨hw.initialized, by omega, hused⟩
  · have hok := hw.areas (w.swap.areaCount - 1) (by omega)
    have hset : ∃ slot < (w.swap.areas (w.swap.areaCount - 1)).totalSlots,
        Bitmap.test (w.swap.areas (w.swap.areaCount - 1)).bitmap slot = true := by
      by_contra hno
      push Not at hno
      refine hlast (hok.used.trans (Bitmap.count_eq_zero.mpr fun slot hslot => ?_))
      exact Bool.eq_false_iff.mpr (hno slot hslot)
    obtain ⟨slot, hbound, htaken⟩ := hset
    rcases hw.owned _ (by omega) slot hbound htaken with ⟨h0, -⟩ | ⟨h, hh, ha, -⟩
    · omega
    · have hin := (hall.denotes h hh).inRange
      rw [ha] at hin
      dsimp only at hin
      omega

end Others

theorem Inv.step_inv {op : Op} (hw : Inv w) (hok : OpOk w op) (hst : step vfs w op = some w') :
    Inv w' := by
  cases op with
  | addArea type path size zalloc => exact hw.step_add hst
  | removeArea i =>
    cases hst
    exact hw.step_remove hok
  | allocEntry => exact hw.step_alloc hst
  | freeEntry e => exact hw.step_free hst

/-- As long as no used area is moved by a removal, the outstanding entries are distinct, denote their own
slots and are the ones that can be freed, and no entry is given out twice; an allocation fails with a
free slot at hand exactly when it takes slot 0 of area 0, whose entry is 0. -/
theorem swap_entries_keep_their_slots (files : τ) (h : Run.Reach (step vfs) OpOk (start files) w) :
    HandlesOk w ∧ GivesNewEntry w ∧ (FailsOnlyWhenFull w.swap ↔ ¬TakesFirstSlot w.swap) ∧
      ∀ i, HandlesOk { w with swap := (swapRemoveArea vfs w.swap i).2 } ↔
        ¬MovesUsedArea w.swap i := by
  have hw : Inv w := h.invariant (inv_start files) fun _ _ _ hi hok hst => hi.step_inv hok hst
  exact ⟨hw.handlesOk, hw.givesNewEntry, hw.failsOnlyWhenFull_iff, fun _ => hw.handlesOk_remove_iff⟩

/-- A file system without files. -/
def noFiles : Files.Ops Unit where
  openFile := fun _ _ => (-1, ())
  close := fun _ _ => ()
  lseek := fun _ _ _ => (-1, ())
  read := fun _ _ _ => (-1, fun _ => 0, ())
  write := fun _ _ _ _ => (-1, ())

def addPartition (sizePages : UInt64) : Op := .addArea swapTypePartition none sizePages true

/-- The first slot is lost; the entry of the second area is slot 0 there. -/
theorem swap_entries_keep_their_slots_second_area : ∃ w : World Unit,
    w.entries = [0x0100000000000000] ∧
    HandlesOk w ∧ GivesNewEntry w ∧ (FailsOnlyWhenFull w.swap ↔ ¬TakesFirstSlot w.swap) ∧
      ∀ i, HandlesOk { w with swap := (swapRemoveArea noFiles w.swap i).2 } ↔
        ¬MovesUsedArea w.swap i := by
  have h : Run.Reach (step noFiles) OpOk (start ()) _ := (((Run.Reach.start.step
    (addPartition 1) trivial rfl).step Op.allocEntry trivial rfl).step
    (addPartition 2) trivial rfl).step Op.allocEntry trivial rfl
  exact ⟨_, by decide +kernel, swap_entries_keep_their_slots () h⟩

/-- The first allocation from the first area fails though all its slots are free. With three areas of one
slot, freeing the slot of the second and removing that area leaves the entry of the third outside. -/
theorem swap_entries_lost :
    ¬(∀ w : World Unit, Run.Reach (step noFiles) (fun _ _ => True) (start ()) w →
      FailsOnlyWhenFull w.swap) ∧
    ¬(∀ w : World Unit, Run.Reach (step noFiles) (fun _ _ => True) (start ()) w → HandlesOk w) := by
  constructor
  · intro hall
    have h := hall _ (Run.Reach.start.step (addPartition 4) trivial rfl)
    exact h.mp (by decide +kernel) ⟨0, by decide +kernel, by decide +kernel, by decide +kernel⟩
  · intro hall
    have hrun : ∃ w, Run.run (step noFiles) (start ())
        [addPartition 1, .allocEntry, addPartition 1, .allocEntry, addPartition 1, .allocEntry,
          .freeEntry 0x0100000000000000, .removeArea 1] = some w ∧
        ∃ h ∈ w.outstanding, w.swap.areaCount ≤ swapEntryGetArea h.entry :=
      ⟨_, rfl, by decide +kernel⟩
    obtain ⟨w, hrun, h, hh, hout⟩ := hrun
    have hin := ((hall w (Run.Reach.start.of_run hrun)).denotes h hh).inRange
    omega

end Swap

/-!
## Swap entries as page table entries (`include/arch/swap.h`)

Bit 0 is set in what stands for a swapped page, and the test for it asks for that bit and for its absence.
-/

namespace Swap

variable {τ : Type*} {s : State τ} {e : UInt64}

/-- `SWAP_PTE_IS_SWAP` -/
def SwapPteIsSwap (pte : UInt64) : Prop := pte &&& Pmap.pagePresent = 0 ∧ pte &&& 0x1 ≠ 0

instance (pte : UInt64) : Decidable (SwapPteIsSwap pte) := inferInstanceAs (Decidable (_ ∧ _))

/-- `SWAP_PTE_TO_ENTRY` -/
def swapPteToEntry (pte : UInt64) : UInt64 := pte >>> 1

/-- `SWAP_ENTRY_TO_PTE` -/
def swapEntryToPte (entry : UInt64) : UInt64 := (entry <<< 1) ||| 0x1

theorem not_swapPteIsSwap (pte : UInt64) : ¬SwapPteIsSwap pte := fun h => h.2 h.1

/-- An entry whose top bit is not set comes back. -/
theorem swapPteToEntry_swapEntryToPte (h : e.toNat < 2 ^ 63) : swapPteToEntry (swapEntryToPte e) = e := by
  have hshift : (e <<< 1).toNat = 2 ^ 1 * e.toNat := by
    rw [UInt64.toNat_shiftLeft, Nat.shiftLeft_eq]
    show e.toNat * 2 ^ 1 % 2 ^ 64 = _
    omega
  have hpte : (swapEntryToPte e).toNat = 2 ^ 1 * e.toNat + 1 := by
    unfold swapEntryToPte
    rw [UInt64.toNat_or, hshift]
    exact (Nat.two_pow_add_eq_or_of_lt (by decide) e.toNat).symm
  have hback : (swapPteToEntry (swapEntryToPte e)).toNat = (swapEntryToPte e).toNat / 2 ^ 1 :=
    Word.toNat_shiftRight 1 rfl (by omega)
  apply UInt64.toNat_inj.mp
  omega

/-- The entry of an allocation fits. -/
theorem Sized.entry_lt (hs : Sized s) : (swapAllocEntry s).1.toNat < 2 ^ 60 := by
  rcases swapAllocEntry_cases s with heq | ⟨i, slot, hi, hgives, heq⟩
  · rw [heq]
    exact Nat.two_pow_pos 60
  · obtain ⟨h256, -, h56, -⟩ := hs.gives_bounds hi hgives
    have hcount := hs.areaCount
    unfold swapMaxAreas at hcount
    rw [heq, swapEntryEncode_toNat h256 h56]
    omega

/-- An entry is known for one in a page table, and comes back from there. -/
structure PteOk (e : UInt64) : Prop where
  known : SwapPteIsSwap (swapEntryToPte e)
  back : swapPteToEntry (swapEntryToPte e) = e

/-- No word that `pmap_map_page` writes is taken for a swapped page. -/
def MapsNoSwap : Prop :=
  ∀ (α : Type) (src : Pmap.FrameSource α) (m : Pmap.State α) (pml4 vaddr paddr flags a : UInt64),
    (Pmap.pmapMapPage src m pml4 vaddr paddr flags).2.mem a ≠ m.mem a →
      ¬SwapPteIsSwap ((Pmap.pmapMapPage src m pml4 vaddr paddr flags).2.mem a)

/-- An entry comes back and no present page is taken for it, but it is never known. -/
theorem swap_ptes_unknown (s : State τ) (hs : Sized s) : ¬PteOk (swapAllocEntry s).1 ∧
    swapPteToEntry (swapEntryToPte (swapAllocEntry s).1) = (swapAllocEntry s).1 ∧ MapsNoSwap := by
  have hlt := hs.entry_lt
  refine ⟨fun hok => not_swapPteIsSwap _ hok.known, swapPteToEntry_swapEntryToPte (by omega), ?_⟩
  intro α src m pml4 vaddr paddr flags a _
  exact not_swapPteIsSwap _

/-- One area of two slots, of which the first is taken. -/
def oneTaken : State Unit :=
  { swapInit () with
    areas := fun _ => ((newArea swapTypePartition 2 0).take 0)
    areaCount := 1 }

theorem oneTaken_sized : Sized oneTaken := by
  constructor
  · decide
  · intro i _
    have htotal : (oneTaken.areas i).totalSlots = 2 := rfl
    rw [htotal]
    decide

theorem oneTaken_unknown : (swapAllocEntry oneTaken).1 = 1 ∧ ¬PteOk (swapAllocEntry oneTaken).1 :=
  ⟨by decide, (swap_ptes_unknown oneTaken oneTaken_sized).1⟩

theorem entry_unknown : ¬∀ s : State Unit, Sized s → PteOk (swapAllocEntry s).1 :=
  fun h => not_swapPteIsSwap _ (h oneTaken oneTaken_sized).known

end Swap
