import Kenux.Swap.Proofs.Handles
import Kenux.Swap.Proofs.RoundTrip

/-!
# The counters in every run, and when double frees are refused

Slots change in one place of one area at a time, so what is refused stays refused; only the move of an area to
another index changes what an entry leads to.
-/

namespace Swap

variable {τ : Type*} {vfs : Files.Ops τ} {s s' : State τ} {t t' : Tracked τ} {area : SwapArea} {e : UInt64}
  {i k : ℕ}

section Counters

/-- All areas that count are in order. -/
structure AreasOk (s : State τ) : Prop where
  initialized : s.initialized = true
  areaCount : s.areaCount ≤ swapMaxAreas
  areas : ∀ i < s.areaCount, AreaOk (s.areas i)

theorem AreasOk.sized (h : AreasOk s) : Sized s := ⟨h.areaCount, fun i hi => (h.areas i hi).small⟩

theorem AreaOk.used_pos (h : AreaOk area) {slot : ℕ} (hslot : slot < area.totalSlots)
    (hset : Bitmap.test area.bitmap slot = true) : 0 < area.usedSlots := by
  by_contra hzero
  have hclear := h.not_test (Nat.eq_zero_of_not_pos hzero) hslot
  rw [hset] at hclear
  cases hclear

theorem AreasOk.counters (h : AreasOk s) : CountersOk s := by
  refine ⟨fun i hi => (h.areas i hi).total, fun i hi => (h.areas i hi).used, fun i hi slot hslot hset => ?_,
    fun i hi slot hslot hclear => ?_⟩
  · exact (h.areas i hi).used_pos hslot hset
  · have hlt := Bitmap.count_lt hslot hclear
    have hused := (h.areas i hi).used
    have htotal := (h.areas i hi).total
    omega

theorem AreasOk.setArea (h : AreasOk s) (harea : AreaOk area) (files : τ) :
    AreasOk { s.setArea i area with files := files } := by
  refine ⟨h.initialized, h.areaCount, fun j hj => ?_⟩
  dsimp only
  rw [State.setArea_areas]
  by_cases hji : j = i
  · subst hji
    rw [Function.update_self]
    exact harea
  · rw [Function.update_of_ne hji]
    exact h.areas j hj

theorem AreasOk.withFiles (h : AreasOk s) (files : τ) : AreasOk { s with files := files } :=
  ⟨h.initialized, h.areaCount, h.areas⟩

theorem areasOk_init (files : τ) : AreasOk (swapInit files) :=
  ⟨rfl, Nat.zero_le _, fun i hi => absurd hi (Nat.not_lt_zero i)⟩

theorem AreasOk.take (h : AreasOk s) (hi : i < s.areaCount) (hg : Gives (s.areas i) k) :
    AreaOk ((s.areas i).take k) := by
  obtain ⟨-, hslot, -, hclear⟩ := h.sized.gives_bounds hi hg
  exact (h.areas i hi).take hslot hclear

/-- A slot that was taken and could not be written is given back in order. -/
theorem AreasOk.take_giveBack (h : AreasOk s) (hi : i < s.areaCount) (hg : Gives (s.areas i) k) :
    AreaOk (((s.areas i).take k).giveBack k) := by
  obtain ⟨-, hslot, -, -⟩ := h.sized.gives_bounds hi hg
  refine (h.take hi hg).giveBack hslot ?_
  show Bitmap.test (Bitmap.set _ k) k = true
  rw [Bitmap.test_set, decide_eq_true rfl, Bool.true_or]

theorem AreasOk.giveBack (h : AreasOk s) (hf : Freeable s e) :
    AreaOk ((s.areas (swapEntryGetArea e)).giveBack (swapEntryGetSlot e)) :=
  (h.areas _ hf.inRange).giveBack hf.bound hf.taken

theorem AreasOk.addArea (h : AreasOk s) (type : UInt32) (path : Option String) (size : UInt64) (zalloc : Bool) :
    AreasOk (swapAddArea vfs s type path size zalloc).2 := by
  obtain ⟨hinit, hareas, hlast⟩ := swapAddArea_appended vfs s type path size zalloc
  refine ⟨hinit.trans h.initialized, swapAddArea_areaCount vfs h.areaCount type path size zalloc, fun j hj => ?_⟩
  by_cases hjc : j < s.areaCount
  · exact hareas j hjc ▸ h.areas j hjc
  · rcases hlast with heq | ⟨heq, hok, -⟩
    · omega
    · rw [show j = s.areaCount by omega]
      exact hok

theorem AreasOk.removeArea (h : AreasOk s) (i : ℕ) : AreasOk (swapRemoveArea vfs s i).2 := by
  rcases swapRemoveArea_cases vfs s i with ⟨heq, -⟩ | ⟨hi, -, hinit, hcount, hareas⟩
  · rw [heq]
    exact h
  · have hle := h.areaCount
    refine ⟨hinit.trans h.initialized, by omega, fun j hj => ?_⟩
    rw [hcount] at hj
    rw [hareas j hj]
    split_ifs
    · exact h.areas _ (by omega)
    · exact h.areas j (by omega)

/-- Every call keeps the counters, on every error exit as well. -/
theorem AreasOk.call {c : Call} (h : AreasOk s) (hst : callStep vfs s c = some s') : AreasOk s' := by
  cases c with
  | addArea type path size zalloc =>
    cases hst
    exact h.addArea type path size zalloc
  | removeArea i =>
    cases hst
    exact h.removeArea i
  | allocEntry =>
    cases hst
    rcases swapAllocEntry_cases s with heq | ⟨i, slot, hi, hg, heq⟩
    · rw [heq]
      exact h
    · rw [heq]
      exact h.setArea (h.take hi hg) s.files
  | freeEntry e =>
    cases hst
    rcases swapFreeEntry_cases s e with ⟨-, heq⟩ | ⟨hf, heq⟩
    · rw [heq]
      exact h
    · rw [heq]
      exact h.setArea (h.giveBack hf) s.files
  | swapOut m pml4 page v =>
    cases hst
    rcases swapOut_cases vfs h.sized m pml4 page v with
      heq | ⟨i, slot, hi, hg, -, ⟨-, heq⟩ | ⟨r, -, -, heq | ⟨-, calls, heq⟩⟩⟩
    · rw [heq]
      exact h
    · rw [heq]
      exact h.setArea (h.take hi hg) s.files
    · rw [heq]
      exact h.setArea (h.take_giveBack hi hg) _
    · rw [heq]
      exact h.setArea (h.take hi hg) _
  | swapIn m pml4 e page v =>
    cases hst
    rcases swapIn_cases vfs s m pml4 e page v with heq | ⟨r, hf, -, heq | ⟨-, calls, heq⟩⟩
    · rw [heq]
      exact h
    · rw [heq]
      exact h.withFiles _
    · rw [heq]
      exact h.setArea (h.giveBack hf) _

end Counters

section Refusals

/-- An entry is refused exactly when its slot cannot be given back. -/
theorem refuses_iff : Refuses vfs s e ↔ ¬Freeable s e := by
  constructor
  · intro h hf
    rcases swapFreeEntry_cases s e with ⟨hno, -⟩ | ⟨-, heq⟩
    · exact hno hf
    · have hret : (0 : ℤ) = -1 := congrArg Prod.fst (heq.symm.trans h.free)
      cases hret
  · intro hno
    refine ⟨?_, fun m pml4 page v => ?_⟩
    · rcases swapFreeEntry_cases s e with ⟨-, heq⟩ | ⟨hf, -⟩
      · exact heq
      · exact absurd hf hno
    · rcases swapIn_cases vfs s m pml4 e page v with heq | ⟨r, hf, -⟩
      · exact heq
      · exact absurd hf hno

theorem refusesFreed_iff : RefusesFreed vfs t ↔ ∀ e ∈ t.freed, ¬Freeable t.swap e :=
  forall₂_congr fun _ _ => refuses_iff

/-- Changing an area lets no entry be freed whose slot was clear and stays so. -/
theorem not_freeable_setArea (hno : ¬Freeable s e) (files : τ) (hactive : area.active = (s.areas i).active)
    (htotal : area.totalSlots = (s.areas i).totalSlots)
    (hbit : swapEntryGetArea e = i → Bitmap.test area.bitmap (swapEntryGetSlot e) = true →
      Bitmap.test (s.areas i).bitmap (swapEntryGetSlot e) = true) :
    ¬Freeable { s.setArea i area with files := files } e := by
  rintro ⟨hinit, hne, hrange, hact, hbound, htaken⟩
  dsimp only at hinit hrange hact hbound htaken
  rw [State.setArea_areas] at hact hbound htaken
  by_cases hei : swapEntryGetArea e = i
  · subst hei
    rw [Function.update_self] at hact hbound htaken
    exact hno ⟨hinit, hne, hrange, hactive ▸ hact, htotal ▸ hbound, hbit rfl htaken⟩
  · rw [Function.update_of_ne hei] at hact hbound htaken
    exact hno ⟨hinit, hne, hrange, hact, hbound, htaken⟩

theorem not_freeable_take (h : AreasOk s) (hi : i < s.areaCount) (hg : Gives (s.areas i) k)
    (hne : e ≠ swapEntryEncode (UInt64.ofNat i) (UInt64.ofNat k)) (hno : ¬Freeable s e) (files : τ) :
    ¬Freeable { s.setArea i ((s.areas i).take k) with files := files } e := by
  obtain ⟨h256, -, h56, -⟩ := h.sized.gives_bounds hi hg
  refine not_freeable_setArea hno files rfl rfl fun hei htaken => ?_
  have htaken : Bitmap.test (Bitmap.set (s.areas i).bitmap k) (swapEntryGetSlot e) = true := htaken
  have hslot : k ≠ swapEntryGetSlot e := by
    intro hk
    refine hne (entry_ext ?_ ?_)
    · rw [hei, swapEntryGetArea_encode h256 h56]
    · rw [← hk, swapEntryGetSlot_encode h256 h56]
  rw [Bitmap.test_set, decide_eq_false hslot, Bool.false_or] at htaken
  exact htaken

theorem not_freeable_giveBack (hno : ¬Freeable s e) (i k : ℕ) (files : τ) :
    ¬Freeable { s.setArea i ((s.areas i).giveBack k) with files := files } e := by
  refine not_freeable_setArea hno files rfl rfl fun _ htaken => ?_
  have htaken : Bitmap.test (Bitmap.clear (s.areas i).bitmap k) (swapEntryGetSlot e) = true := htaken
  rw [Bitmap.test_clear, Bool.and_eq_true] at htaken
  exact htaken.2

/-- What is given back cannot be given back again. -/
theorem not_freeable_self (s : State τ) (e : UInt64) (files : τ) :
    ¬Freeable { s.setArea (swapEntryGetArea e)
      ((s.areas (swapEntryGetArea e)).giveBack (swapEntryGetSlot e)) with files := files } e := by
  intro hf
  have htaken := hf.taken
  dsimp only at htaken
  rw [State.setArea_areas, Function.update_self] at htaken
  have htaken : Bitmap.test (Bitmap.clear _ (swapEntryGetSlot e)) (swapEntryGetSlot e) = true := htaken
  rw [Bitmap.test_clear, decide_eq_true rfl] at htaken
  cases htaken

/-- A slot that was taken and given back is as clear as before. -/
theorem not_freeable_take_giveBack (hno : ¬Freeable s e) (i k : ℕ) (files : τ) :
    ¬Freeable { s.setArea i (((s.areas i).take k).giveBack k) with files := files } e := by
  refine not_freeable_setArea hno files rfl rfl fun _ htaken => ?_
  have htaken : Bitmap.test (Bitmap.clear (Bitmap.set (s.areas i).bitmap k) k) (swapEntryGetSlot e) = true :=
    htaken
  rw [Bitmap.test_clear, Bitmap.test_set, Bool.and_eq_true, Bool.not_eq_true', decide_eq_false_iff_not] at htaken
  rw [decide_eq_false htaken.1, Bool.false_or] at htaken
  exact htaken.2

theorem not_freeable_addArea (h : AreasOk s) (hno : ¬Freeable s e) (type : UInt32) (path : Option String)
    (size : UInt64) (zalloc : Bool) : ¬Freeable (swapAddArea vfs s type path size zalloc).2 e := by
  obtain ⟨hinit, hareas, hlast⟩ := swapAddArea_appended vfs s type path size zalloc
  intro hf
  by_cases hold : swapEntryGetArea e < s.areaCount
  · have hsame := hareas _ hold
    exact hno ⟨h.initialized, hf.nonzero, hold, hsame ▸ hf.active, hsame ▸ hf.bound, hsame ▸ hf.taken⟩
  · have hrange := hf.inRange
    rcases hlast with heq | ⟨heq, hok, hzero⟩
    · omega
    · have hnew : swapEntryGetArea e = s.areaCount := by omega
      have hbound := hf.bound
      have htaken := hf.taken
      rw [hnew] at hbound htaken
      rw [hok.not_test hzero hbound] at htaken
      cases htaken

/-- After a removal an entry can be freed newly exactly when the last area has come to its index with its slot in
use. -/
theorem freeable_removeArea_iff (h : AreasOk s) (hne : e ≠ 0) (hno : ¬Freeable s e) (i : ℕ) :
    Freeable (swapRemoveArea vfs s i).2 e ↔ i < s.areaCount - 1 ∧ (s.areas i).usedSlots = 0 ∧
      swapEntryGetArea e = i ∧ swapEntryGetSlot e < (s.areas (s.areaCount - 1)).totalSlots ∧
      Bitmap.test (s.areas (s.areaCount - 1)).bitmap (swapEntryGetSlot e) = true := by
  rcases swapRemoveArea_cases vfs s i with ⟨heq, hrefused⟩ | ⟨hi, hused, hinit, hcount, hareas⟩
  · rw [heq]
    refine iff_of_false hno ?_
    rintro ⟨hlt, hused, -⟩
    exact hrefused ⟨h.initialized, by omega, hused⟩
  · constructor
    · intro hf
      have hrange := hf.inRange
      rw [hcount] at hrange
      have hact := hf.active
      have hbound := hf.bound
      have htaken := hf.taken
      rw [hareas _ hrange] at hact hbound htaken
      split_ifs at hact hbound htaken with hei
      · exact ⟨hei ▸ hrange, hused, hei, hbound, htaken⟩
      · exact absurd ⟨h.initialized, hne, by omega, hact, hbound, htaken⟩ hno
    · rintro ⟨hlt, -, rfl, hbound, htaken⟩
      have harea := (hareas _ hlt).trans (if_pos rfl)
      refine ⟨hinit.trans h.initialized, hne, hcount ▸ hlt, ?_, ?_, ?_⟩
      · rw [harea]
        exact (h.areas _ (by omega)).active
      · rw [harea]
        exact hbound
      · rw [harea]
        exact htaken

end Refusals

section Runs

/-- The areas are in order, and what was freed are entries. -/
structure TrackedOk (t : Tracked τ) : Prop where
  areas : AreasOk t.swap
  nonzero : ∀ e ∈ t.freed, e ≠ 0

theorem trackedOk_start (files : τ) : TrackedOk (startTracked files) :=
  ⟨areasOk_init files, fun _ he => absurd he List.not_mem_nil⟩

theorem TrackedOk.step {c : Call} (h : TrackedOk t) (hst : trackedStep vfs t c = some t') : TrackedOk t' := by
  obtain ⟨s', hs', rfl⟩ := Option.map_eq_some_iff.mp hst
  refine ⟨h.areas.call hs', ?_⟩
  have hcons : ∀ {p : Prop} [Decidable p] {e : UInt64}, (p → Freeable t.swap e) →
      ∀ d ∈ (if p then e :: t.freed else t.freed), d ≠ 0 := by
    intro p _ e hp
    split_ifs with hif
    · exact List.forall_mem_cons.mpr ⟨(hp hif).nonzero, h.nonzero⟩
    · exact h.nonzero
  cases c with
  | addArea type path size zalloc => exact h.nonzero
  | removeArea i => exact h.nonzero
  | allocEntry => exact fun e he => h.nonzero e (List.mem_of_mem_filter he)
  | freeEntry e => exact hcons fun hret => swapFreeEntry_eq_zero.mp hret
  | swapOut m pml4 page v => exact fun e he => h.nonzero e (List.mem_of_mem_filter he)
  | swapIn m pml4 e page v =>
    refine hcons fun hret => ?_
    rcases swapIn_cases vfs t.swap m pml4 e page v with heq | ⟨r, hf, -⟩
    · rw [heq] at hret
      cases hret
    · exact hf

/-- A call keeps the refusals exactly when it does not move a slot in use under a freed entry. -/
theorem refused_step {c : Call} (h : TrackedOk t) (hno : ∀ e ∈ t.freed, ¬Freeable t.swap e)
    (hst : trackedStep vfs t c = some t') : (∀ e ∈ t'.freed, ¬Freeable t'.swap e) ↔ KeepsRefused t c := by
  obtain ⟨s', hs', rfl⟩ := Option.map_eq_some_iff.mp hst
  have hok := h.areas
  cases c with
  | addArea type path size zalloc =>
    cases hs'
    exact iff_of_true (fun e he => not_freeable_addArea hok (hno e he) type path size zalloc) trivial
  | removeArea i =>
    cases hs'
    constructor
    · intro hall hlt hused e he hei hslot
      exact hall e he ((freeable_removeArea_iff hok (h.nonzero e he) (hno e he) i).mpr ⟨hlt, hused, hei, hslot⟩)
    · intro hkeep e he hf
      obtain ⟨hlt, hused, hei, hslot⟩ :=
        (freeable_removeArea_iff hok (h.nonzero e he) (hno e he) i).mp hf
      exact hkeep hlt hused e he hei hslot
  | allocEntry =>
    cases hs'
    refine iff_of_true (fun e he => ?_) trivial
    obtain ⟨he, hne⟩ := List.mem_filter.mp he
    rw [decide_eq_true_eq] at hne
    rcases swapAllocEntry_cases t.swap with heq | ⟨i, slot, hi, hg, heq⟩
    · rw [heq]
      exact hno e he
    · rw [heq] at hne ⊢
      exact not_freeable_take hok hi hg hne (hno e he) t.swap.files
  | freeEntry d =>
    cases hs'
    refine iff_of_true ?_ trivial
    unfold freedAfter
    dsimp only
    rcases swapFreeEntry_cases t.swap d with ⟨-, heq⟩ | ⟨hf, heq⟩
    · rw [heq]
      exact hno
    · rw [heq]
      refine List.forall_mem_cons.mpr ⟨not_freeable_self t.swap d t.swap.files, fun e he => ?_⟩
      exact not_freeable_giveBack (hno e he) _ _ t.swap.files
  | swapOut m pml4 page v =>
    cases hs'
    refine iff_of_true (fun e he => ?_) trivial
    obtain ⟨he, hne⟩ := List.mem_filter.mp he
    rw [decide_eq_true_eq] at hne
    rcases swapOut_cases vfs hok.sized m pml4 page v with
      heq | ⟨i, slot, hi, hg, -, ⟨hzero, heq⟩ | ⟨r, -, -, heq | ⟨-, calls, heq⟩⟩⟩
    · rw [heq]
      exact hno e he
    · rw [heq] at hne ⊢
      exact not_freeable_take hok hi hg (hzero ▸ hne) (hno e he) t.swap.files
    · rw [heq]
      exact not_freeable_take_giveBack (hno e he) i slot _
    · rw [heq] at hne ⊢
      exact not_freeable_take hok hi hg hne (hno e he) _
  | swapIn m pml4 d page v =>
    cases hs'
    refine iff_of_true ?_ trivial
    unfold freedAfter
    dsimp only
    rcases swapIn_cases vfs t.swap m pml4 d page v with heq | ⟨r, hf, -, heq | ⟨-, calls, heq⟩⟩
    · rw [heq]
      exact hno
    · rw [heq]
      exact fun e he hf => hno e he ⟨hf.initialized, hf.nonzero, hf.inRange, hf.active, hf.bound, hf.taken⟩
    · rw [heq]
      refine List.forall_mem_cons.mpr ⟨not_freeable_self t.swap d _, fun e he => ?_⟩
      exact not_freeable_giveBack (hno e he) _ _ _

variable (vfs) in
theorem trackedStep_some (t : Tracked τ) (c : Call) : ∃ t', trackedStep vfs t c = some t' := by
  cases c <;> exact ⟨_, rfl⟩

variable (vfs) in
theorem trackedRun_some (cs : List Call) (t : Tracked τ) : ∃ t', Run.run (trackedStep vfs) t cs = some t' := by
  induction cs generalizing t with
  | nil => exact ⟨t, rfl⟩
  | cons c cs ih =>
    obtain ⟨u, hu⟩ := trackedStep_some vfs t c
    rw [Run.run_cons hu]
    exact ih u

variable (vfs) in
/-- In every run the counters of all areas agree with their bitmaps. What was freed or swapped in is refused as long
as no removal puts another area in its place whose slot of the same number is in use, and not longer. -/
theorem swap_counters_iff (files : τ) (cs : List Call) :
    Run.Always (trackedStep vfs) (fun t => CountersOk t.swap) (startTracked files) cs ∧
      (Run.Always (trackedStep vfs) (RefusesFreed vfs) (startTracked files) cs ↔
        Run.Meets (trackedStep vfs) KeepsRefused (startTracked files) cs) := by
  constructor
  · exact Run.always_of_invariant (fun t h => h.areas.counters) (fun _ _ _ h hst => h.step hst) (trackedOk_start files)
  · obtain ⟨t, hrun⟩ := trackedRun_some vfs cs (startTracked files)
    refine Run.always_iff_meets (fun s c t hP hI hst => ⟨TrackedOk.step hI hst, ?_⟩) ?_
      (trackedOk_start files) hrun
    · rw [refusesFreed_iff] at hP ⊢
      exact refused_step hI hP hst
    · exact refusesFreed_iff.mpr fun _ he => absurd he List.not_mem_nil

def addPartitionCall (sizePages : UInt64) : Call := .addArea swapTypePartition none sizePages true

/-- Three areas of one slot, all taken; the slot of the second is freed, and the third area moves to its place. -/
def movesUsed : List Call :=
  [addPartitionCall 1, .allocEntry, addPartitionCall 1, .allocEntry, addPartitionCall 1, .allocEntry,
    .freeEntry 0x0100000000000000, .removeArea 1]

/-- Freeing the entry of the second area again gives the slot back that the third has in use. -/
theorem double_free_accepted : ¬∀ cs : List Call,
    Run.Always (trackedStep noFiles) (fun t => CountersOk t.swap) (startTracked ()) cs ∧
      Run.Always (trackedStep noFiles) (RefusesFreed noFiles) (startTracked ()) cs := by
  intro hall
  have hfreed : (Run.run (trackedStep noFiles) (startTracked ()) movesUsed).map
      (fun t => (t.freed, (swapFreeEntry t.swap 0x0100000000000000).1)) = some ([0x0100000000000000], 0) := by
    decide +kernel
  cases hrun : Run.run (trackedStep noFiles) (startTracked ()) movesUsed with
  | none =>
    rw [hrun] at hfreed
    cases hfreed
  | some t =>
    rw [hrun] at hfreed
    obtain ⟨hmem, hret⟩ := Prod.mk.inj (Option.some.inj hfreed)
    have hrefuses := Run.Always.last (hall movesUsed).2 hrun 0x0100000000000000 (hmem ▸ List.mem_singleton_self _)
    rw [hrefuses.free] at hret
    cases hret

end Runs

end Swap
