import Kenux.Mmap.Proofs.Invariant

/-!
# What `mmap_do_munmap` does to the map of pages

Seen from outside a context is a partial map from pages to their protection, flags and file offset.
Unmapping a range should remove its pages and nothing else. A round of the loop does so unless it
trims the head of an area with offset 0, whose offset the code then leaves alone, or splits an area
when no slot is free, which loses the tail; and the loop does not see areas that end at `2 ^ 64`.
-/

namespace Mmap

open Function (update_self update_of_ne)

/-! ## The map -/

structure PageInfo where
  prot : UInt32
  flags : UInt32
  fileOffset : UInt64
  deriving DecidableEq

def Area.hasPage (a : Area) (p : UInt64) : Bool :=
  a.active && a.start ≤ p && p - a.start < a.length

def Area.info (a : Area) (p : UInt64) : PageInfo := ⟨a.prot, a.flags, a.offset + (p - a.start)⟩

/-- The map from page addresses that an array of areas stands for. -/
def pageView (f : Slot → Area) (p : UInt64) : Option PageInfo :=
  (firstSlot fun i => (f i).hasPage p).map fun i => (f i).info p

/-- The map without the pages in `[lo, hi)`. -/
def removePages (m : UInt64 → Option PageInfo) (lo hi : ℕ) (p : UInt64) : Option PageInfo :=
  if lo ≤ p.toNat ∧ p.toNat < hi then none else m p

theorem Area.hasPage_iff (a : Area) (p : UInt64) :
    a.hasPage p = true ↔ a.active = true ∧ a.lo ≤ p.toNat ∧ p.toNat < a.hi := by
  unfold hasPage lo hi
  simp only [Bool.and_eq_true, decide_eq_true_eq, UInt64.le_iff_toNat_le, UInt64.lt_iff_toNat_lt,
    and_assoc]
  refine and_congr_right fun _ => and_congr_right fun h => ?_
  rw [UInt64.toNat_sub_of_le _ _ (UInt64.le_iff_toNat_le.mpr h)]
  omega

/-- At most one area has a page. -/
theorem Separated.hasPage_unique {f : Slot → Area} {top : ℕ} (h : Separated f top) {i j : Slot}
    {p : UInt64} (hi : (f i).hasPage p = true) (hj : (f j).hasPage p = true) : i = j := by
  obtain ⟨hi1, hi2, hi3⟩ := (Area.hasPage_iff _ _).mp hi
  obtain ⟨hj1, hj2, hj3⟩ := (Area.hasPage_iff _ _).mp hj
  by_contra hne
  rcases h.disjoint i j hne hi1 hj1 with hd | hd <;> omega

theorem pageView_eq_some_iff {f : Slot → Area} {top : ℕ} (h : Separated f top) {p : UInt64}
    {t : PageInfo} : pageView f p = some t ↔ ∃ i, (f i).hasPage p = true ∧ (f i).info p = t := by
  unfold pageView
  rw [Option.map_eq_some_iff]
  constructor
  · rintro ⟨i, hi, ht⟩
    exact ⟨i, firstSlot_some hi, ht⟩
  · rintro ⟨i, hi, ht⟩
    obtain ⟨j, hj⟩ := Option.isSome_iff_exists.mp
      (firstSlot_isSome (p := fun i => (f i).hasPage p).mpr ⟨i, hi⟩)
    obtain rfl := h.hasPage_unique hi (firstSlot_some hj)
    exact ⟨i, hj, ht⟩

theorem pageView_eq_none_iff {f : Slot → Area} {p : UInt64} :
    pageView f p = none ↔ ∀ i, (f i).hasPage p = false := by
  unfold pageView
  rw [Option.map_eq_none_iff]
  constructor
  · exact firstSlot_none
  · intro h
    rw [← Option.not_isSome_iff_eq_none, firstSlot_isSome]
    rintro ⟨i, hi⟩
    rw [h i] at hi
    exact absurd hi (by simp)

/-- A part whose offset moved along with its start gives its pages the same triple. -/
theorem Area.Part.info_eq {a b : Area} {lo hi : ℕ} (hb : a.Part b lo hi)
    (ho : b.offset = a.offset + (b.start - a.start)) (p : UInt64) : b.info p = a.info p := by
  unfold info
  rw [hb.prot, hb.flags, ho]
  congr 1
  grind

theorem Area.Part.hasPage_iff {a b : Area} {lo hi : ℕ} (hb : a.Part b lo hi) (p : UInt64) :
    b.hasPage p = true ↔ lo ≤ p.toNat ∧ p.toNat < hi := by
  rw [Area.hasPage_iff, hb.lo_eq, hb.hi_eq]
  exact and_iff_right hb.active

theorem Area.Part.start_eq {a b : Area} {hi : ℕ} (hb : a.Part b a.lo hi) : b.start = a.start :=
  UInt64.toNat_inj.mp hb.lo_eq

/-! ## One round -/

/-- No round that the range `[lo, hi)` leads to goes wrong: an area that loses its head has an offset,
an area that is split finds a free slot, and no area that is hit ends at `2 ^ 64`, nor does the
range. -/
structure MunmapExact (f : Slot → Area) (lo hi : ℕ) : Prop where
  head : ∀ i, (f i).active = true → lo ≤ (f i).lo → (f i).lo < hi → hi < (f i).hi → (f i).offset ≠ 0
  hole : ∀ i, (f i).active = true → (f i).lo < lo → hi < (f i).hi → ∃ j, (f j).active = false
  last : ∀ i, (f i).active = true → lo < (f i).hi → (f i).lo < hi →
    (f i).hi < 2 ^ 64 ∧ hi < 2 ^ 64

section Round

variable {ctx ctx' : Context} {idx : Slot} {lo hi : ℕ}

/-- The pages outside the range keep their triple. -/
theorem Trimmed.pageView_eq {top : ℕ} (ht : Trimmed ctx idx lo hi ctx')
    (h : Separated ctx.areas top) (h' : Separated ctx'.areas top)
    (hact : (ctx.areas idx).active = true) (hlo : lo < (ctx.areas idx).hi)
    (hhi : (ctx.areas idx).lo < hi)
    (hhead : lo ≤ (ctx.areas idx).lo → hi < (ctx.areas idx).hi → (ctx.areas idx).offset ≠ 0)
    (hhole : (ctx.areas idx).lo < lo → hi < (ctx.areas idx).hi → ∃ j, (ctx.areas j).active = false)
    {p : UInt64} (hp : p.toNat < lo ∨ hi ≤ p.toNat) :
    pageView ctx'.areas p = pageView ctx.areas p := by
  refine Option.ext fun t => ?_
  rw [pageView_eq_some_iff h, pageView_eq_some_iff h']
  -- a round that replaces the area by a part with the same pages outside the range
  have key : ∀ b : Area, (b.hasPage p = true ↔ (ctx.areas idx).hasPage p = true) →
      (b.hasPage p = true → b.info p = (ctx.areas idx).info p) →
      ((∃ i, (Function.update ctx.areas idx b i).hasPage p = true ∧
        (Function.update ctx.areas idx b i).info p = t) ↔
      ∃ i, (ctx.areas i).hasPage p = true ∧ (ctx.areas i).info p = t) := by
    intro b hb hbi
    refine exists_congr fun i => ?_
    by_cases hidx : i = idx
    · subst hidx
      rw [update_self, hb]
      refine and_congr_right fun hpage => ?_
      rw [hbi (hb.mpr hpage)]
    · rw [update_of_ne hidx]
  cases ht with
  | whole hlo' hhi' =>
    refine key _ ?_ (fun hpage => absurd hpage (by simp [Area.hasPage, Area.zero]))
    rw [Area.hasPage_iff, Area.hasPage_iff]
    refine ⟨fun hz => absurd hz.1 (by simp [Area.zero]), fun hz => ?_⟩
    omega
  | head b hlo' hhi' hb ho =>
    rw [if_pos (hhead hlo' hhi')] at ho
    refine key b ?_ fun _ => hb.info_eq ho p
    rw [hb.hasPage_iff, Area.hasPage_iff]
    exact ⟨fun hz => ⟨hact, by omega⟩, fun hz => by omega⟩
  | tail b hlo' hhi' hb ho =>
    refine key b ?_ fun _ => hb.info_eq (by rw [ho, hb.start_eq]; grind) p
    rw [hb.hasPage_iff, Area.hasPage_iff]
    exact ⟨fun hz => ⟨hact, by omega⟩, fun hz => by omega⟩
  | hole b hlo' hhi' hfull hb ho =>
    obtain ⟨j, hj⟩ := hhole hlo' hhi'
    rw [mmapAllocSlot_none hfull j] at hj
    exact absurd hj (by simp)
  | split b tl slot hlo' hhi' hfree hb ho htl hto =>
    have hslot := mmapAllocSlot_some hfree
    have hne : slot ≠ idx := by
      rintro rfl
      rw [hact] at hslot
      exact absurd hslot (by simp)
    have hbi : b.info p = (ctx.areas idx).info p :=
      hb.info_eq (by rw [ho, hb.start_eq]; grind) p
    have hti : tl.info p = (ctx.areas idx).info p := htl.info_eq hto p
    dsimp only
    constructor
    · rintro ⟨i, hi1, hi2⟩
      by_cases hidx : i = idx
      · subst hidx
        rw [update_self] at hi1 hi2
        rw [hb.hasPage_iff] at hi1
        exact ⟨i, (Area.hasPage_iff _ _).mpr ⟨hact, by omega⟩, hbi ▸ hi2⟩
      · rw [update_of_ne hidx] at hi1 hi2
        by_cases his : i = slot
        · subst his
          rw [update_self] at hi1 hi2
          rw [htl.hasPage_iff] at hi1
          exact ⟨idx, (Area.hasPage_iff _ _).mpr ⟨hact, by omega⟩, hti ▸ hi2⟩
        · rw [update_of_ne his] at hi1 hi2
          exact ⟨i, hi1, hi2⟩
    · rintro ⟨i, hi1, hi2⟩
      have hia := (Area.hasPage_iff _ _).mp hi1
      by_cases hidx : i = idx
      · subst hidx
        rcases hp with hp | hp
        · refine ⟨i, ?_, ?_⟩
          · rw [update_self, hb.hasPage_iff]
            omega
          · rw [update_self, hbi, hi2]
        · refine ⟨slot, ?_, ?_⟩
          · rw [update_of_ne hne, update_self, htl.hasPage_iff]
            omega
          · rw [update_of_ne hne, update_self, hti, hi2]
      · have his : i ≠ slot := by
          rintro rfl
          rw [hslot] at hia
          exact absurd hia.1 (by simp)
        refine ⟨i, ?_, ?_⟩
        · rw [update_of_ne hidx, update_of_ne his]
          exact hi1
        · rw [update_of_ne hidx, update_of_ne his]
          exact hi2

/-- What is active after a round was there before, in another slot than the treated one, or is clear
of the range. -/
theorem Trimmed.outside (ht : Trimmed ctx idx lo hi ctx') {j : Slot}
    (hj : (ctx'.areas j).active = true) :
    (j ≠ idx ∧ ctx'.areas j = ctx.areas j) ∨ (ctx'.areas j).hi ≤ lo ∨ hi ≤ (ctx'.areas j).lo := by
  have key : ∀ b : Area, (b.active = true → b.hi ≤ lo ∨ hi ≤ b.lo) →
      (Function.update ctx.areas idx b j).active = true →
      (j ≠ idx ∧ Function.update ctx.areas idx b j = ctx.areas j) ∨
        (Function.update ctx.areas idx b j).hi ≤ lo ∨ hi ≤ (Function.update ctx.areas idx b j).lo := by
    intro b hb hb'
    by_cases hidx : j = idx
    · subst hidx
      rw [update_self] at hb' ⊢
      exact Or.inr (hb hb')
    · exact Or.inl ⟨hidx, update_of_ne hidx _ _⟩
  cases ht with
  | whole hlo hhi => exact key _ (fun hz => absurd hz (by simp [Area.zero])) hj
  | head b hlo hhi hb ho => exact key b (fun _ => Or.inr hb.lo_eq.ge) hj
  | tail b hlo hhi hb ho => exact key b (fun _ => Or.inl hb.hi_eq.le) hj
  | hole b hlo hhi hfull hb ho => exact key b (fun _ => Or.inl hb.hi_eq.le) hj
  | split b t slot hlo hhi hfree hb ho ht hto =>
    dsimp only at hj ⊢
    by_cases hidx : j = idx
    · subst hidx
      rw [update_self]
      exact Or.inr (Or.inl hb.hi_eq.le)
    · rw [update_of_ne hidx] at hj ⊢
      by_cases hs : j = slot
      · subst hs
        rw [update_self]
        exact Or.inr (Or.inr ht.lo_eq.ge)
      · exact Or.inl ⟨hidx, update_of_ne hs _ _⟩

/-- A round changes the treated slot and a free one only. -/
theorem trimArea_of_ne {addr al : UInt64} {j : Slot} (hj : j ≠ idx)
    (hact : (ctx.areas j).active = true) :
    (trimArea ctx idx addr al).areas j = ctx.areas j := by
  unfold trimArea
  dsimp only
  split_ifs
  · exact update_of_ne hj _ _
  · exact update_of_ne hj _ _
  · exact update_of_ne hj _ _
  · exact update_of_ne hj _ _
  · cases hslot : mmapAllocSlot ctx with
    | none => exact update_of_ne hj _ _
    | some slot =>
      have hne : j ≠ slot := by
        rintro rfl
        rw [mmapAllocSlot_some hslot] at hact
        exact absurd hact (by simp)
      dsimp only
      rw [update_of_ne hj, update_of_ne hne]

end Round

/-! ## The loop -/

section Loop

variable {ε : Type} {S : Services ε} {ctx : Context} {addr al : UInt64}

/-- The test never hits an area that ends at `2 ^ 64`, and hits nothing when the range ends there:
both ends are 0 for the code. -/
theorem Area.covers_of_sound {a : Area} (hs : a.hi ≤ 2 ^ 64)
    (hw : addr.toNat + al.toNat ≤ 2 ^ 64) :
    a.covers addr al = true ↔ a.active = true ∧ addr.toNat < a.hi ∧
      a.lo < addr.toNat + al.toNat ∧ a.hi < 2 ^ 64 ∧ addr.toNat + al.toNat < 2 ^ 64 := by
  by_cases hS : addr.toNat + al.toNat = 2 ^ 64
  · have h0 : (addr + al).toNat = 0 := by
      rw [UInt64.toNat_add, hS, Nat.mod_self]
    refine ⟨fun hc => ?_, fun hc => by omega⟩
    unfold covers at hc
    simp only [Bool.and_eq_true, decide_eq_true_eq, gt_iff_lt, UInt64.lt_iff_toNat_lt, h0] at hc
    omega
  have hsum : (addr + al).toNat = addr.toNat + al.toNat := Word.toNat_add_lt (by omega)
  by_cases hE : a.hi = 2 ^ 64
  · have h0 : a.end.toNat = 0 := by
      have : a.start.toNat + a.length.toNat = 2 ^ 64 := hE
      unfold Area.end
      rw [UInt64.toNat_add, this, Nat.mod_self]
    refine ⟨fun hc => ?_, fun hc => by omega⟩
    unfold covers at hc
    simp only [Bool.and_eq_true, decide_eq_true_eq, UInt64.lt_iff_toNat_lt, h0] at hc
    omega
  · rw [Area.covers_iff (by omega), hsum]
    refine and_congr_right fun _ => and_congr_right fun _ => ⟨fun h => ?_, fun h => h.1⟩
    exact ⟨h, by omega, by omega⟩

/-- An area the test does not hit stays as it is. -/
theorem munmapLoop_untouched (e : ε) {i : Slot} (hact : (ctx.areas i).active = true)
    (hc : (ctx.areas i).covers addr al = false) (fuel : ℕ) :
    (munmapLoop S addr al fuel (ctx, e)).1.areas i = ctx.areas i := by
  refine munmapLoop_invariant addr al (P := fun x => x.1.areas i = ctx.areas i) ?_ fuel (ctx, e) rfl
  intro ctx' e idx hi hf
  have hne : i ≠ idx := by
    rintro rfl
    have := mmapFindCoveringArea_some hf
    rw [hi, hc] at this
    exact absurd this (by simp)
  dsimp only at hi ⊢
  rw [trimArea_of_ne hne (by rw [hi, hact]), hi]

section

variable (h : Separated ctx.areas (2 ^ 64)) (ha : addr.toNat % 4096 = 0)
  (hal : al.toNat % 4096 = 0) (hw : addr.toNat + al.toNat ≤ 2 ^ 64)
include h ha hal hw

theorem trimArea_separated {idx : Slot} (hc : (ctx.areas idx).covers addr al = true) :
    Separated (trimArea ctx idx addr al).areas (2 ^ 64) := by
  obtain ⟨hact, h1, h2, h3, h4⟩ :=
    (Area.covers_of_sound (h.sound idx (Area.covers_active hc)).below hw).mp hc
  have hsum : (addr + al).toNat = addr.toNat + al.toNat := Word.toNat_add_lt h4
  refine h.trimArea h3 hc ?_ fun _ => ⟨ha, by omega⟩
  rw [UInt64.le_iff_toNat_le]
  omega

theorem trimArea_view {idx : Slot} (hc : (ctx.areas idx).covers addr al = true)
    (hex : MunmapExact ctx.areas addr.toNat (addr.toNat + al.toNat)) {p : UInt64}
    (hp : p.toNat < addr.toNat ∨ addr.toNat + al.toNat ≤ p.toNat) :
    pageView (trimArea ctx idx addr al).areas p = pageView ctx.areas p := by
  obtain ⟨hact, h1, h2, h3, h4⟩ :=
    (Area.covers_of_sound (h.sound idx (Area.covers_active hc)).below hw).mp hc
  have hsum : (addr + al).toNat = addr.toNat + al.toNat := Word.toNat_add_lt h4
  have ht := trimArea_cases h3 hc
  rw [hsum] at ht
  exact ht.pageView_eq h (trimArea_separated h ha hal hw hc) hact h1 h2
    (fun hlo hhi => hex.head idx hact hlo h2 hhi) (hex.hole idx hact) hp

/-- Whatever the range still meets after a round was met before, so the rounds to come do not go
wrong either. -/
theorem trimArea_exact {idx : Slot} (hc : (ctx.areas idx).covers addr al = true)
    (hex : MunmapExact ctx.areas addr.toNat (addr.toNat + al.toNat)) :
    MunmapExact (trimArea ctx idx addr al).areas addr.toNat (addr.toNat + al.toNat) := by
  obtain ⟨hact, h1, h2, h3, h4⟩ :=
    (Area.covers_of_sound (h.sound idx (Area.covers_active hc)).below hw).mp hc
  have hsum : (addr + al).toNat = addr.toNat + al.toNat := Word.toNat_add_lt h4
  have ht := trimArea_cases h3 hc
  rw [hsum] at ht
  generalize trimArea ctx idx addr al = ctx' at ht ⊢
  have hold : ∀ j, (ctx'.areas j).active = true → addr.toNat < (ctx'.areas j).hi →
      (ctx'.areas j).lo < addr.toNat + al.toNat → j ≠ idx ∧ ctx'.areas j = ctx.areas j := by
    intro j hj hj1 hj2
    rcases ht.outside hj with hs | hs | hs
    · exact hs
    · omega
    · omega
  refine ⟨fun j hj hlo hlt hhi => ?_, fun j hj hlo hhi => ?_, fun j hj hlo hhi => ?_⟩
  · obtain ⟨-, hs⟩ := hold j hj (by omega) hlt
    rw [hs] at hj hlo hlt hhi ⊢
    exact hex.head j hj hlo hlt hhi
  · -- the treated area and one around the whole range would meet
    obtain ⟨hne, hs⟩ := hold j hj (by omega) (by omega)
    rw [hs] at hj hlo hhi
    rcases h.disjoint idx j (Ne.symm hne) hact hj with hd | hd <;> omega
  · obtain ⟨-, hs⟩ := hold j hj hlo hhi
    rw [hs] at hj hlo hhi ⊢
    exact hex.last j hj hlo hhi

theorem munmapLoop_separated (e : ε) (fuel : ℕ) :
    Separated (munmapLoop S addr al fuel (ctx, e)).1.areas (2 ^ 64) := by
  refine munmapLoop_invariant addr al (P := fun x => Separated x.1.areas (2 ^ 64)) ?_ fuel (ctx, e) h
  intro ctx e idx h hf
  exact trimArea_separated h ha hal hw (mmapFindCoveringArea_some hf)

/-- When no round goes wrong, the loop removes the pages of the range and nothing else. -/
theorem munmapLoop_removes (e : ε)
    (hex : MunmapExact ctx.areas addr.toNat (addr.toNat + al.toNat)) (p : UInt64) :
    pageView (munmapLoop S addr al 257 (ctx, e)).1.areas p =
      removePages (pageView ctx.areas) addr.toNat (addr.toNat + al.toNat) p := by
  obtain ⟨hsep, hexact, hview⟩ := munmapLoop_invariant (S := S) addr al
    (P := fun x => Separated x.1.areas (2 ^ 64) ∧
      MunmapExact x.1.areas addr.toNat (addr.toNat + al.toNat) ∧
      ∀ p : UInt64, p.toNat < addr.toNat ∨ addr.toNat + al.toNat ≤ p.toNat →
        pageView x.1.areas p = pageView ctx.areas p)
    (fun ctx' e idx ⟨h', hex', hv⟩ hf => by
      have hc := mmapFindCoveringArea_some hf
      exact ⟨trimArea_separated h' ha hal hw hc, trimArea_exact h' ha hal hw hc hex',
        fun p hp => (trimArea_view h' ha hal hw hc hex' hp).trans (hv p hp)⟩)
    257 (ctx, e) ⟨h, hex, fun _ _ => rfl⟩
  unfold removePages
  split_ifs with hp
  · rw [pageView_eq_none_iff]
    intro i
    by_contra hpage
    rw [Bool.not_eq_false, Area.hasPage_iff] at hpage
    obtain ⟨hact, hp1, hp2⟩ := hpage
    have hdone := munmapLoop_done (S := S) addr al (ctx, e) i
    rw [← Bool.not_eq_true, Area.covers_of_sound (hsep.sound i hact).below hw] at hdone
    obtain ⟨hl1, hl2⟩ := hexact.last i hact (by omega) (by omega)
    exact hdone ⟨hact, by omega, by omega, hl1, hl2⟩
  · exact hview p (by omega)

/-! ## The rounds that go wrong -/

/-- A page of an area that the test does not hit keeps its triple. -/
theorem last_of_removes (e : ε) (hpos : 0 < al.toNat)
    (hrem : ∀ p : UInt64, p.toNat % 4096 = 0 →
      pageView (munmapLoop S addr al 257 (ctx, e)).1.areas p =
        removePages (pageView ctx.areas) addr.toNat (addr.toNat + al.toNat) p)
    {i : Slot} (hact : (ctx.areas i).active = true) (hhi : addr.toNat < (ctx.areas i).hi)
    (hlo : (ctx.areas i).lo < addr.toNat + al.toNat) :
    (ctx.areas i).hi < 2 ^ 64 ∧ addr.toNat + al.toNat < 2 ^ 64 := by
  by_contra hcon
  have hs := h.sound i hact
  have hc : (ctx.areas i).covers addr al = false := by
    rw [← Bool.not_eq_true, Area.covers_of_sound hs.below hw]
    exact fun hc => hcon hc.2.2.2
  have hsame := munmapLoop_untouched (S := S) e hact hc 257
  -- the first page that is both in the area and in the range
  have hpage : ∃ p : UInt64, p.toNat % 4096 = 0 ∧ addr.toNat ≤ p.toNat ∧
      p.toNat < addr.toNat + al.toNat ∧ (ctx.areas i).hasPage p = true := by
    have hstart := hs.startAligned
    have hne := hs.nonempty
    have hlo' : (ctx.areas i).lo = (ctx.areas i).start.toNat := rfl
    by_cases hcase : addr.toNat ≤ (ctx.areas i).lo
    · refine ⟨(ctx.areas i).start, hs.startAligned, hcase, hlo, ?_⟩
      rw [Area.hasPage_iff]
      exact ⟨hact, by omega, by omega⟩
    · refine ⟨addr, ha, le_rfl, by omega, ?_⟩
      rw [Area.hasPage_iff]
      exact ⟨hact, by omega, hhi⟩
  obtain ⟨p, hp, hp1, hp2, hpi⟩ := hpage
  have hnone := hrem p hp
  unfold removePages at hnone
  rw [if_pos ⟨hp1, hp2⟩, pageView_eq_none_iff] at hnone
  have := hnone i
  rw [hsame, hpi] at this
  exact absurd this (by simp)

/-- The first page after the range, in an area that reaches beyond the range. -/
theorem hasPage_end {i : Slot} (hact : (ctx.areas i).active = true)
    (hlo : (ctx.areas i).lo < addr.toNat + al.toNat)
    (hhi : addr.toNat + al.toNat < (ctx.areas i).hi) :
    (addr + al).toNat = addr.toNat + al.toNat ∧ (ctx.areas i).hasPage (addr + al) = true := by
  have hb := (h.sound i hact).below
  have hsum : (addr + al).toNat = addr.toNat + al.toNat := Word.toNat_add_lt (by omega)
  refine ⟨hsum, ?_⟩
  rw [Area.hasPage_iff, hsum]
  exact ⟨hact, by omega, hhi⟩

/-- An area with offset 0 that loses its head maps the first page it keeps to offset 0. -/
theorem head_of_removes (e : ε) (hpos : 0 < al.toNat)
    (hrem : ∀ p : UInt64, p.toNat % 4096 = 0 →
      pageView (munmapLoop S addr al 257 (ctx, e)).1.areas p =
        removePages (pageView ctx.areas) addr.toNat (addr.toNat + al.toNat) p)
    {i : Slot} (hact : (ctx.areas i).active = true) (hlo : addr.toNat ≤ (ctx.areas i).lo)
    (hlt : (ctx.areas i).lo < addr.toNat + al.toNat)
    (hhi : addr.toNat + al.toNat < (ctx.areas i).hi) : (ctx.areas i).offset ≠ 0 := by
  intro hoff
  obtain ⟨hsum, hpage⟩ := hasPage_end h ha hal hw hact hlt hhi
  obtain ⟨hl1, hl2⟩ := last_of_removes h ha hal hw e hpos hrem hact (by omega) hlt
  have hc : (ctx.areas i).covers addr al = true :=
    (Area.covers_of_sound hl1.le hw).mpr ⟨hact, by omega, hlt, hl1, hl2⟩
  -- the area stays as it is until its round leaves the part after the range, with offset 0
  have htrack := munmapLoop_invariant (S := S) addr al
    (P := fun x => x.1.areas i = ctx.areas i ∨ ∃ b : Area, x.1.areas i = b ∧
      (ctx.areas i).Part b (addr + al).toNat (ctx.areas i).hi ∧ b.offset = 0)
    (fun ctx' e idx hP hf => by
      have hcov := mmapFindCoveringArea_some hf
      dsimp only at hP ⊢
      by_cases hidx : i = idx
      · subst hidx
        rcases hP with hP | ⟨b, hb, hpart, hbo⟩
        · have ht := trimArea_cases (by rw [hP]; exact hl1) hcov
          rw [← hP] at hlo hhi hoff ⊢
          generalize trimArea ctx' i addr al = ctx'' at ht ⊢
          cases ht with
          | head b _ _ hb ho =>
            refine Or.inr ⟨b, update_self .., hb, ?_⟩
            rw [ho, hoff]
            rfl
          | whole _ _ => omega
          | tail _ _ _ => omega
          | hole _ _ _ => omega
          | split _ _ _ _ _ => omega
        · have hcov' := hcov
          rw [hb, Area.covers_iff (by rw [hpart.hi_eq]; exact hl1), hpart.lo_eq] at hcov'
          omega
      · have hact' : (ctx'.areas i).active = true := by
          rcases hP with hP | ⟨b, hb, hpart, -⟩
          · rw [hP, hact]
          · rw [hb, hpart.active]
        rw [trimArea_of_ne hidx hact']
        exact hP)
    257 (ctx, e) (Or.inl rfl)
  have hdone := munmapLoop_done (S := S) addr al (ctx, e) i
  rcases htrack with hP | ⟨b, hb, hpart, hbo⟩
  · rw [hP, hc] at hdone
    exact absurd hdone (by simp)
  · have hsep := munmapLoop_separated (S := S) h ha hal hw e 257
    have hnew : pageView (munmapLoop S addr al 257 (ctx, e)).1.areas (addr + al) =
        some (b.info (addr + al)) := by
      rw [pageView_eq_some_iff hsep]
      refine ⟨i, ?_, by rw [hb]⟩
      rw [hb, hpart.hasPage_iff]
      omega
    have hold : pageView ctx.areas (addr + al) = some ((ctx.areas i).info (addr + al)) :=
      (pageView_eq_some_iff h).mpr ⟨i, hpage, rfl⟩
    have heq := hrem (addr + al) (by omega)
    unfold removePages at heq
    rw [if_neg (by omega), hnew, hold, Option.some_inj] at heq
    have hoffs : b.offset + ((addr + al) - b.start) =
        (ctx.areas i).offset + ((addr + al) - (ctx.areas i).start) := congrArg (·.fileOffset) heq
    have hbs : b.start = addr + al := UInt64.toNat_inj.mp hpart.lo_eq
    have hst : addr + al = (ctx.areas i).start := by
      rw [hbo, hoff, hbs] at hoffs
      grind
    have : (ctx.areas i).lo = (ctx.areas i).start.toNat := rfl
    rw [← hst] at this
    omega

/-- An area that is split while no slot is free loses the first page after the range. -/
theorem hole_of_removes (e : ε) (hpos : 0 < al.toNat)
    (hrem : ∀ p : UInt64, p.toNat % 4096 = 0 →
      pageView (munmapLoop S addr al 257 (ctx, e)).1.areas p =
        removePages (pageView ctx.areas) addr.toNat (addr.toNat + al.toNat) p)
    {i : Slot} (hact : (ctx.areas i).active = true) (hlo : (ctx.areas i).lo < addr.toNat)
    (hhi : addr.toNat + al.toNat < (ctx.areas i).hi) : ∃ j, (ctx.areas j).active = false := by
  by_contra hfull
  push Not at hfull
  obtain ⟨hsum, hpage⟩ := hasPage_end h ha hal hw hact (by omega) hhi
  obtain ⟨hl1, hl2⟩ := last_of_removes h ha hal hw e hpos hrem hact (by omega) (by omega)
  have hc : (ctx.areas i).covers addr al = true :=
    (Area.covers_of_sound hl1.le hw).mpr ⟨hact, by omega, by omega, hl1, hl2⟩
  have honly : ∀ j, (ctx.areas j).covers addr al = true → j = i := by
    intro j hj
    obtain ⟨hj1, hj2, hj3, -, -⟩ :=
      (Area.covers_of_sound (h.sound j (Area.covers_active hj)).below hw).mp hj
    by_contra hne
    rcases h.disjoint j i hne hj1 hact with hd | hd <;> omega
  -- the area is the only one the range meets, until its round leaves the part before the range
  have htrack := munmapLoop_invariant (S := S) addr al
    (P := fun x => x.1.areas = ctx.areas ∨
      ∀ j, (x.1.areas j).hasPage (addr + al) = false ∧ (x.1.areas j).covers addr al = false)
    (fun ctx' e idx hP hf => by
      have hcov := mmapFindCoveringArea_some hf
      dsimp only at hP ⊢
      rcases hP with hP | hP
      · right
        have hidx : idx = i := honly idx (by rw [← hP]; exact hcov)
        subst hidx
        refine fun j => ⟨?_, ?_⟩
        · have ht := trimArea_cases (by rw [hP]; exact hl1) hcov
          generalize trimArea ctx' idx addr al = ctx'' at ht ⊢
          cases ht with
          | hole b _ _ _ hb _ =>
            rw [hP] at hb
            dsimp only
            by_cases hj : j = idx
            · subst hj
              rw [update_self, ← Bool.not_eq_true, hb.hasPage_iff]
              omega
            · rw [update_of_ne hj, hP, ← Bool.not_eq_true]
              exact fun hjp => hj (h.hasPage_unique hjp hpage)
          | whole _ _ => rw [hP] at *; omega
          | head _ _ _ _ _ => rw [hP] at *; omega
          | tail _ _ _ _ _ => rw [hP] at *; omega
          | split _ _ slot _ _ hfree _ _ _ _ =>
            have := mmapAllocSlot_some hfree
            rw [hP] at this
            exact absurd this (hfull slot)
        · rw [← Bool.not_eq_true]
          intro hj
          obtain ⟨hne, hsame⟩ := trimArea_covers j hj
          rw [hsame, hP] at hj
          exact hne (honly j hj)
      · rw [(hP idx).2] at hcov
        exact absurd hcov (by simp))
    257 (ctx, e) (Or.inl rfl)
  have hdone := munmapLoop_done (S := S) addr al (ctx, e) i
  rcases htrack with hP | hP
  · rw [hP, hc] at hdone
    exact absurd hdone (by simp)
  · have hnone := pageView_eq_none_iff.mpr fun j => (hP j).1
    have hold : pageView ctx.areas (addr + al) = some ((ctx.areas i).info (addr + al)) :=
      (pageView_eq_some_iff h).mpr ⟨i, hpage, rfl⟩
    have heq := hrem (addr + al) (by omega)
    unfold removePages at heq
    rw [if_neg (by omega), hnone, hold] at heq
    exact absurd heq (by simp)

end

end Loop

/-- `mmap_do_munmap` removes the pages of an aligned range that does not wrap, and changes no other
page, exactly if no round goes wrong. -/
theorem munmap_removes_exactly_iff {ε : Type} (S : Services ε) (ctx : Context) (e : ε)
    (addr length : UInt64) (h : Separated ctx.areas (2 ^ 64)) (ha : addr.toNat % 4096 = 0)
    (hlen : length.toNat + 4095 < 2 ^ 64)
    (hw : addr.toNat + (pageAlignUp length).toNat ≤ 2 ^ 64) :
    (∀ p : UInt64, p.toNat % 4096 = 0 →
      pageView (mmapDoMunmap S ctx e addr length).2.1.areas p =
        removePages (pageView ctx.areas) addr.toNat
          (addr.toNat + (pageAlignUp length).toNat) p) ↔
    length = 0 ∨
      MunmapExact ctx.areas addr.toNat (addr.toNat + (pageAlignUp length).toNat) := by
  have hal := pageAlignUp_aligned length
  unfold mmapDoMunmap
  by_cases h0 : length = 0
  · subst h0
    have hz : (pageAlignUp 0).toNat = 0 := by decide
    simp only [if_true, true_or, iff_true, hz, Nat.add_zero]
    intro p _
    unfold removePages
    rw [if_neg (by omega)]
  rw [if_neg h0]
  have hpos : 0 < (pageAlignUp length).toNat := by
    have : length.toNat ≠ 0 := fun hc => h0 (UInt64.toNat_inj.mp hc)
    rw [pageAlignUp_toNat]
    omega
  constructor
  · intro hrem
    refine Or.inr ⟨fun i hact hlo hlt hhi => ?_, fun i hact hlo hhi => ?_, fun i hact hhi hlo => ?_⟩
    · exact head_of_removes h ha hal hw e hpos hrem hact hlo hlt hhi
    · exact hole_of_removes h ha hal hw e hpos hrem hact hlo hhi
    · exact last_of_removes h ha hal hw e hpos hrem hact hhi hlo
  · intro hex p _
    exact munmapLoop_removes h ha hal hw e (hex.resolve_left h0) p

/-- A private mapping of two pages of a file. -/
def twoPageArea (offset : UInt64) : Area :=
  ⟨0x400000, 0x2000, protRead, mapPrivate, offset, 1, 0, true⟩

def twoPages (offset : UInt64) : Context :=
  ⟨Function.update (fun _ => Area.zero) 0 (twoPageArea offset), 1⟩

theorem twoPages_separated (offset : UInt64) : Separated (twoPages offset).areas (2 ^ 64) := by
  refine (separated_empty _).update fun _ => ⟨?_, fun _ _ hk => absurd hk (by simp [Area.zero])⟩
  have h1 : (0x400000 : UInt64).toNat = 0x400000 := by decide
  have h2 : (0x2000 : UInt64).toNat = 0x2000 := by decide
  unfold twoPageArea
  constructor <;> simp only [Area.lo, Area.hi, h1, h2] <;> omega

theorem munmap_removes_exactly_iff_first_page :
    pageView (mmapDoMunmap noServices (twoPages 0x1000) () 0x400000 0x1000).2.1.areas 0x401000 =
      some ⟨protRead, mapPrivate, 0x2000⟩ := by
  refine ((munmap_removes_exactly_iff noServices (twoPages 0x1000) () 0x400000 0x1000
    (twoPages_separated _) (by decide) (by decide) (by decide)).mpr (Or.inr ⟨?_, ?_, ?_⟩)
    0x401000 (by decide)).trans (by decide +kernel)
  · decide +kernel
  · exact fun _ _ _ _ => ⟨1, rfl⟩
  · decide +kernel

/-- The first page of a mapping of a file from its start is unmapped: the second page then shows the
start of the file. -/
theorem munmap_head_keeps_offset :
    ¬ ∀ (S : Services Unit) (ctx : Context) (addr length : UInt64),
      Separated ctx.areas (2 ^ 64) → addr.toNat % 4096 = 0 → length.toNat % 4096 = 0 →
      addr.toNat + (pageAlignUp length).toNat ≤ 2 ^ 64 →
      ∀ p : UInt64, p.toNat % 4096 = 0 →
        pageView (mmapDoMunmap S ctx () addr length).2.1.areas p =
          removePages (pageView ctx.areas) addr.toNat
            (addr.toNat + (pageAlignUp length).toNat) p := by
  intro h
  have h := h noServices (twoPages 0) 0x400000 0x1000 (twoPages_separated 0) (by decide)
    (by decide) (by decide) 0x401000 (by decide)
  revert h
  decide +kernel

end Mmap
