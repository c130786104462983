import Kenux.Mmap.Proofs.Invariant

/-!
# The search for a free area

The candidate moves down to the start of some area in the way, not of the highest one. No free range is
missed, since each one above the new candidate meets that area. The bound `MMAP_MIN_ADDR + aligned_len`
wraps around for the largest lengths, and then the search returns addresses above its own start.
-/

namespace Mmap

variable {ctx : Context} {al length : UInt64}

/-! ## What the search is for -/

/-- A page-aligned range of `n` bytes in the window of the search that no area meets. -/
structure FreeRange (ctx : Context) (r n : ℕ) : Prop where
  aligned : r % 4096 = 0
  nonempty : 0 < n
  above : mmapMinAddr.toNat ≤ r
  below : r + n ≤ mmapSearchStart.toNat
  free : FreeAt ctx r n

/-- The result is a free range, or 0 if there is none. -/
def FindsFree (ctx : Context) (length : UInt64) : Prop :=
  if mmapFindFreeArea ctx length = 0 then ∀ r, ¬ FreeRange ctx r (pagesLength length)
  else FreeRange ctx (mmapFindFreeArea ctx length).toNat (pagesLength length)

/-- `MMAP_MIN_ADDR + aligned_len` does not wrap. -/
def Fits (length : UInt64) : Prop := mmapMinAddr.toNat + pagesLength length < 2 ^ 64

/-- One area begins before the wrapped bound and reaches over the whole window, so that the search ends
nevertheless. -/
def Stopped (ctx : Context) (length : UInt64) : Prop :=
  ∃ i, (ctx.areas i).active = true ∧
    (ctx.areas i).lo + 2 ^ 64 < mmapMinAddr.toNat + pagesLength length ∧
    mmapSearchStart.toNat + 2 ^ 64 < (ctx.areas i).hi + pagesLength length

/-! ## Rounds of the search -/

theorem mmapMinAddr_toNat : mmapMinAddr.toNat = 0x10000000 := rfl

theorem mmapSearchStart_toNat : mmapSearchStart.toNat = 0x7F0000000000 := rfl

theorem Separated.hi_lt (h : Separated ctx.areas lastEnd) {i : Slot}
    (hi : (ctx.areas i).active = true) : (ctx.areas i).hi < 2 ^ 64 :=
  lt_of_le_of_lt (h.sound i hi).below (by decide)

/-- The area in the way, for addresses that do not wrap. -/
theorem Separated.conflict (h : Separated ctx.areas lastEnd) {c : UInt64} {i : Slot}
    (hi : findConflict ctx (c - al) al = some i) :
    (ctx.areas i).active = true ∧ (c - al).toNat < (ctx.areas i).hi ∧ (ctx.areas i).lo < c.toNat := by
  obtain ⟨hact, hend, hstart⟩ := findConflict_some hi
  rw [UInt64.lt_iff_toNat_lt, Area.end_toNat (h.hi_lt hact)] at hend
  exact ⟨hact, hend, UInt64.lt_iff_toNat_lt.mp hstart⟩

/-- With no area in the way, each active one lies on one side. -/
theorem Separated.no_conflict (h : Separated ctx.areas lastEnd) {c : UInt64}
    (hnone : findConflict ctx (c - al) al = none) {i : Slot} (hact : (ctx.areas i).active = true) :
    (ctx.areas i).hi ≤ (c - al).toNat ∨ c.toNat ≤ (ctx.areas i).lo := by
  have hn := firstSlot_none hnone i
  rw [hact, UInt64.sub_add_cancel] at hn
  simp only [Bool.true_and, Bool.and_eq_false_iff, decide_eq_false_iff_not, gt_iff_lt,
    UInt64.lt_iff_toNat_lt, Area.end_toNat (h.hi_lt hact), Nat.not_lt] at hn
  exact hn

/-- The candidates of a search that does not wrap: above each of them nothing is free, and what is
returned is free. -/
theorem findFreeLoop_finds (h : Separated ctx.areas lastEnd) (hal : al.toNat % 4096 = 0)
    (hpos : 0 < al.toNat) (hfit : mmapMinAddr.toNat + al.toNat < 2 ^ 64) (c : UInt64)
    (hc : c.toNat % 4096 = 0) (hle : c.toNat ≤ mmapSearchStart.toNat)
    (habove : ∀ r, FreeRange ctx r al.toNat → r + al.toNat ≤ c.toNat) :
    if findFreeLoop ctx al c = 0 then ∀ r, ¬ FreeRange ctx r al.toNat
    else FreeRange ctx (findFreeLoop ctx al c).toNat al.toNat := by
  have hmin := mmapMinAddr_toNat
  have hguard : ∀ d : UInt64, d ≥ mmapMinAddr + al ↔ mmapMinAddr.toNat + al.toNat ≤ d.toNat := by
    intro d
    rw [ge_iff_le, UInt64.le_iff_toNat_le, UInt64.toNat_add, Nat.mod_eq_of_lt hfit]
  induction c using findFreeLoop.induct ctx al with
  | case1 c hge hnone =>
    rw [findFreeLoop_found hge hnone]
    have hge' := (hguard c).mp hge
    have hsub : (c - al).toNat = c.toNat - al.toNat :=
      UInt64.toNat_sub_of_le _ _ (UInt64.le_iff_toNat_le.mpr (by omega))
    have hne : c - al ≠ 0 := by
      intro hz
      rw [hz] at hsub
      simp only [UInt64.toNat_zero] at hsub
      omega
    rw [if_neg hne, hsub]
    refine ⟨by omega, hpos, by omega, by omega, fun i hact => ?_⟩
    have hside := h.no_conflict hnone hact
    rw [hsub] at hside
    omega
  | case2 c hge i hi ih =>
    rw [findFreeLoop_retry hge hi]
    obtain ⟨hact, hend, hstart⟩ := h.conflict hi
    have hge' := (hguard c).mp hge
    have hsub : (c - al).toNat = c.toNat - al.toNat :=
      UInt64.toNat_sub_of_le _ _ (UInt64.le_iff_toNat_le.mpr (by omega))
    have hlo : (ctx.areas i).start.toNat = (ctx.areas i).lo := rfl
    rw [hsub] at hend
    refine ih (h.sound i hact).startAligned (by omega) fun r hr => ?_
    -- a range that ends above the start of this area would lie beyond its end
    have hr' := habove r hr
    have hside := hr.free i hact
    omega
  | case3 c hge =>
    rw [findFreeLoop_end hge, if_pos rfl]
    intro r hr
    have hr' := habove r hr
    have hlow := hr.above
    exact hge ((hguard c).mpr (by omega))

/-! ## Lengths that wrap -/

/-- For a length of `2 ^ 64 - e` bytes the search returns addresses `e` bytes above its candidates, unless an
area reaches from below the wrapped bound over its whole window. -/
theorem findFreeLoop_wraps (h : Separated ctx.areas lastEnd) {e : ℕ} (he : e ≤ mmapMinAddr.toNat)
    (hal : al.toNat = (2 ^ 64 - e) % 2 ^ 64) : findFreeLoop ctx al mmapSearchStart = 0 ↔
      ∃ i, (ctx.areas i).active = true ∧ (ctx.areas i).lo + e < mmapMinAddr.toNat ∧
        mmapSearchStart.toNat + e < (ctx.areas i).hi := by
  have hmin := mmapMinAddr_toNat
  have hstart := mmapSearchStart_toNat
  have hguard : ∀ d : UInt64, d ≥ mmapMinAddr + al ↔ mmapMinAddr.toNat - e ≤ d.toNat := by
    intro d
    rw [ge_iff_le, UInt64.le_iff_toNat_le, UInt64.toNat_add]
    omega
  have hsub : ∀ d : UInt64, d.toNat ≤ mmapSearchStart.toNat → (d - al).toNat = d.toNat + e := by
    intro d hd
    rw [UInt64.toNat_sub]
    omega
  have hpos : ∀ d : UInt64, d.toNat ≤ mmapSearchStart.toNat → mmapMinAddr.toNat - e ≤ d.toNat →
      d - al ≠ 0 := by
    intro d hd hd' hz
    have hval := hsub d hd
    rw [hz] at hval
    simp only [UInt64.toNat_zero] at hval
    omega
  have hge : mmapSearchStart ≥ mmapMinAddr + al := (hguard _).mpr (by omega)
  cases hfirst : findConflict ctx (mmapSearchStart - al) al with
  | none =>
    rw [findFreeLoop_found hge hfirst]
    refine iff_of_false (hpos _ le_rfl (by omega)) ?_
    rintro ⟨i, hact, hlo, hhi⟩
    have hside := h.no_conflict hfirst hact
    rw [hsub _ le_rfl] at hside
    omega
  | some i =>
    obtain ⟨hact, hend, hbefore⟩ := h.conflict hfirst
    have hlo : (ctx.areas i).start.toNat = (ctx.areas i).lo := rfl
    rw [hsub _ le_rfl] at hend
    rw [findFreeLoop_retry hge hfirst]
    by_cases hgo : mmapMinAddr.toNat - e ≤ (ctx.areas i).lo
    · -- no other area begins before this one and ends behind its start
      have hnone : findConflict ctx ((ctx.areas i).start - al) al = none := by
        cases hsecond : findConflict ctx ((ctx.areas i).start - al) al with
        | none => rfl
        | some j =>
          obtain ⟨hact', hend', hbefore'⟩ := h.conflict hsecond
          rw [hsub _ (by omega)] at hend'
          have hij : i ≠ j := by
            rintro rfl
            omega
          rcases h.disjoint i j hij hact hact' with hd | hd <;> omega
      rw [findFreeLoop_found ((hguard _).mpr hgo) hnone]
      refine iff_of_false (hpos _ (by omega) hgo) ?_
      rintro ⟨j, hact', hlo', hhi'⟩
      have hij : i ≠ j := by
        rintro rfl
        omega
      rcases h.disjoint i j hij hact hact' with hd | hd <;> omega
    · rw [findFreeLoop_end fun hc => hgo ((hguard _).mp hc)]
      exact iff_of_true rfl ⟨i, hact, by omega, hend⟩

/-! ## The whole search -/

theorem mmapFindFreeArea_of_ne (h0 : length ≠ 0) :
    mmapFindFreeArea ctx length = findFreeLoop ctx (pageAlignUp length) mmapSearchStart := by
  unfold mmapFindFreeArea
  rw [if_neg h0]

/-- No range is as long as a length that wraps. -/
theorem Fits.of_freeRange {r : ℕ} (hr : FreeRange ctx r (pagesLength length)) : Fits length := by
  have hlow := hr.above
  have hhigh := hr.below
  have hstart := mmapSearchStart_toNat
  unfold Fits
  omega

theorem findsFree_of_fits (h : Separated ctx.areas lastEnd) (h0 : length ≠ 0) (hfit : Fits length) :
    FindsFree ctx length := by
  have hal : (pageAlignUp length).toNat = pagesLength length := by
    have hmin := mmapMinAddr_toNat
    unfold Fits at hfit
    rw [pageAlignUp_pagesLength]
    exact Nat.mod_eq_of_lt (by omega)
  unfold FindsFree
  unfold Fits at hfit
  rw [mmapFindFreeArea_of_ne h0]
  rw [← hal] at hfit ⊢
  have hpos : 0 < (pageAlignUp length).toNat := hal ▸ pagesLength_pos h0
  exact findFreeLoop_finds h (pageAlignUp_aligned length) hpos hfit mmapSearchStart (by decide) le_rfl
    fun r hr => hr.below

theorem findsFree_zero : FindsFree ctx 0 := by
  unfold FindsFree mmapFindFreeArea
  rw [if_pos rfl, if_pos rfl]
  intro r hr
  exact absurd hr.nonempty (by decide)

/-- `mmap_find_free_area` returns a free range, or 0 only if there is none, exactly for the lengths whose bound
does not wrap, and for others only if an area stops the search. -/
theorem mmapFindFreeArea_iff (h : Separated ctx.areas lastEnd) :
    FindsFree ctx length ↔ Fits length ∨ Stopped ctx length := by
  by_cases h0 : length = 0
  · subst h0
    refine iff_of_true findsFree_zero (Or.inl ?_)
    unfold Fits
    decide
  by_cases hfit : Fits length
  · exact iff_of_true (findsFree_of_fits h h0 hfit) (Or.inl hfit)
  have hle := pagesLength_le length
  have hmin := mmapMinAddr_toNat
  have hge : 2 ^ 64 ≤ mmapMinAddr.toNat + pagesLength length := Nat.not_lt.mp hfit
  have hal : (pageAlignUp length).toNat = (2 ^ 64 - (2 ^ 64 - pagesLength length)) % 2 ^ 64 := by
    rw [pageAlignUp_pagesLength]
    congr 1
    omega
  have hwraps := findFreeLoop_wraps h (by omega) hal
  have hzero : FindsFree ctx length ↔ mmapFindFreeArea ctx length = 0 := by
    unfold FindsFree
    by_cases hz : mmapFindFreeArea ctx length = 0
    · rw [if_pos hz]
      exact iff_of_true (fun r hr => hfit (Fits.of_freeRange hr)) hz
    · rw [if_neg hz]
      exact iff_of_false (fun hr => hfit (Fits.of_freeRange hr)) hz
  rw [hzero, mmapFindFreeArea_of_ne h0, hwraps, or_iff_right hfit]
  refine exists_congr fun i => and_congr_right fun _ => ?_
  omega

/-- An area of one page in the last page of the window but one. -/
def oneArea : Context :=
  { areas := fun i => if i = 0 then ⟨0x7EFFFFFFE000, 0x1000, 0, 0, 0, 1, 0, true⟩ else Area.zero
    areaCount := 1 }

theorem oneArea_separated : Separated oneArea.areas lastEnd := by
  have hzero : ∀ i, (oneArea.areas i).active = true → i = 0 := by
    intro i hi
    by_contra hne
    have hz : oneArea.areas i = Area.zero := if_neg hne
    rw [hz] at hi
    cases hi
  refine ⟨fun i hi => ?_, fun i j hij hi hj => absurd ((hzero i hi).trans (hzero j hj).symm) hij⟩
  obtain rfl := hzero i hi
  exact ⟨by decide, by decide, by decide, by decide⟩

theorem oneArea_finds : FindsFree oneArea 5000 :=
  (mmapFindFreeArea_iff oneArea_separated).mpr (Or.inl (by unfold Fits; decide))

/-- Nothing of `2 ^ 64 - 4096` bytes is free, but the search returns a page above its start. -/
theorem findsFree_wrapped : ¬ ∀ (ctx : Context) (length : UInt64), Separated ctx.areas lastEnd →
    FindsFree ctx length := by
  intro h
  have hsep : Separated mmapContextInit.areas lastEnd := separated_empty lastEnd
  have hfind := h mmapContextInit 0xFFFFFFFFFFFFF000 hsep
  have hne : mmapFindFreeArea mmapContextInit 0xFFFFFFFFFFFFF000 ≠ 0 := by
    rw [mmapFindFreeArea_of_ne (by decide)]
    intro hz
    obtain ⟨i, hact, -, -⟩ := (findFreeLoop_wraps hsep (e := 4096) (by decide) (by decide)).mp hz
    cases hact
  unfold FindsFree at hfind
  rw [if_neg hne] at hfind
  have hfit := Fits.of_freeRange hfind
  unfold Fits at hfit
  exact absurd hfit (by decide)

end Mmap
