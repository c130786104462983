import Kenux.Mmap.Proofs.Trim

/-!
# The areas over whole runs

`mmap_do_munmap` does not look at the alignment of `addr` and neither function looks at wrap-around.
Over every run whose calls stay clear of both, the areas stay well formed, also after the calls that
fail.
-/

namespace Mmap

open Run

/-- The largest end of an area that keeps `start + length` from wrapping to 0. -/
abbrev lastEnd : ℕ := 2 ^ 64 - 1

theorem WellFormed.hi_lt {ctx : Context} {i : Slot} (h : WellFormed ctx lastEnd)
    (hi : (ctx.areas i).active = true) : (ctx.areas i).hi < 2 ^ 64 :=
  lt_of_le_of_lt (h.sound i hi).below (by decide)

/-! ## Conditions on the calls -/

/-- The range of a call to `mmap_do_munmap` does not wrap where it meets an area, and does not cut an
area at an unaligned address. -/
def RangeOk (ctx : Context) (addr al : UInt64) : Prop :=
  ∀ i, (ctx.areas i).covers addr al = true →
    addr ≤ addr + al ∧
      (addr.toNat % 4096 = 0 ∨ addr ≤ (ctx.areas i).start ∧ (ctx.areas i).end ≤ addr + al)

inductive MmapOp where
  | mmap (addr length : UInt64) (prot flags : UInt32) (offset : UInt64)
  | munmap (addr length : UInt64)
  | mprotect (addr len : UInt64) (prot : UInt32)

/-- The condition under which a call keeps the areas well formed: a mapping asked for at an address
is refused, ends below `2 ^ 64` or goes elsewhere because the address is taken; an unmapping meets
`RangeOk`. -/
def MmapOk {ε : Type} (x : Context × ε) : MmapOp → Prop
  | .mmap addr length prot flags offset =>
      mmapRefused addr length prot flags offset = true ∨ addr = 0 ∨
        addr.toNat + (pageAlignUp length).toNat < 2 ^ 64 ∨
        has flags mapFixed = false ∧ mmapCheckOverlap x.1 addr (pageAlignUp length) = true
  | .munmap addr length => length = 0 ∨ RangeOk x.1 addr (pageAlignUp length)
  | .mprotect _ _ _ => True

def mmapStep {ε : Type} (S : Services ε) (x : Context × ε) : MmapOp → Option (Context × ε)
  | .mmap addr length prot flags offset =>
      some (mmapDoMmap S x.1 x.2 addr length prot flags offset).2
  | .munmap addr length => some (mmapDoMunmap S x.1 x.2 addr length).2
  | .mprotect addr len prot => some (mmapDoMprotect S x.1 x.2 addr len prot).2

/-! ## `mmap_do_munmap` -/

section Munmap

variable {ctx : Context} {idx : Slot} {addr al : UInt64}

theorem WellFormed.trimArea (h : WellFormed ctx lastEnd) (hr : RangeOk ctx addr al)
    (hal : al.toNat % 4096 = 0) (hc : (ctx.areas idx).covers addr al = true) :
    WellFormed (trimArea ctx idx addr al) lastEnd := by
  have hact := Area.covers_active hc
  have hhi : (ctx.areas idx).hi < 2 ^ 64 := h.hi_lt hact
  obtain ⟨hw, hal'⟩ := hr idx hc
  have hsum := noWrap_toNat hw
  have hend := Area.end_toNat hhi
  refine ⟨h.toSeparated.trimArea hhi hc hw fun hcut => ?_, trimArea_count hhi hc h.count⟩
  have ha : addr.toNat % 4096 = 0 := by
    rcases hal' with ha | ⟨ha, hb⟩
    · exact ha
    · rw [UInt64.le_iff_toNat_le] at ha hb
      rw [hend] at hb
      have hlo : (ctx.areas idx).lo = (ctx.areas idx).start.toNat := rfl
      omega
  exact ⟨ha, by omega⟩

variable {ε : Type} {S : Services ε}

theorem WellFormed.munmapLoop (h : WellFormed ctx lastEnd) (hr : RangeOk ctx addr al)
    (hal : al.toNat % 4096 = 0) (e : ε) (fuel : ℕ) :
    WellFormed (munmapLoop S addr al fuel (ctx, e)).1 lastEnd := by
  refine (munmapLoop_invariant addr al (P := fun x => WellFormed x.1 lastEnd ∧ RangeOk x.1 addr al)
    ?_ fuel (ctx, e) ⟨h, hr⟩).1
  rintro ctx e idx ⟨hw, hr⟩ hf
  refine ⟨hw.trimArea hr hal (mmapFindCoveringArea_some hf), fun j hj => ?_⟩
  have hj' := (trimArea_covers j hj).2
  dsimp only at hj ⊢
  rw [hj'] at hj ⊢
  exact hr j hj

theorem WellFormed.mmapDoMunmap (h : WellFormed ctx lastEnd) {length : UInt64}
    (hr : length = 0 ∨ RangeOk ctx addr (pageAlignUp length)) (e : ε) :
    WellFormed (mmapDoMunmap S ctx e addr length).2.1 lastEnd := by
  unfold Mmap.mmapDoMunmap
  split_ifs with h0
  · exact h
  · exact h.munmapLoop (hr.resolve_left h0) (pageAlignUp_aligned _) e 257

end Munmap

/-! ## Where a mapping goes -/

/-- The interval `[addr, addr + al)` meets no active area. -/
def FreeAt (ctx : Context) (addr al : ℕ) : Prop :=
  ∀ i, (ctx.areas i).active = true → addr + al ≤ (ctx.areas i).lo ∨ (ctx.areas i).hi ≤ addr

section Place

variable {ctx : Context} {addr al : UInt64}

theorem freeAt_of_not_covers (h : WellFormed ctx lastEnd) (hw : addr.toNat + al.toNat < 2 ^ 64)
    (hc : ∀ i, (ctx.areas i).covers addr al = false) : FreeAt ctx addr.toNat al.toNat := by
  intro i hi
  have hhi : (ctx.areas i).hi < 2 ^ 64 := h.hi_lt hi
  have hn := hc i
  rw [← Bool.not_eq_true, Area.covers_iff hhi, Word.toNat_add_lt hw] at hn
  by_contra hcon
  push Not at hcon
  exact hn ⟨hi, by omega, by omega⟩

/-- The round that finds no area in the way. -/
theorem findFreeLoop_found {c : UInt64} (hge : c ≥ mmapMinAddr + al)
    (hnone : findConflict ctx (c - al) al = none) : findFreeLoop ctx al c = c - al := by
  rw [findFreeLoop, if_pos hge]
  split
  · rfl
  · rename_i i hi
    rw [hnone] at hi
    exact absurd hi (by simp)

/-- A round that goes on below the area in the way. -/
theorem findFreeLoop_retry {c : UInt64} {i : Slot} (hge : c ≥ mmapMinAddr + al)
    (hi : findConflict ctx (c - al) al = some i) :
    findFreeLoop ctx al c = findFreeLoop ctx al (ctx.areas i).start := by
  conv_lhs => rw [findFreeLoop, if_pos hge]
  split
  · rename_i hnone
    rw [hnone] at hi
    exact absurd hi (by simp)
  · rename_i j hj
    rw [hj] at hi
    rw [Option.some.inj hi]

theorem findFreeLoop_end {c : UInt64} (hge : ¬ c ≥ mmapMinAddr + al) : findFreeLoop ctx al c = 0 := by
  rw [findFreeLoop, if_neg hge]

/-- What is known of the area in the way. -/
theorem findConflict_some {c : UInt64} {i : Slot} (hi : findConflict ctx (c - al) al = some i) :
    (ctx.areas i).active = true ∧ c - al < (ctx.areas i).end ∧ (ctx.areas i).start < c := by
  have hcov := firstSlot_some hi
  simp only [Bool.and_eq_true, decide_eq_true_eq] at hcov
  obtain ⟨⟨hact, hend⟩, hstart⟩ := hcov
  rw [UInt64.sub_add_cancel] at hstart
  exact ⟨hact, hend, hstart⟩

/-- A place found by the search is aligned, below the start of the search, and free. -/
theorem findFreeLoop_spec (h : WellFormed ctx lastEnd) (hal : al.toNat % 4096 = 0)
    (hal' : al.toNat ≤ 2 ^ 40) (c : UInt64) (hc : c.toNat % 4096 = 0)
    (hc' : c.toNat ≤ mmapSearchStart.toNat) (hne : findFreeLoop ctx al c ≠ 0) :
    (findFreeLoop ctx al c).toNat % 4096 = 0 ∧
      (findFreeLoop ctx al c).toNat + al.toNat ≤ mmapSearchStart.toNat ∧
      FreeAt ctx (findFreeLoop ctx al c).toNat al.toNat := by
  have hmin : mmapMinAddr.toNat = 0x10000000 := by decide
  have hstart : mmapSearchStart.toNat = 0x7F0000000000 := by decide
  induction c using findFreeLoop.induct ctx al with
  | case1 c hge hnone =>
    rw [findFreeLoop_found hge hnone]
    have hge' : al.toNat ≤ c.toNat := by
      rw [ge_iff_le, UInt64.le_iff_toNat_le, UInt64.toNat_add] at hge
      omega
    have hsub : (c - al).toNat = c.toNat - al.toNat :=
      UInt64.toNat_sub_of_le _ _ (UInt64.le_iff_toNat_le.mpr hge')
    rw [hsub]
    refine ⟨by omega, by omega, ?_⟩
    have := @freeAt_of_not_covers _ (c - al) al h (by omega) fun i =>
      firstSlot_none hnone i
    rwa [hsub] at this
  | case2 c hge i hi ih =>
    obtain ⟨hact, -, hlt⟩ := findConflict_some hi
    rw [UInt64.lt_iff_toNat_lt] at hlt
    have hal := (h.sound i hact).startAligned
    rw [findFreeLoop_retry hge hi] at hne ⊢
    exact ih hal (by omega) hne
  | case3 c hge =>
    rw [findFreeLoop_end hge] at hne
    exact absurd rfl hne

variable {ε : Type} {S : Services ε}

/-- The place chosen for a mapping is free in the context that is left. -/
theorem mmapPlace_spec (h : WellFormed ctx lastEnd) (hal : al.toNat % 4096 = 0)
    (hal0 : 0 < al.toNat) (hal' : al.toNat ≤ 2 ^ 40) (haddr : addr.toNat % 4096 = 0)
    (e : ε) (flags : UInt32) (hw : addr = 0 ∨ addr.toNat + al.toNat < 2 ^ 64 ∨
      has flags mapFixed = false ∧ mmapCheckOverlap ctx addr al = true) :
    WellFormed (mmapPlace S ctx e addr al flags).2.1 lastEnd ∧
      ∀ a, (mmapPlace S ctx e addr al flags).1 = some a →
        a.toNat % 4096 = 0 ∧ a.toNat + al.toNat < 2 ^ 64 ∧
        FreeAt (mmapPlace S ctx e addr al flags).2.1 a.toNat al.toNat := by
  have halign : pageAlignUp al = al := by
    apply UInt64.toNat_inj.mp
    rw [pageAlignUp_toNat]
    omega
  have hfound : ∀ a, (if mmapFindFreeArea ctx al = 0 then none else some (mmapFindFreeArea ctx al)) =
      some a → a.toNat % 4096 = 0 ∧ a.toNat + al.toNat < 2 ^ 64 ∧ FreeAt ctx a.toNat al.toNat := by
    intro a ha
    split_ifs at ha with h0
    obtain rfl := Option.some.inj ha
    have hne0 : al ≠ 0 := by
      rintro rfl
      exact absurd hal0 (by simp)
    have hdef : mmapFindFreeArea ctx al = findFreeLoop ctx al mmapSearchStart := by
      unfold mmapFindFreeArea
      rw [if_neg hne0, halign]
    rw [hdef] at h0 ⊢
    obtain ⟨s1, s2, s3⟩ := findFreeLoop_spec h hal hal' mmapSearchStart (by decide) le_rfl h0
    exact ⟨s1, lt_of_le_of_lt s2 (by decide), s3⟩
  unfold mmapPlace
  by_cases h0 : addr = 0
  · subst h0
    exact ⟨h, hfound⟩
  have hw := hw.resolve_left h0
  by_cases hfix : has flags mapFixed = true
  · have hw' : addr.toNat + al.toNat < 2 ^ 64 := hw.resolve_right fun h => by simp [hfix] at h
    simp only [ne_eq, h0, not_false_eq_true, if_true, hfix]
    have hr : RangeOk ctx addr (pageAlignUp al) := by
      intro i _
      rw [halign]
      refine ⟨?_, Or.inl haddr⟩
      rw [UInt64.le_iff_toNat_le, Word.toNat_add_lt hw']
      omega
    have hwf := h.mmapDoMunmap (S := S) (Or.inr hr) e
    refine ⟨hwf, fun a ha => ?_⟩
    obtain rfl := Option.some.inj ha
    refine ⟨haddr, hw', freeAt_of_not_covers hwf hw' fun i => ?_⟩
    unfold mmapDoMunmap
    rw [if_neg (by rintro rfl; exact absurd hal0 (by simp)), halign]
    exact munmapLoop_done addr al (ctx, e) i
  · simp only [ne_eq, h0, not_false_eq_true, if_true, hfix]
    by_cases hov : mmapCheckOverlap ctx addr al = true
    · simp only [hov, if_true]
      exact ⟨h, hfound⟩
    · simp only [hov]
      have hw' : addr.toNat + al.toNat < 2 ^ 64 := hw.resolve_right fun h => hov h.2
      refine ⟨h, fun a ha => ?_⟩
      obtain rfl := Option.some.inj ha
      refine ⟨haddr, hw', freeAt_of_not_covers h hw' fun i => ?_⟩
      by_contra hc
      exact hov (firstSlot_isSome.mpr ⟨i, by simpa using hc⟩)

end Place

/-! ## The three calls -/

section Calls

variable {ε : Type} {S : Services ε} {ctx : Context}

theorem WellFormed.addFlags (h : WellFormed ctx lastEnd) {i : Slot}
    (hi : (ctx.areas i).active = true) (f : UInt32) : WellFormed (addFlags ctx i f) lastEnd :=
  h.relabel hi hi rfl rfl

theorem WellFormed.dropSlot (h : WellFormed ctx lastEnd) {i : Slot}
    (hi : (ctx.areas i).active = true) : WellFormed (dropSlot ctx i) lastEnd :=
  h.drop hi rfl

/-- What a request that is not refused says about its arguments. -/
theorem mmapRefused_eq_false {addr length : UInt64} {prot flags : UInt32} {offset : UInt64}
    (h : ¬ mmapRefused addr length prot flags offset = true) :
    0 < length.toNat ∧ length.toNat ≤ 2 ^ 40 ∧ addr.toNat % 4096 = 0 := by
  unfold mmapRefused at h
  simp only [Bool.or_eq_true, decide_eq_true_eq, not_or, Bool.and_eq_true, not_and] at h
  obtain ⟨⟨⟨⟨⟨h1, h2⟩, -⟩, -⟩, -⟩, h6⟩ := h
  have hlen : length.toNat ≠ 0 := fun hc => h1 (UInt64.toNat_inj.mp hc)
  rw [gt_iff_lt, UInt64.lt_iff_toNat_lt] at h2
  have hc : (0x10000000000 : UInt64).toNat = 2 ^ 40 := by decide
  refine ⟨by omega, by omega, ?_⟩
  by_cases h0 : addr = 0
  · subst h0
    rfl
  · have h6' := h6 h0
    rw [not_not] at h6'
    rw [← pageMask_toNat, h6']
    rfl

theorem WellFormed.mmapDoMmap (h : WellFormed ctx lastEnd) {addr length : UInt64}
    {prot flags : UInt32} {offset : UInt64} (e : ε)
    (hok : MmapOk (ctx, e) (.mmap addr length prot flags offset)) :
    WellFormed (mmapDoMmap S ctx e addr length prot flags offset).2.1 lastEnd := by
  unfold Mmap.mmapDoMmap
  by_cases hr : mmapRefused addr length prot flags offset = true
  · rw [if_pos hr]
    exact h
  rw [if_neg hr]
  obtain ⟨hl0, hl1, ha⟩ := mmapRefused_eq_false hr
  have hal := pageAlignUp_aligned length
  have hlen := pageAlignUp_toNat length
  have hplace := mmapPlace_spec (S := S) h hal (by omega) (by omega) ha e flags
    (hok.resolve_left hr)
  dsimp only
  generalize mmapPlace S ctx e addr (pageAlignUp length) flags = pl at hplace ⊢
  obtain ⟨place, ctx₁, e₁⟩ := pl
  obtain ⟨hwf, hfree⟩ := hplace
  cases place with
  | none => exact hwf
  | some a =>
    obtain ⟨ha1, ha2, hfr⟩ := hfree a rfl
    dsimp only
    cases hslot : mmapAllocSlot ctx₁ with
    | none => exact hwf
    | some slot =>
      dsimp only
      generalize harea : Area.mk a (pageAlignUp length) prot flags offset 1 0 true = area
      have hlo : area.lo = a.toNat := by rw [← harea]; rfl
      have hhi : area.hi = a.toNat + (pageAlignUp length).toNat := by rw [← harea]; rfl
      have hact : area.active = true := by rw [← harea]
      have hnew := hwf.add (b := area) (mmapAllocSlot_some hslot) hact
        ⟨by omega, by omega, by omega, by unfold lastEnd; omega⟩ fun k hk => by
          rcases hfr k hk with hd | hd
          · exact Or.inl (by omega)
          · exact Or.inr (by omega)
      have hself : ((Function.update ctx₁.areas slot area) slot).active = true := by
        rw [Function.update_self, hact]
      split_ifs
      · split
        · exact hnew.addFlags hself _
        · exact hnew.dropSlot hself
      · exact hnew.addFlags hself _
      · split
        · exact hnew.addFlags hself _
        · exact hnew.dropSlot hself
      · exact hnew

theorem WellFormed.mprotectSlot {x : Bool × Context × ε} (h : WellFormed x.2.1 lastEnd)
    (addr al : UInt64) (prot : UInt32) (i : Slot) :
    WellFormed (mprotectSlot S addr al prot x i).2.1 lastEnd := by
  obtain ⟨m, ctx, e⟩ := x
  unfold Mmap.mprotectSlot
  dsimp only
  split_ifs with h1 h2
  · exact h
  · exact h
  · exact h.relabel (by simpa using h1) (by simpa using h1) rfl rfl

theorem WellFormed.mmapDoMprotect (h : WellFormed ctx lastEnd) (e : ε) (addr len : UInt64)
    (prot : UInt32) : WellFormed (mmapDoMprotect S ctx e addr len prot).2.1 lastEnd := by
  unfold Mmap.mmapDoMprotect
  split_ifs with h0
  · exact h
  · dsimp only
    generalize List.finRange 256 = l
    exact List.foldlRecOn l _ (motive := fun x : Bool × Context × ε => WellFormed x.2.1 lastEnd) h
      fun x hx i _ => hx.mprotectSlot addr _ prot i

end Calls

theorem wellFormed_init : WellFormed mmapContextInit lastEnd where
  toSeparated := separated_empty lastEnd
  count := by
    unfold activeCount mmapContextInit Area.zero
    simp

/-- Over every run of `mmap`, `munmap` and `mprotect` calls that meet `MmapOk`, the active areas are
non-empty, page-aligned, without wrap-around and pairwise disjoint, and `area_count` counts them. -/
theorem mmap_areas_wellFormed {ε : Type} (S : Services ε) {e₀ : ε} {x : Context × ε}
    (h : Reach (mmapStep S) MmapOk (mmapContextInit, e₀) x) : WellFormed x.1 (2 ^ 64) := by
  have hinv : WellFormed x.1 lastEnd := by
    refine Reach.invariant (I := fun x => WellFormed x.1 lastEnd) wellFormed_init ?_ h
    rintro ⟨ctx, e⟩ op y hI hok hst
    cases op with
    | mmap addr length prot flags offset =>
      obtain rfl := Option.some.inj hst
      exact hI.mmapDoMmap e hok
    | munmap addr length =>
      obtain rfl := Option.some.inj hst
      exact hI.mmapDoMunmap hok e
    | mprotect addr len prot =>
      obtain rfl := Option.some.inj hst
      exact hI.mmapDoMprotect e addr len prot
  exact hinv.mono (by decide)

/-- Services that never give a frame. -/
def noServices : Services Unit where
  allocPages e := (none, e)
  freePages e _ := e
  inMainZone _ := false
  pmapMapPage e _ _ _ := (false, e)
  pmapUnmapPage e _ := e
  pmapGetPhysical _ _ := 0
  pagecacheFindPage e _ _ := (0, e)
  pagecacheGetPage e _ _ := (0, e)
  pagecacheSetDirty e _ := e
  pagecachePutPage e _ := e
  pagecacheSyncNode e _ := e

theorem mmap_areas_wellFormed_one_page :
    WellFormed (mmapDoMmap noServices mmapContextInit () 0x400000 0x1000 protRead mapPrivate 0).2.1
      (2 ^ 64) :=
  mmap_areas_wellFormed noServices
    (.step (.mmap 0x400000 0x1000 protRead mapPrivate 0) .start (Or.inr (Or.inr (Or.inl (by decide)))) rfl)

/-- Two pages at the last page of the address space: the area wraps around. -/
theorem mmap_fixed_wraps :
    ¬ ∀ (S : Services Unit) (x : Context × Unit),
      Reach (mmapStep S) (fun _ _ => True) (mmapContextInit, ()) x → WellFormed x.1 (2 ^ 64) := by
  intro h
  have h := h noServices _ (.step
    (.mmap 0xFFFFFFFFFFFFF000 0x2000 protRead (mapFixed ||| mapPrivate) 0) .start trivial rfl)
  have hb := (h.sound 0 (by decide +kernel)).below
  revert hb
  decide +kernel

end Mmap
