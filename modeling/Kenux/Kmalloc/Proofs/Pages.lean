import Kenux.Buddy.Proofs.Frames
import Kenux.Kmalloc.Model

/-!
# Blocks of pages

The lookup of a page depends on where the zones lie only, and that never changes.
-/

namespace Kmalloc

open Buddy

variable {k : Kernel} {sys sys' : System} {virt size : UInt64} {i : ZoneIdx} {p q order : ℕ}

/-! ## Looking a page up -/

theorem or_map {α β : Type} (f : α → β) (o o' : Option α) : (o.or o').map f = (o.map f).or (o'.map f) := by
  cases o <;> rfl

theorem mainZone_frame (h : SteadySystem sys sys') :
    (buddyGetMainZone sys').map Zone.frame = (buddyGetMainZone sys).map Zone.frame := by
  unfold buddyGetMainZone
  rw [or_map, or_map, or_map, or_map, h.frame, h.frame, h.frame]

theorem page_congr {k k' : Kernel} (h : SteadySystem k.sys k'.sys) : k'.page virt = k.page virt := by
  have hframe := mainZone_frame h
  unfold Kernel.page
  cases hz : buddyGetMainZone k.sys with
  | none =>
    rw [hz] at hframe
    rw [Option.map_eq_none_iff.mp hframe]
  | some z =>
    rw [hz] at hframe
    obtain ⟨w, hw, heq⟩ := Option.map_eq_some_iff.mp hframe
    rw [hw]
    show pfnToPage w _ = pfnToPage z _
    rw [pfnToPage_congr heq]

/-- The page of a pointer is the one with its frame number. -/
theorem page_some (h : k.page virt = some p) : p = virt.toNat / 4096 ∧ ∃ z, buddyGetMainZone k.sys = some z ∧
    InZone z p ∧ virtToPage z virt = some p := by
  obtain ⟨z, hz, hp⟩ := Option.bind_eq_some_iff.mp h
  obtain ⟨heq, hin⟩ := pfnToPage_eq_some hp
  exact ⟨heq, z, hz, heq ▸ hin, hp⟩

theorem mainZone_some {z : Zone} (h : buddyGetMainZone sys = some z) : ∃ j, sys.zones j = some z := by
  unfold buddyGetMainZone at h
  rcases Option.or_eq_some_iff.mp h with h | ⟨-, h⟩
  · exact ⟨_, h⟩
  · rcases Option.or_eq_some_iff.mp h with h | ⟨-, h⟩
    · exact ⟨_, h⟩
    · exact ⟨_, h⟩

theorem pageToVirt_div (p : ℕ) : (pageToVirt p).toNat = p % 2 ^ 52 * 4096 := by
  unfold pageToVirt
  rw [UInt64.toNat_mul, UInt64.toNat_ofNat']
  show p % 2 ^ 64 * 4096 % 2 ^ 64 = _
  omega

/-! ## The sizes -/

/-- The loop ends at the first shift that is enough, or at its bound. -/
theorem shiftLoop_spec (unit size fuel : ℕ) : ∀ i, i ≤ shiftLoop unit size fuel i ∧
    shiftLoop unit size fuel i ≤ i + fuel ∧
    (size ≤ unit * 2 ^ (i + fuel) → size ≤ unit * 2 ^ shiftLoop unit size fuel i) := by
  induction fuel with
  | zero => exact fun i => ⟨le_rfl, le_rfl, id⟩
  | succ fuel ih =>
    intro i
    unfold shiftLoop
    split_ifs with hlt
    · obtain ⟨hlo, hhi, hsize⟩ := ih (i + 1)
      have hsum : i + 1 + fuel = i + (fuel + 1) := by omega
      rw [hsum] at hhi hsize
      exact ⟨by omega, hhi, hsize⟩
    · refine ⟨le_rfl, by omega, fun _ => ?_⟩
      rw [Nat.shiftLeft_eq] at hlt
      exact Nat.not_lt.mp hlt

theorem kmallocOrder_le (size : UInt64) : kmallocOrder size ≤ maxOrder := by
  have hspec := (shiftLoop_spec 4096 size.toNat maxOrder 0).2.1
  rwa [Nat.zero_add] at hspec

theorem size_le_order : size.toNat ≤ 4096 * 2 ^ kmallocOrder size ↔ size.toNat ≤ 2 ^ 23 := by
  have hmax : 4096 * 2 ^ maxOrder = 2 ^ 23 := by decide
  constructor
  · intro h
    have hpow : 2 ^ kmallocOrder size ≤ 2 ^ maxOrder := Nat.pow_le_pow_right (by omega) (kmallocOrder_le size)
    omega
  · intro h
    refine (shiftLoop_spec 4096 size.toNat maxOrder 0).2.2 ?_
    rw [Nat.zero_add, hmax]
    exact h

/-! ## `kmalloc` of many bytes -/

theorem isSlab_taken {k k' : Kernel} (h : TakenFrom k.sys k'.sys p order) : k'.isSlab p = k.isSlab p := by
  have hbits : pageFlagUsed &&& pageFlagSlab = 0 := by decide
  unfold Kernel.isSlab
  rw [h.flags, Word.or_and_32, hbits, UInt32.or_zero]

/-- What `ksize` says of a page that is marked. -/
theorem size_le_ksize_slab (hptr : virt ≠ 0) (hpage : k.page virt = some p) (hslab : k.isSlab p = true)
    (hpos : 0 < size.toNat) : size ≤ ksize k virt ↔
      ∃ cache, k.slabCache p = some cache ∧ size.toNat ≤ (k.cacheTable cache).objSize.toNat := by
  unfold ksize
  rw [if_neg hptr, hpage]
  dsimp only
  rw [if_pos hslab]
  cases hcache : k.slabCache p with
  | none =>
    refine iff_of_false (fun h => ?_) (by simp)
    have hzero : size.toNat ≤ 0 := UInt64.le_iff_toNat_le.mp h
    omega
  | some cache =>
    dsimp only
    rw [UInt64.le_iff_toNat_le, UInt32.toNat_toUInt64]
    constructor
    · exact fun h => ⟨cache, rfl, h⟩
    · rintro ⟨c, hc, h⟩
      obtain rfl := Option.some.inj hc
      exact h

/-- What `ksize` says of another page. -/
theorem ksize_page (hptr : virt ≠ 0) (hpage : k.page virt = some p) (hslab : ¬k.isSlab p = true) :
    (ksize k virt).toNat = 4096 * 2 ^ min (k.sys.heap p).order maxOrder := by
  have hpow : 2 ^ min (k.sys.heap p).order maxOrder ≤ 2 ^ maxOrder := Nat.pow_le_pow_right (by omega) (Nat.min_le_right ..)
  have hmax : 2 ^ maxOrder = 2048 := by decide
  unfold ksize
  rw [if_neg hptr, hpage]
  dsimp only
  rw [if_neg hslab, Nat.shiftLeft_eq, UInt64.toNat_ofNat_of_lt']
  show _ < 2 ^ 64
  omega

theorem ksize_zero_of_none (h : k.page virt = none) : ksize k virt = 0 := by
  unfold ksize
  rw [h]
  split_ifs <;> rfl

theorem sized_pages (hbig : size > (1 : UInt64) <<< 11) : Sized k size ↔ SizedWhen k size := by
  have hpos : 0 < size.toNat := Nat.lt_of_le_of_lt (Nat.zero_le _) (UInt64.lt_iff_toNat_lt.mp hbig)
  have hne : size ≠ 0 := by
    rintro rfl
    exact absurd hpos (Nat.lt_irrefl 0)
  have hcall : kmalloc k size = allocPagesVirt k (kmallocOrder size) := by
    unfold kmalloc
    rw [if_neg hne, if_pos hbig]
  have hnext : nextBlock k size =
      (allocPages k.sys (kmallocOrder size)).1.map fun a => .pages a.1 a.2 (kmallocOrder size) := by
    unfold nextBlock
    rw [if_neg hne, if_pos hbig]
  obtain ⟨hsteady, htaken⟩ := allocPages_steady k.sys (kmallocOrder size)
  unfold Sized SizedWhen
  rw [hcall, hnext]
  unfold allocPagesVirt
  generalize allocPages k.sys (kmallocOrder size) = r at hsteady htaken ⊢
  obtain ⟨_ | ⟨i, p⟩, sys⟩ := r
  · exact iff_of_true (fun h => absurd rfl h) fun b hb => by cases hb
  dsimp only at hsteady htaken ⊢
  obtain ⟨-, ht⟩ := htaken i p rfl
  have hsame : ({ k with sys := sys } : Kernel).page (pageToVirt p) = k.page (pageToVirt p) := page_congr hsteady
  have hmarks : ({ k with sys := sys } : Kernel).isSlab p = k.isSlab p := isSlab_taken ht
  have horders : size.toNat ≤ 4096 * 2 ^ kmallocOrder size ↔ size.toNat ≤ 2 ^ 23 := size_le_order
  constructor
  · intro hsized b hb
    obtain rfl := Option.some.inj hb
    intro hptr
    obtain ⟨b', hb', hat, hbytes, hsize⟩ := hsized hptr
    obtain rfl := Option.some.inj hb'
    have hat : (pageToVirt p).toNat = p * 4096 := hat
    cases hpage : k.page (pageToVirt p) with
    | none =>
      rw [ksize_zero_of_none (hsame.trans hpage)] at hsize
      exact absurd (UInt64.le_iff_toNat_le.mp hsize) (Nat.not_le.mpr hpos)
    | some q =>
      obtain rfl : q = p := by
        rw [(page_some hpage).1, hat]
        exact Nat.mul_div_cancel p (by omega)
      refine ⟨horders.mp hbytes, rfl, fun hslab => ?_⟩
      exact (size_le_ksize_slab hptr (hsame.trans hpage) (hmarks.trans hslab) hpos).mp hsize
  · intro hwhen hptr
    obtain ⟨hle, hpage, hmarked⟩ := hwhen _ rfl hptr
    refine ⟨_, rfl, ?_, horders.mpr hle, ?_⟩
    · have hmod := pageToVirt_div p
      have hdiv := (page_some hpage).1
      show (pageToVirt p).toNat = p * 4096
      rw [hmod] at hdiv ⊢
      omega
    · by_cases hslab : k.isSlab p = true
      · exact (size_le_ksize_slab hptr (hsame.trans hpage) (hmarks.trans hslab) hpos).mpr (hmarked hslab)
      · rw [UInt64.le_iff_toNat_le, ksize_page hptr (hsame.trans hpage) (by rwa [hmarks])]
        dsimp only
        rw [ht.order, Nat.min_eq_left ht.order_le]
        exact horders.mpr hle

/-! ## `kfree` of pages -/

theorem pageCount_ne (h : order ≤ maxOrder) : pageCount order ≠ 0 := by
  intro hzero
  have hnat := pageCount_toNat h
  rw [hzero] at hnat
  exact absurd hnat (Nat.two_pow_pos order).ne

/-- Nothing happened to the zone. -/
theorem not_givenBack_pages {k' : Kernel} (hle : order ≤ maxOrder) (h : k'.sys.zones i = k.sys.zones i) :
    ¬GivenBack k k' (.pages i p order) := by
  rintro ⟨-, zone, zone', hz, hz', hfree, -⟩
  obtain rfl := Option.some.inj ((h.symm.trans hz').symm.trans hz)
  exact pageCount_ne hle (left_eq_add.mp hfree)

theorem kmemCacheFree_sys {k' : Kernel} {fuel cache : ℕ} (h : kmemCacheFree fuel k cache virt = some k') :
    k'.sys = k.sys := by
  obtain ⟨s, -, rfl⟩ := Option.map_eq_some_iff.mp h
  rfl

/-- The zone that a page of the main zone is freed into: zone 0 if there is one. -/
theorem freePagesVirt_main (hl : Laid k.sys) (hinit : k.sys.initialized = true) (h0 : pageToVirt p ≠ 0)
    (hpage : k.page (pageToVirt p) = some p) : ∃ j z, k.sys.zones j = some z ∧
      freePagesVirt k.sys (pageToVirt p) = k.sys.put j (buddyFreePages ⟨k.sys.heap, z⟩ p) ∧
      ∀ i, k.sys.zones i ≠ none → (i = j ↔
        i = zoneDma ∨ k.sys.zones zoneDma = none ∧ ∃ zone, k.sys.zones i = some zone ∧ zone.contains p = true) := by
  obtain ⟨hdiv, z, hmain, hin, hvirt⟩ := page_some hpage
  obtain ⟨j, hz⟩ := mainZone_some hmain
  have hpfn := hl.zoneOfPfn hz hin
  have hfree : freePagesVirt k.sys (pageToVirt p) = freePages k.sys p := by
    unfold freePagesVirt
    rw [if_neg (by simp [h0, hinit]), ← hdiv, hpfn]
    dsimp only
    rw [hvirt]
  have hidx : zoneOfIdx k.sys p = (k.sys.zones zoneDma).map (zoneDma, ·) := by
    unfold zoneOfIdx
    rw [hl.zoneIdx j z hz p hin]
    rfl
  rw [hfree]
  unfold freePages
  rw [if_pos hinit, hidx, hpfn]
  cases hdma : k.sys.zones zoneDma with
  | some w => exact ⟨zoneDma, w, hdma, rfl, fun i _ => by simp⟩
  | none =>
    refine ⟨j, z, hz, rfl, fun i hi => ⟨?_, ?_⟩⟩
    · rintro rfl
      exact .inr ⟨rfl, z, hz, contains_iff.mpr hin⟩
    · rintro (rfl | ⟨-, w, hw, hc⟩)
      · exact absurd hdma hi
      · by_contra hij
        exact hl.apart i j w z hij hw hz p (contains_iff.mp hc) hin

theorem freed_pages (hl : Laid k.sys) (hinit : k.sys.initialized = true) (hlive : Live k (.pages i p order)) :
    (∃ fuel k', kfree fuel k (pageToVirt p) = some k' ∧ GivenBack k k' (.pages i p order)) ↔
      FreedWhen k (.pages i p order) := by
  obtain ⟨hp0, hp52, hle, hzone, hused, horder⟩ := hlive
  have hnat : (pageToVirt p).toNat = p * 4096 := pageToVirt_toNat hp52
  have h0 : pageToVirt p ≠ 0 := by
    intro hzero
    rw [hzero] at hnat
    have hnat : 0 = p * 4096 := hnat
    omega
  have hcases (fuel : ℕ) : kfree fuel k (pageToVirt p) = _ := if_neg h0
  show _ ↔ (k.page (pageToVirt p) = some p ∧ k.isSlab p = false ∧
    (i = zoneDma ∨ k.sys.zones zoneDma = none ∧ ∃ zone, k.sys.zones i = some zone ∧ zone.contains p = true))
  cases hpage : k.page (pageToVirt p) with
  | none =>
    refine iff_of_false ?_ fun h => absurd h.1.symm (Option.some_ne_none p)
    rintro ⟨fuel, k', hcall, hback⟩
    rw [hcases, hpage] at hcall
    obtain rfl := Option.some.inj hcall
    exact not_givenBack_pages hle rfl hback
  | some q =>
    obtain rfl : q = p := by
      rw [(page_some hpage).1, hnat]
      exact Nat.mul_div_cancel p (by omega)
    cases hslab : k.isSlab q with
    | true =>
      refine iff_of_false ?_ fun h => absurd h.2.1 Bool.noConfusion
      rintro ⟨fuel, k', hcall, hback⟩
      rw [hcases, hpage] at hcall
      dsimp only at hcall
      rw [if_pos hslab] at hcall
      have hsys : k'.sys = k.sys := by
        cases hcache : k.slabCache q with
        | none =>
          rw [hcache] at hcall
          rw [← Option.some.inj hcall]
        | some cache =>
          rw [hcache] at hcall
          exact kmemCacheFree_sys hcall
      exact not_givenBack_pages hle (by rw [hsys]) hback
    | false =>
      obtain ⟨j, z, hz, hfree, hj⟩ := freePagesVirt_main hl hinit h0 hpage
      have hcall : ∀ fuel, kfree fuel k (pageToVirt q) =
          some { k with sys := k.sys.put j (buddyFreePages ⟨k.sys.heap, z⟩ q) } := by
        intro fuel
        rw [hcases, hpage]
        dsimp only
        rw [if_neg (by rw [hslab]; exact Bool.false_ne_true), hfree]
      rw [← hj i hzone]
      constructor
      · rintro ⟨fuel, k', hk', hback⟩
        obtain rfl := Option.some.inj ((hcall fuel).symm.trans hk')
        refine ⟨rfl, rfl, ?_⟩
        by_contra hij
        refine not_givenBack_pages hle ?_ hback
        exact put_zones.trans (if_neg hij)
      · rintro ⟨-, -, rfl⟩
        subst horder
        obtain ⟨⟨p', o', hhead, hlo, hhi⟩, hcount⟩ := (buddyFreePages_steady (s := ⟨k.sys.heap, z⟩) (p := q)).2 hused
        have hunused := (buddyFreePages_used (s := ⟨k.sys.heap, z⟩) (q := q)).1 hused
        exact ⟨0, _, hcall 0, hunused, z, _, hz, put_zones.trans (if_pos rfl), hcount, p', o', hhead, hlo, hhi⟩

end Kmalloc
