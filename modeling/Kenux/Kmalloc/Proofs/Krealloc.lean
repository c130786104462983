import Kenux.Kmalloc.Proofs.Runs

/-!
# `krealloc` and aligned blocks

The bytes that are read are those of the new size, and an aligned pointer is freed with its block only if it is
the block's own.
-/

namespace Krealloc

open Buddy Kmalloc Memory Run

variable {k : Kernel} {b : Block} {n i p order : ℕ} {size newSize ptr raw alignment : UInt64}

/-! ## The copy -/

theorem memcpy_other {m : Mem} {dest src : UInt64} {a : ℕ} (num : ℕ)
    (h : ∀ i < num, a ≠ (dest + UInt64.ofNat i).toNat) : memcpy m dest src num a = m a := by
  induction num with
  | zero => rfl
  | succ num ih =>
    show Function.update (memcpy m dest src num) _ _ a = m a
    rw [Function.update_of_ne (h num (Nat.lt_succ_self num))]
    exact ih fun i hi => h i (Nat.lt_succ_of_lt hi)

/-- Bytes at different offsets are different bytes. -/
theorem offset_inj {a : UInt64} {i j : ℕ} (hi : i < 2 ^ 64) (hj : j < 2 ^ 64)
    (h : (a + UInt64.ofNat i).toNat = (a + UInt64.ofNat j).toNat) : i = j := by
  have heq : UInt64.ofNat i = UInt64.ofNat j := (UInt64.add_right_inj a).mp (UInt64.toNat_inj.mp h)
  have hnat := congrArg UInt64.toNat heq
  rwa [UInt64.toNat_ofNat_of_lt' hi, UInt64.toNat_ofNat_of_lt' hj] at hnat

/-- A block that lies apart gets the bytes. -/
theorem memcpy_copies {m : Mem} {dest src : UInt64} (num : ℕ) (hnum : num ≤ 2 ^ 64) (hapart : Apart src dest num) :
    ∀ i < num, byteAt (memcpy m dest src num) dest i = byteAt m src i := by
  induction num with
  | zero => exact fun i hi => absurd hi (Nat.not_lt_zero i)
  | succ num ih =>
    have hbefore : Apart src dest num := fun i hi j hj => hapart i (Nat.lt_succ_of_lt hi) j (Nat.lt_succ_of_lt hj)
    intro i hi
    show Function.update (memcpy m dest src num) _ _ _ = _
    by_cases hin : i = num
    · subst hin
      rw [Function.update_self]
      -- the source still has its bytes
      exact memcpy_other i fun j hj hc =>
        hapart j (Nat.lt_succ_of_lt hj) i (Nat.lt_succ_self i) (UInt64.toNat_inj.mp hc).symm
    · rw [Function.update_of_ne fun hc => hin (offset_inj (by omega) (by omega) hc)]
      exact ih (Nat.le_of_succ_le hnum) hbefore i (by omega)

/-! ## `krealloc` -/

theorem live_ne (h : Live k b) : b.ptr ≠ 0 := by
  cases b with
  | pages i p order =>
    intro hzero
    have hnat : (pageToVirt p).toNat = p * 4096 := pageToVirt_toNat h.2.1
    have hzero : pageToVirt p = 0 := hzero
    rw [hzero] at hnat
    have hnat : 0 = p * 4096 := hnat
    have hp := h.1
    omega
  | object c ptr => exact h

theorem krealloc_free {fuel : ℕ} (h0 : ptr ≠ 0) :
    krealloc fuel k ptr 0 = (kfree fuel k ptr).map fun k => ⟨0, k, 0⟩ := if_neg h0

theorem krealloc_fail {fuel : ℕ} (h0 : ptr ≠ 0) (hsize : newSize ≠ 0) (hnull : (kmalloc k newSize).1 = 0) :
    krealloc fuel k ptr newSize = some ⟨0, (kmalloc k newSize).2, 0⟩ := by
  unfold krealloc
  rw [if_neg h0, if_neg hsize]
  dsimp only
  rw [if_pos hnull, hnull]

theorem krealloc_copy {fuel : ℕ} (h0 : ptr ≠ 0) (hsize : newSize ≠ 0) (hptr : (kmalloc k newSize).1 ≠ 0) :
    krealloc fuel k ptr newSize = (kfree fuel (copied k ptr newSize) ptr).map
      fun k' => ⟨(kmalloc k newSize).1, k', newSize.toNat⟩ := by
  unfold krealloc
  rw [if_neg h0, if_neg hsize]
  exact if_neg hptr

/-- No more bytes are read than there are. -/
theorem ReallocOk.fits (hlive : Live k b) (h : ReallocOk k b n newSize) : Fits k n newSize := by
  obtain ⟨fuel, r, hcall, hread, -⟩ := h
  by_cases hzero : newSize = 0
  · rw [hzero]
    exact .inl (Nat.zero_le n)
  by_cases hnull : (kmalloc k newSize).1 = 0
  · exact .inr hnull
  · rw [krealloc_copy (live_ne hlive) hzero hnull] at hcall
    obtain ⟨k', -, rfl⟩ := Option.map_eq_some_iff.mp hcall
    exact .inl hread

theorem Fits.reallocOk (hlive : Live k b) (h : Fits k n newSize) (hundisturbed : Undisturbed k b n newSize) :
    ReallocOk k b n newSize := by
  have h0 := live_ne hlive
  unfold Undisturbed at hundisturbed
  by_cases hzero : newSize = 0
  · subst hzero
    obtain ⟨fuel, k', hfree⟩ := hundisturbed
    refine ⟨fuel, ⟨0, k', 0⟩, ?_, Nat.zero_le n, fun hne => absurd rfl hne, fun hne => absurd rfl hne⟩
    rw [krealloc_free h0, hfree]
    rfl
  · rw [if_neg hzero] at hundisturbed
    obtain ⟨hsame, hrest⟩ := hundisturbed
    by_cases hnull : (kmalloc k newSize).1 = 0
    · rw [if_pos hnull] at hrest
      exact ⟨0, _, krealloc_fail h0 hzero hnull, Nat.zero_le n, fun hne => absurd rfl hne, fun _ _ => ⟨hrest, hsame⟩⟩
    · rw [if_neg hnull] at hrest
      obtain ⟨hapart, fuel, k₃, hfree, hkept⟩ := hrest
      have hle : newSize.toNat ≤ n := h.resolve_right hnull
      refine ⟨fuel, ⟨(kmalloc k newSize).1, k₃, newSize.toNat⟩, ?_, hle, fun _ i hi => ?_, fun _ hc => absurd hc hnull⟩
      · rw [krealloc_copy h0 hzero hnull, hfree]
        rfl
      · have hin : i < n := Nat.lt_of_lt_of_le hi (Nat.min_le_left ..)
        have hinew : i < newSize.toNat := Nat.lt_of_lt_of_le hi (Nat.min_le_right ..)
        calc byteAt k₃.mem (kmalloc k newSize).1 i
            = byteAt (copied k b.ptr newSize).mem (kmalloc k newSize).1 i := hkept i hinew
          _ = byteAt (kmalloc k newSize).2.mem b.ptr i :=
              memcpy_copies _ (Nat.le_of_lt newSize.toNat_lt) hapart i hinew
          _ = byteAt k.mem b.ptr i := hsame i hin

/-! ## `kfree` of the two files -/

/-- On a laid out system the two functions do the same. -/
theorem kfree_eq (hl : Laid k.sys) (hinit : k.sys.initialized = true) (fuel : ℕ) :
    kfree fuel k ptr = Kmalloc.kfree fuel k ptr := by
  unfold kfree
  by_cases h0 : ptr = 0
  · rw [if_pos h0, h0]
    rfl
  rw [if_neg h0]
  cases hpage : k.page ptr with
  | none =>
    unfold Kmalloc.kfree
    rw [if_neg h0, hpage]
  | some p =>
    dsimp only
    by_cases hslab : k.isSlab p = true
    · rw [if_pos hslab]
    · obtain ⟨hdiv, z, hmain, hin, hvirt⟩ := page_some hpage
      obtain ⟨j, hz⟩ := mainZone_some hmain
      have hfree : freePagesVirt k.sys ptr = freePages k.sys p := by
        unfold freePagesVirt
        rw [if_neg (by simp [h0, hinit]), ← hdiv, hl.zoneOfPfn hz hin]
        dsimp only
        rw [hvirt]
      unfold Kmalloc.kfree
      rw [if_neg hslab, if_neg h0, hpage]
      dsimp only
      rw [if_neg hslab, hfree]

/-! ## Aligned pointers -/

theorem toNat_and_not {x mask : UInt64} {a : ℕ} (ha : a < 64) (hmask : mask.toNat = 2 ^ a - 1) :
    (x &&& ~~~mask).toNat = x.toNat / 2 ^ a * 2 ^ a := by
  have hpow : (2 : ℕ) ^ (64 - a) * 2 ^ a = 2 ^ 64 := by
    rw [← Nat.pow_add]
    congr 1
    omega
  have hpos : 0 < 2 ^ a := Nat.two_pow_pos a
  have hones : UInt64.size - 1 - (2 ^ a - 1) = (2 ^ (64 - a) - 1) * 2 ^ a := by
    rw [Nat.sub_mul, hpow]
    unfold UInt64.size
    omega
  have hlt : x.toNat / 2 ^ a < 2 ^ (64 - a) := by
    apply Nat.div_lt_of_lt_mul
    rw [Nat.mul_comm, hpow]
    exact x.toNat_lt
  rw [UInt64.toNat_and, UInt64.toNat_not, hmask, hones, Word.nat_and_field, Nat.mod_eq_of_lt hlt]

/-- The result is a multiple of the alignment, and it is the address itself if that is one. -/
theorem alignUp_spec {a : ℕ} (ha : alignment.toNat = 2 ^ a) : 2 ^ a ∣ (alignUp raw alignment).toNat ∧
    (2 ^ a ∣ raw.toNat → alignUp raw alignment = raw) := by
  have hlt := alignment.toNat_lt
  have ha64 : a < 64 := by
    rw [ha] at hlt
    exact (Nat.pow_lt_pow_iff_right (by omega)).mp hlt
  have hpos : 0 < 2 ^ a := Nat.two_pow_pos a
  have hone : (1 : UInt64).toNat = 1 := rfl
  have hmask : (alignment - 1).toNat = 2 ^ a - 1 := by
    rw [UInt64.toNat_sub_of_le _ _ (UInt64.le_iff_toNat_le.mpr (by rw [ha, hone]; exact hpos)), ha, hone]
  have hval : (alignUp raw alignment).toNat = (raw + alignment - 1).toNat / 2 ^ a * 2 ^ a := toNat_and_not ha64 hmask
  refine ⟨⟨_, hval.trans (Nat.mul_comm ..)⟩, fun hdvd => UInt64.toNat_inj.mp ?_⟩
  obtain ⟨q, hq⟩ := hdvd
  have hraw := raw.toNat_lt
  -- a multiple leaves room for the rest of its unit
  have hroom : raw.toNat + 2 ^ a ≤ 2 ^ 64 := by
    have hpow : 2 ^ 64 = 2 ^ a * 2 ^ (64 - a) := by
      rw [← Nat.pow_add]
      congr 1
      omega
    rw [hq, hpow] at hraw ⊢
    have hlt := Nat.lt_of_mul_lt_mul_left hraw
    calc 2 ^ a * q + 2 ^ a = 2 ^ a * (q + 1) := (Nat.mul_succ ..).symm
      _ ≤ 2 ^ a * 2 ^ (64 - a) := Nat.mul_le_mul_left _ hlt
  have hsum : (raw + alignment - 1).toNat = raw.toNat + (2 ^ a - 1) := by
    rw [UInt64.toNat_sub, UInt64.toNat_add, ha, hone]
    omega
  rw [hval, hsum, hq, Nat.mul_add_div hpos, Nat.div_eq_of_lt (by omega), Nat.add_zero, Nat.mul_comm]

theorem alignedPtr_start {a : ℕ} (ha : alignment.toNat = 2 ^ a) (h : AtStart b alignment) :
    alignedPtr b.ptr alignment = b.ptr := by
  unfold alignedPtr
  split_ifs with hle
  · rfl
  · exact (alignUp_spec ha).2 (ha ▸ h.resolve_left hle)

/-- An aligned pointer that is not the block's own points to another page. -/
theorem alignedPtr_page {a : ℕ} (ha : alignment.toNat = 2 ^ a) (hp : p < 2 ^ 52) {zone : ZoneIdx}
    (h : ¬AtStart (.pages zone p order) alignment) : (alignedPtr (pageToVirt p) alignment).toNat / 4096 ≠ p := by
  obtain ⟨hbig, hdvd⟩ := not_or.mp h
  have hraw : (pageToVirt p).toNat = p * 4096 := pageToVirt_toNat hp
  have halign : 4096 ∣ alignment.toNat := by
    have hgt : 2 ^ 12 < 2 ^ a := ha ▸ UInt64.lt_iff_toNat_lt.mp (UInt64.not_le.mp hbig)
    rw [ha]
    exact Nat.pow_dvd_pow 2 (Nat.le_of_lt ((Nat.pow_lt_pow_iff_right (by omega)).mp hgt))
  have hmul : 2 ^ a ∣ (alignUp (pageToVirt p) alignment).toNat := (alignUp_spec ha).1
  unfold alignedPtr
  rw [if_neg hbig]
  intro hpage
  obtain ⟨q, hq⟩ := halign.trans (ha ▸ hmul)
  rw [hq, Nat.mul_div_cancel_left q (by omega)] at hpage
  refine hdvd ?_
  show alignment.toNat ∣ (pageToVirt p).toNat
  rw [ha, hraw, ← hpage, Nat.mul_comm, ← hq]
  exact hmul

/-- Freeing another page leaves the block in use. -/
theorem not_released {a : ℕ} (hinit : k.sys.initialized = true) (ha : alignment.toNat = 2 ^ a)
    {zone : ZoneIdx} (hlive : Live k (.pages zone p order)) (h : ¬AtStart (.pages zone p order) alignment) :
    ¬Released k (.pages zone p order) alignment := by
  rintro ⟨fuel, k', hfree, hunused, -⟩
  obtain ⟨-, hp52, -, -, hused, -⟩ := hlive
  have hother := alignedPtr_page ha hp52 h
  have hfree : kfree fuel k (alignedPtr (pageToVirt p) alignment) = some k' := hfree
  have hkept : (k'.sys.heap p).used = (k.sys.heap p).used := by
    generalize alignedPtr (pageToVirt p) alignment = ptr at hother hfree
    unfold kfree at hfree
    split_ifs at hfree with h0
    · rw [Option.some.inj hfree]
    cases hpage : k.page ptr with
    | none =>
      rw [hpage] at hfree
      rw [Option.some.inj hfree]
    | some q =>
      obtain ⟨hdiv, z, hmain, hin, -⟩ := page_some hpage
      rw [hpage] at hfree
      dsimp only at hfree
      split_ifs at hfree with hslab
      · -- an object is freed, the pages stay as they are
        unfold Kmalloc.kfree at hfree
        rw [if_neg h0, hpage] at hfree
        dsimp only at hfree
        rw [if_pos hslab] at hfree
        cases hcache : k.slabCache q with
        | none =>
          rw [hcache] at hfree
          rw [Option.some.inj hfree]
        | some c =>
          rw [hcache] at hfree
          rw [kmemCacheFree_sys hfree]
      · obtain rfl := Option.some.inj hfree
        have hne : p ≠ q := fun hpq => hother (hdiv ▸ hpq.symm)
        show ((freePages k.sys q).heap p).used = _
        unfold freePages
        rw [if_pos hinit]
        cases (zoneOfIdx k.sys q).or (zoneOfPfn k.sys q) with
        | none => rfl
        | some w => exact (buddyFreePages_used (s := ⟨k.sys.heap, w.2⟩) (p := q)).2 hne
  have hunused : (k'.sys.heap p).used = false := hunused
  rw [hkept, hused] at hunused
  cases hunused

theorem memoryAllocAligned_eq : memoryAllocAligned k size alignment =
    ((if (kmalloc k (requested size alignment)).1 = 0 then 0
      else alignedPtr (kmalloc k (requested size alignment)).1 alignment),
      (kmalloc k (requested size alignment)).2) := by
  unfold memoryAllocAligned requested alignedPtr
  split_ifs with hle hnull hnull
  · rw [← hnull]
  · rfl
  · exact if_pos hnull
  · exact if_neg hnull

/-- `twoZones` with one page taken. -/
def pageTaken : Kernel := (Kmalloc.kmalloc twoZones 4096).2

def takenBlock : Block := .pages zoneDma32 4097 0

theorem pageTaken_reach {k₀ : Kernel} (h : twoZones = startOf k₀ blankHeap 0xFFD000 0x1002000) :
    Reach step (fun _ _ => True) (startOf k₀ blankHeap 0xFFD000 0x1002000) pageTaken :=
  h ▸ Reach.start.step (.kmalloc 4096) trivial rfl

theorem takenBlock_live : Live pageTaken takenBlock := by
  refine ⟨by decide, by decide, by decide, ?_, ?_, ?_⟩ <;> decide +kernel

end Krealloc
