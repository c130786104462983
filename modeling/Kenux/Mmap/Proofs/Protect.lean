import Kenux.Mmap.Proofs.Invariant
import Kenux.Pmap.Proofs.Refinement

/-!
# What `mmap_do_mprotect` changes

The page table entries change for the part of an area that lies in the range, the protection of the area
as a whole. The pages of the area outside the range then have an entry and a recorded protection that do
not agree, and the next fault maps them with the latter.
-/

namespace Mmap

open Pmap (FrameSource PageTables leaf pteAddr pteFlags vpn)

variable {α : Type} {S : Services (Pmap.State α)} {src : FrameSource α} {pml4 : UInt64}
  {ctx : Context} {e : Pmap.State α} {addr al len : UInt64} {prot : UInt32}

/-- Services that use the page tables below `pml4`. -/
structure OnPmap (S : Services (Pmap.State α)) (src : FrameSource α) (pml4 : UInt64) : Prop where
  map : ∀ e v p f, S.pmapMapPage e v p f =
    (decide ((Pmap.pmapMapPage src e pml4 v p f).1 = 0), (Pmap.pmapMapPage src e pml4 v p f).2)
  unmap : ∀ e v, S.pmapUnmapPage e v = Pmap.pmapUnmapPage e pml4 v
  physical : ∀ e v, S.pmapGetPhysical e v = Pmap.pmapGetPhysical e.mem pml4 v

/-! ## Protections and entries -/

/-- The protection from which `mmap_page_fault_handler` derives the flags of a page. -/
def protAt (ctx : Context) (p : UInt64) : Option UInt32 :=
  (mmapFindAreaAt ctx p).map fun i => (ctx.areas i).prot

/-- The entry of a page that is mapped again with the flags. -/
def withFlags (flags old : UInt64) : UInt64 := pteFlags (pteAddr old) (flags ||| Pmap.pagePresent)

def InRange (addr n : ℕ) (p : UInt64) : Prop := addr ≤ p.toNat ∧ p.toNat < addr + n

/-- A page of an area that lies in the range has this virtual page number. -/
def Touched (ctx : Context) (addr n : ℕ) (w : UInt64) : Prop :=
  ∃ p, p.toNat % 4096 = 0 ∧ InRange addr n p ∧ (protAt ctx p).isSome = true ∧ vpn p = vpn w

/-- The recorded protections and the entries change for the pages of areas in the range, the latter if they
are mapped, and for nothing else. -/
structure ProtectsExactly (pml4 : UInt64) (x y : Context × Pmap.State α) (addr n : ℕ) (prot : UInt32) :
    Prop where
  inside : ∀ p, InRange addr n p → protAt y.1 p = (protAt x.1 p).map fun _ => prot
  outside : ∀ p, ¬ InRange addr n p → protAt y.1 p = protAt x.1 p
  changed : ∀ w, w.toNat % 4096 = 0 → Touched x.1 addr n w →
    Pmap.pmapGetPhysical x.2.mem pml4 w ≠ 0 →
      leaf y.2.mem pml4 w = (leaf x.2.mem pml4 w).map (withFlags (protToPteFlags prot))
  kept : ∀ w, w.toNat % 4096 = 0 →
    ¬ (Touched x.1 addr n w ∧ Pmap.pmapGetPhysical x.2.mem pml4 w ≠ 0) →
      leaf y.2.mem pml4 w = leaf x.2.mem pml4 w

/-- Every area that has a page in the range lies in it or has the protection already. -/
def WholeAreas (ctx : Context) (addr n : ℕ) (prot : UInt32) : Prop :=
  ∀ i p, (ctx.areas i).active = true → (ctx.areas i).lo ≤ p → p < (ctx.areas i).hi → addr ≤ p →
    p < addr + n →
      (addr ≤ (ctx.areas i).lo ∧ (ctx.areas i).hi ≤ addr + n) ∨ (ctx.areas i).prot = prot

/-! ## Mapping pages again -/

theorem pteAddr_protToPteFlags (prot : UInt32) : pteAddr (protToPteFlags prot) = 0 := by
  unfold protToPteFlags
  split_ifs <;> decide

section Remap

variable {flags : UInt64}

theorem pteAddr_withFlags (hf : pteAddr flags = 0) (old : UInt64) :
    pteAddr (withFlags flags old) = pteAddr old :=
  Pmap.pteAddr_pteFlags (Pmap.pteAddr_isFrame old) (Pmap.pteAddr_or_present hf)

theorem withFlags_withFlags (hf : pteAddr flags = 0) (old : UInt64) :
    withFlags flags (withFlags flags old) = withFlags flags old := by
  change pteFlags (pteAddr (withFlags flags old)) _ = _
  rw [pteAddr_withFlags hf]
  rfl

/-- New flags do not change what a mapped page translates to. -/
theorem translate_withFlags (hf : pteAddr flags = 0) {o : Option UInt64} {w : UInt64}
    (h : Pmap.translate w o ≠ 0) : Pmap.translate w (o.map (withFlags flags)) = Pmap.translate w o := by
  cases o with
  | none => exact absurd rfl h
  | some old =>
    unfold Pmap.translate at h ⊢
    dsimp only [Option.map_some] at h ⊢
    have hp : withFlags flags old &&& Pmap.pagePresent ≠ 0 := Pmap.present_pteFlags _ _
    by_cases hold : old &&& Pmap.pagePresent = 0
    · rw [if_pos hold] at h
      exact absurd rfl h
    · rw [if_neg hp, if_neg hold, pteAddr_withFlags hf]

/-- The entry depends on the virtual page number only. -/
theorem leaf_congr {m : Pmap.PhysMem} {v w : UInt64} (h : vpn w = vpn v) :
    leaf m pml4 w = leaf m pml4 v := by
  obtain ⟨hp, hi⟩ := (Pmap.vpn_eq_iff w v).mp h
  unfold leaf
  rw [hp, hi]

theorem translate_aligned {w : UInt64} (hw : w.toNat % 4096 = 0) {old : UInt64}
    (hp : old &&& Pmap.pagePresent ≠ 0) : Pmap.translate w (some old) = pteAddr old := by
  have hz : w &&& 0xFFF = 0 := by
    apply UInt64.toNat_inj.mp
    rw [Pmap.offset_eq_mod, UInt64.toNat_mod]
    exact hw
  unfold Pmap.translate
  dsimp only
  rw [if_neg hp, hz]
  exact UInt64.add_zero _

/-- Aligned addresses of one page translate to the same. -/
theorem physical_congr (ht : PageTables src pml4 e) {v w : UInt64} (hw : w.toNat % 4096 = 0)
    (hv : v.toNat % 4096 = 0) (h : vpn w = vpn v) :
    Pmap.pmapGetPhysical e.mem pml4 w = Pmap.pmapGetPhysical e.mem pml4 v := by
  rw [ht.forest.pmapGetPhysical_eq rfl, ht.forest.pmapGetPhysical_eq rfl, leaf_congr h]
  cases leaf e.mem pml4 v with
  | none => rfl
  | some old =>
    by_cases hp : old &&& Pmap.pagePresent = 0
    · unfold Pmap.translate
      dsimp only
      rw [if_pos hp, if_pos hp]
    · rw [translate_aligned hw hp, translate_aligned hv hp]

/-- One page of the loop. -/
theorem remapPage_leaf (hS : OnPmap S src pml4) (flags : UInt64) (ht : PageTables src pml4 e)
    {v : UInt64} (hv : v.toNat % 4096 = 0) : PageTables src pml4 (remapPages S e flags [v]) ∧
      ∀ w, w.toNat % 4096 = 0 → leaf (remapPages S e flags [v]).mem pml4 w =
        if vpn w = vpn v ∧ Pmap.pmapGetPhysical e.mem pml4 w ≠ 0 then
          (leaf e.mem pml4 w).map (withFlags flags)
        else leaf e.mem pml4 w := by
  unfold remapPages
  rw [List.foldl_cons, List.foldl_nil, hS.physical]
  by_cases h0 : Pmap.pmapGetPhysical e.mem pml4 v = 0
  · rw [if_neg (not_not.mpr h0)]
    refine ⟨ht, fun w hw => (if_neg fun hc => hc.2 ?_).symm⟩
    rw [physical_congr ht hw hv hc.1]
    exact h0
  rw [if_pos h0, hS.map, hS.unmap]
  refine ⟨(ht.remap h0).1, fun w hal => ?_⟩
  rw [(ht.remap h0).2]
  by_cases hw : vpn w = vpn v
  · have hm : Pmap.pmapGetPhysical e.mem pml4 w ≠ 0 := by rwa [physical_congr ht hal hv hw]
    rw [if_pos hw, if_pos ⟨hw, hm⟩, leaf_congr hw]
    rw [ht.forest.pmapGetPhysical_eq rfl] at h0 ⊢
    cases hold : leaf e.mem pml4 v with
    | none =>
      rw [hold] at h0
      exact absurd rfl h0
    | some old =>
      have hp : old &&& Pmap.pagePresent ≠ 0 := by
        intro hp
        rw [hold] at h0
        unfold Pmap.translate at h0
        exact h0 (if_pos hp)
      rw [translate_aligned hv hp]
      rfl
  · rw [if_neg hw, if_neg fun hc => hw hc.1]

/-- The loop over pages gives the mapped ones among them the flags. -/
theorem remapPages_leaf (hS : OnPmap S src pml4) (hf : pteAddr flags = 0) (pages : List UInt64)
    (hal : ∀ v ∈ pages, v.toNat % 4096 = 0) : ∀ e, PageTables src pml4 e →
      PageTables src pml4 (remapPages S e flags pages) ∧
      ∀ w, w.toNat % 4096 = 0 → leaf (remapPages S e flags pages).mem pml4 w =
        if (∃ v ∈ pages, vpn v = vpn w) ∧ Pmap.pmapGetPhysical e.mem pml4 w ≠ 0 then
          (leaf e.mem pml4 w).map (withFlags flags)
        else leaf e.mem pml4 w := by
  induction pages with
  | nil =>
    intro e ht
    refine ⟨ht, fun w _ => ?_⟩
    rw [if_neg]
    · rfl
    · rintro ⟨⟨v, hv, -⟩, -⟩
      exact absurd hv List.not_mem_nil
  | cons v pages ih =>
    intro e ht
    have hv := hal v List.mem_cons_self
    obtain ⟨ht₁, hleaf₁⟩ := remapPage_leaf hS flags ht hv
    obtain ⟨ht₂, hleaf₂⟩ := ih (fun w hw => hal w (List.mem_cons_of_mem _ hw)) _ ht₁
    have hcons : remapPages S e flags (v :: pages) =
        remapPages S (remapPages S e flags [v]) flags pages := rfl
    rw [hcons]
    generalize remapPages S e flags [v] = e₁ at ht₁ hleaf₁ ht₂ hleaf₂
    refine ⟨ht₂, fun w hw => ?_⟩
    -- what a page translates to is the same before and after
    have hsame : Pmap.pmapGetPhysical e₁.mem pml4 w = Pmap.pmapGetPhysical e.mem pml4 w := by
      rw [ht₁.forest.pmapGetPhysical_eq rfl, ht.forest.pmapGetPhysical_eq rfl, hleaf₁ w hw]
      split_ifs with hc
      · apply translate_withFlags hf
        rw [← ht.forest.pmapGetPhysical_eq rfl]
        exact hc.2
      · rfl
    have htail := hleaf₂ w hw
    rw [hsame, hleaf₁ w hw] at htail
    rw [htail]
    by_cases hm : Pmap.pmapGetPhysical e.mem pml4 w = 0
    · simp [hm]
    by_cases hvw : vpn w = vpn v
    · simp [hvw, hm, withFlags_withFlags hf, Function.comp_def]
    · have hvw' : ¬ vpn v = vpn w := fun hc => hvw hc.symm
      simp [hvw, hvw', hm]

end Remap

/-! ## The pages of the overlaps -/

/-- The pages that the loop maps again for one area. -/
def overlapPages (a : Area) (addr al : UInt64) : List UInt64 :=
  pagesBetween (pageAlignDown (unmapStart a addr)) (pageAlignUp (unmapEnd a addr al))

theorem mem_pagesBetween {a b v : UInt64} (ha : a.toNat % 4096 = 0) (hb : b.toNat % 4096 = 0) :
    v ∈ pagesBetween a b ↔ v.toNat % 4096 = 0 ∧ a.toNat ≤ v.toNat ∧ v.toNat < b.toNat := by
  have hblt := b.toNat_lt
  have hpage : ∀ i, i < (b.toNat - a.toNat) / 4096 →
      (a + pageSize * UInt64.ofNat i).toNat = a.toNat + 4096 * i := by
    intro i hi
    have hi' : (UInt64.ofNat i).toNat = i := UInt64.toNat_ofNat_of_lt' (show i < 2 ^ 64 by omega)
    have hmul : (pageSize * UInt64.ofNat i).toNat = 4096 * i := by
      rw [UInt64.toNat_mul, hi']
      exact Nat.mod_eq_of_lt (show 4096 * i < 2 ^ 64 by omega)
    rw [Word.toNat_add_lt (by omega), hmul]
  unfold pagesBetween
  rw [List.mem_map]
  constructor
  · rintro ⟨i, hi, rfl⟩
    have hi' := List.mem_range.mp hi
    rw [hpage i hi']
    omega
  · rintro ⟨hv, hav, hvb⟩
    have hi : (v.toNat - a.toNat) / 4096 < (b.toNat - a.toNat) / 4096 := by omega
    refine ⟨(v.toNat - a.toNat) / 4096, List.mem_range.mpr hi, UInt64.toNat_inj.mp ?_⟩
    rw [hpage _ hi]
    omega

/-- They are the pages of the area in the range. -/
theorem mem_overlapPages {a : Area} (hs : a.Sound lastEnd) (haddr : addr.toNat % 4096 = 0)
    (hal : al.toNat % 4096 = 0) (hw : addr.toNat + al.toNat < 2 ^ 64) {v : UInt64} :
    v ∈ overlapPages a addr al ↔ v.toNat % 4096 = 0 ∧ a.lo ≤ v.toNat ∧ v.toNat < a.hi ∧
      InRange addr.toNat al.toNat v := by
  have hhi : a.hi < 2 ^ 64 := lt_of_le_of_lt hs.below (by decide)
  have hend := Area.end_toNat hhi
  have hsum : (addr + al).toNat = addr.toNat + al.toNat := Word.toNat_add_lt hw
  have hlo : a.start.toNat = a.lo := rfl
  have halign := hs.startAligned
  have halign' := hs.endAligned
  have hdown : (pageAlignDown (unmapStart a addr)).toNat = max addr.toNat a.lo := by
    rw [pageAlignDown_toNat]
    unfold unmapStart
    split_ifs with hgt
    · rw [gt_iff_lt, UInt64.lt_iff_toNat_lt, hlo] at hgt
      omega
    · rw [gt_iff_lt, UInt64.lt_iff_toNat_lt, hlo] at hgt
      omega
  have hup : (pageAlignUp (unmapEnd a addr al)).toNat = min (addr.toNat + al.toNat) a.hi := by
    rw [pageAlignUp_toNat]
    unfold unmapEnd
    split_ifs with hlt
    · rw [UInt64.lt_iff_toNat_lt, hend, hsum] at hlt
      omega
    · rw [UInt64.lt_iff_toNat_lt, hend, hsum] at hlt
      omega
  unfold overlapPages InRange
  rw [mem_pagesBetween (by rw [hdown]; omega) (by rw [hup]; omega), hdown, hup]
  omega

/-! ## The loop over the slots -/

/-- `area->prot = prot` -/
def Area.protect (a : Area) (prot : UInt32) : Area := { a with prot := prot }

/-- The areas with the protection given to those that the range meets. -/
def protectAreas (f : Slot → Area) (addr al : UInt64) (prot : UInt32) (l : List Slot) : Slot → Area :=
  fun i => if i ∈ l ∧ (f i).covers addr al = true then (f i).protect prot else f i

theorem mprotectSlot_eq {ε : Type} {S : Services ε} (m : Bool) (ctx : Context) (e : ε) (i : Slot) :
    mprotectSlot S addr al prot (m, ctx, e) i =
      if (ctx.areas i).covers addr al = true then
        (true, { ctx with areas := Function.update ctx.areas i ((ctx.areas i).protect prot) },
          remapPages S e (protToPteFlags prot) (overlapPages (ctx.areas i) addr al))
      else (m, ctx, e) := by
  unfold mprotectSlot Area.covers
  dsimp only
  by_cases hact : (ctx.areas i).active = true
  · have hiff : addr ≥ (ctx.areas i).end ∨ addr + al ≤ (ctx.areas i).start ↔
        ¬ (addr < (ctx.areas i).end ∧ addr + al > (ctx.areas i).start) := by
      rw [not_and_or, UInt64.not_lt, gt_iff_lt, UInt64.not_lt]
    by_cases hc : addr < (ctx.areas i).end ∧ addr + al > (ctx.areas i).start
    · rw [if_neg (by simp [hact]), if_neg (not_not.mpr hc ∘ hiff.mp), if_pos (by simp [hact, hc])]
      rfl
    · rw [if_neg (by simp [hact]), if_pos (hiff.mpr hc), if_neg]
      simpa [hact] using hc
  · rw [if_pos (by simpa using hact), if_neg (by simp [hact])]

/-- The loop over distinct slots. -/
theorem mprotect_fold {ε : Type} {S : Services ε} (l : List Slot) : l.Nodup →
    ∀ (m : Bool) (ctx : Context) (e : ε),
      (l.foldl (mprotectSlot S addr al prot) (m, ctx, e)).2 =
        ({ ctx with areas := protectAreas ctx.areas addr al prot l },
          remapPages S e (protToPteFlags prot)
            ((l.filter fun i => (ctx.areas i).covers addr al).flatMap fun i =>
              overlapPages (ctx.areas i) addr al)) := by
  induction l with
  | nil =>
    intro _ m ctx e
    have hnone : protectAreas ctx.areas addr al prot [] = ctx.areas :=
      funext fun j => if_neg fun hc => List.not_mem_nil hc.1
    rw [hnone]
    rfl
  | cons i l ih =>
    intro hnd m ctx e
    obtain ⟨hi, hnd'⟩ := List.nodup_cons.mp hnd
    rw [List.foldl_cons, mprotectSlot_eq]
    by_cases hc : (ctx.areas i).covers addr al = true
    · have hfilter : (i :: l).filter (fun i => (ctx.areas i).covers addr al) =
          i :: l.filter fun i => (ctx.areas i).covers addr al := List.filter_cons_of_pos hc
      rw [if_pos hc, ih hnd', hfilter, List.flatMap_cons]
      have hsame : ∀ j ∈ l, Function.update ctx.areas i ((ctx.areas i).protect prot) j = ctx.areas j := by
        intro j hj
        have hji : j ≠ i := by
          rintro rfl
          exact hi hj
        exact Function.update_of_ne hji _ _
      have hareas : protectAreas (Function.update ctx.areas i ((ctx.areas i).protect prot)) addr al
          prot l = protectAreas ctx.areas addr al prot (i :: l) := by
        funext j
        unfold protectAreas
        by_cases hji : j = i
        · subst hji
          rw [if_neg fun hc' => hi hc'.1, if_pos ⟨List.mem_cons_self, hc⟩, Function.update_self]
        · rw [Function.update_of_ne hji]
          simp [hji]
      dsimp only
      rw [hareas]
      congr 1
      unfold remapPages
      rw [List.foldl_append]
      congr 1
      rw [List.filter_congr fun j hj => by rw [hsame j hj]]
      refine List.flatMap_congr fun j hj => ?_
      rw [hsame j (List.mem_filter.mp hj).1]
    · have hfilter : (i :: l).filter (fun i => (ctx.areas i).covers addr al) =
          l.filter fun i => (ctx.areas i).covers addr al := List.filter_cons_of_neg hc
      rw [if_neg hc, ih hnd', hfilter]
      have hareas : protectAreas ctx.areas addr al prot l = protectAreas ctx.areas addr al prot (i :: l) := by
        funext j
        unfold protectAreas
        by_cases hji : j = i
        · subst hji
          rw [if_neg fun hc' => hc hc'.2, if_neg fun hc' => hc hc'.2]
        · simp [hji]
      rw [hareas]

/-! ## The whole call -/

section Call

theorem findAreaAt_iff (h : Separated ctx.areas lastEnd) {i : Slot} {p : UInt64} :
    mmapFindAreaAt ctx p = some i ↔
      (ctx.areas i).active = true ∧ (ctx.areas i).lo ≤ p.toNat ∧ p.toNat < (ctx.areas i).hi := by
  have htest : ∀ j, ((ctx.areas j).active && p ≥ (ctx.areas j).start && p < (ctx.areas j).end) = true ↔
      (ctx.areas j).active = true ∧ (ctx.areas j).lo ≤ p.toNat ∧ p.toNat < (ctx.areas j).hi := by
    intro j
    simp only [Bool.and_eq_true, decide_eq_true_eq, ge_iff_le, UInt64.le_iff_toNat_le,
      UInt64.lt_iff_toNat_lt, and_assoc]
    refine and_congr_right fun hact => ?_
    rw [Area.end_toNat (lt_of_le_of_lt (h.sound j hact).below (by decide))]
    rfl
  constructor
  · intro hi
    exact (htest i).mp (firstSlot_some hi)
  · intro hi
    have hsome : (mmapFindAreaAt ctx p).isSome = true := firstSlot_isSome.mpr ⟨i, (htest i).mpr hi⟩
    obtain ⟨j, hj⟩ := Option.isSome_iff_exists.mp hsome
    have hj' := (htest j).mp (firstSlot_some hj)
    have hij : i = j := by
      by_contra hne
      rcases h.disjoint i j hne hi.1 hj'.1 with hd | hd <;> omega
    rw [hij]
    exact hj

theorem protAt_of_area (h : Separated ctx.areas lastEnd) {i : Slot} {p : UInt64}
    (hact : (ctx.areas i).active = true) (hlo : (ctx.areas i).lo ≤ p.toNat)
    (hhi : p.toNat < (ctx.areas i).hi) : protAt ctx p = some (ctx.areas i).prot := by
  unfold protAt
  rw [(findAreaAt_iff h).mpr ⟨hact, hlo, hhi⟩]
  rfl

/-- The protections recorded afterwards: those of the areas that the range meets change as a whole. -/
theorem protAt_protectAreas (n : ℤ) (p : UInt64) :
    protAt ⟨protectAreas ctx.areas addr al prot (List.finRange 256), n⟩ p =
      (mmapFindAreaAt ctx p).map fun i =>
        if (ctx.areas i).covers addr al = true then prot else (ctx.areas i).prot := by
  have hsame : ∀ i, (protectAreas ctx.areas addr al prot (List.finRange 256) i).active =
      (ctx.areas i).active ∧ (protectAreas ctx.areas addr al prot (List.finRange 256) i).start =
      (ctx.areas i).start ∧ (protectAreas ctx.areas addr al prot (List.finRange 256) i).end =
      (ctx.areas i).end := by
    intro i
    unfold protectAreas
    split_ifs <;> exact ⟨rfl, rfl, rfl⟩
  have hfind : mmapFindAreaAt ⟨protectAreas ctx.areas addr al prot (List.finRange 256), n⟩ p =
      mmapFindAreaAt ctx p := by
    unfold mmapFindAreaAt
    congr 1
    funext i
    obtain ⟨h1, h2, h3⟩ := hsame i
    dsimp only
    rw [h1, h2, h3]
  unfold protAt
  rw [hfind]
  congr 1
  funext i
  unfold protectAreas
  simp only [List.mem_finRange, true_and]
  split_ifs <;> rfl

theorem toNat_alignedLen (hw : addr.toNat + pagesLength len < 2 ^ 64) :
    (pageAlignUp len).toNat = pagesLength len := by
  rw [pageAlignUp_pagesLength]
  exact Nat.mod_eq_of_lt (by omega)

theorem covers_pagesLength (h : Separated ctx.areas lastEnd) (hw : addr.toNat + pagesLength len < 2 ^ 64)
    {i : Slot} (hact : (ctx.areas i).active = true) :
    (ctx.areas i).covers addr (pageAlignUp len) = true ↔
      addr.toNat < (ctx.areas i).hi ∧ (ctx.areas i).lo < addr.toNat + pagesLength len := by
  have hal := toNat_alignedLen hw
  have hhi : (ctx.areas i).hi < 2 ^ 64 := lt_of_le_of_lt (h.sound i hact).below (by decide)
  rw [Area.covers_iff hhi, Word.toNat_add_lt (by rw [hal]; exact hw), hal]
  exact and_iff_right hact

/-- The pages that are mapped again are those of the areas in the range. -/
theorem mem_remapped (h : Separated ctx.areas lastEnd) (haddr : addr.toNat % 4096 = 0)
    (hw : addr.toNat + pagesLength len < 2 ^ 64) {v : UInt64} :
    (v ∈ ((List.finRange 256).filter fun i => (ctx.areas i).covers addr (pageAlignUp len)).flatMap
      fun i => overlapPages (ctx.areas i) addr (pageAlignUp len)) ↔
      v.toNat % 4096 = 0 ∧ InRange addr.toNat (pagesLength len) v ∧ (protAt ctx v).isSome = true := by
  have hal := toNat_alignedLen hw
  have hw' : addr.toNat + (pageAlignUp len).toNat < 2 ^ 64 := by rw [hal]; exact hw
  have hmem : ∀ i, (ctx.areas i).active = true →
      (v ∈ overlapPages (ctx.areas i) addr (pageAlignUp len) ↔ v.toNat % 4096 = 0 ∧
        (ctx.areas i).lo ≤ v.toNat ∧ v.toNat < (ctx.areas i).hi ∧
          InRange addr.toNat (pagesLength len) v) := by
    intro i hact
    rw [← hal]
    exact mem_overlapPages (h.sound i hact) haddr (pageAlignUp_aligned len) hw'
  rw [List.mem_flatMap]
  constructor
  · rintro ⟨i, hi, hv⟩
    have hact := Area.covers_active (List.mem_filter.mp hi).2
    obtain ⟨hv1, hv2, hv3, hv4⟩ := (hmem i hact).mp hv
    refine ⟨hv1, hv4, ?_⟩
    rw [protAt_of_area h hact hv2 hv3]
    rfl
  · rintro ⟨hv1, hv2, hv3⟩
    unfold protAt at hv3
    rw [Option.isSome_map] at hv3
    obtain ⟨i, hi⟩ := Option.isSome_iff_exists.mp hv3
    obtain ⟨hact, hlo, hhi⟩ := (findAreaAt_iff h).mp hi
    have hcov : (ctx.areas i).covers addr (pageAlignUp len) = true := by
      obtain ⟨hr1, hr2⟩ := hv2
      exact (covers_pagesLength h hw hact).mpr ⟨by omega, by omega⟩
    exact ⟨i, List.mem_filter.mpr ⟨List.mem_finRange i, hcov⟩, (hmem i hact).mpr ⟨hv1, hlo, hhi, hv2⟩⟩

theorem mmapDoMprotect_eq {ε : Type} {S : Services ε} (e : ε) (h0 : len ≠ 0) :
    (mmapDoMprotect S ctx e addr len prot).2 =
      (⟨protectAreas ctx.areas addr (pageAlignUp len) prot (List.finRange 256), ctx.areaCount⟩,
        remapPages S e (protToPteFlags prot)
          (((List.finRange 256).filter fun i => (ctx.areas i).covers addr (pageAlignUp len)).flatMap
            fun i => overlapPages (ctx.areas i) addr (pageAlignUp len))) := by
  have hnd := List.nodup_finRange 256
  unfold mmapDoMprotect
  rw [if_neg h0]
  dsimp only
  generalize List.finRange 256 = l at hnd
  exact mprotect_fold l hnd false ctx e

/-- The entries change as they should, whatever the areas are. -/
theorem mprotect_entries (hS : OnPmap S src pml4) (ht : PageTables src pml4 e)
    (h : Separated ctx.areas lastEnd) (haddr : addr.toNat % 4096 = 0)
    (hw : addr.toNat + pagesLength len < 2 ^ 64) (h0 : len ≠ 0) {w : UInt64} (hal : w.toNat % 4096 = 0) :
    (Touched ctx addr.toNat (pagesLength len) w → Pmap.pmapGetPhysical e.mem pml4 w ≠ 0 →
      leaf (mmapDoMprotect S ctx e addr len prot).2.2.mem pml4 w =
        (leaf e.mem pml4 w).map (withFlags (protToPteFlags prot))) ∧
    (¬ (Touched ctx addr.toNat (pagesLength len) w ∧ Pmap.pmapGetPhysical e.mem pml4 w ≠ 0) →
      leaf (mmapDoMprotect S ctx e addr len prot).2.2.mem pml4 w = leaf e.mem pml4 w) := by
  have hmem := fun v => mem_remapped h haddr hw (v := v)
  rw [mmapDoMprotect_eq e h0]
  dsimp only
  generalize (((List.finRange 256).filter fun i => (ctx.areas i).covers addr (pageAlignUp len)).flatMap
    fun i => overlapPages (ctx.areas i) addr (pageAlignUp len)) = pages at hmem
  have htouched : Touched ctx addr.toNat (pagesLength len) w ↔ ∃ v ∈ pages, vpn v = vpn w := by
    unfold Touched
    simp only [hmem, and_assoc]
  have hleaf := (remapPages_leaf hS (pteAddr_protToPteFlags prot) pages
    (fun v hv => ((hmem v).mp hv).1) e ht).2 w hal
  rw [hleaf, htouched]
  exact ⟨fun h1 h2 => if_pos ⟨h1, h2⟩, fun hn => if_neg hn⟩

theorem protAt_mprotect {ε : Type} {S : Services ε} (e : ε) (h0 : len ≠ 0) (p : UInt64) :
    protAt (mmapDoMprotect S ctx e addr len prot).2.1 p = (mmapFindAreaAt ctx p).map fun i =>
      if (ctx.areas i).covers addr (pageAlignUp len) = true then prot else (ctx.areas i).prot := by
  rw [mmapDoMprotect_eq e h0]
  exact protAt_protectAreas ctx.areaCount p

theorem not_inRange_zero {n : ℕ} {p : UInt64} : ¬ InRange n 0 p := by
  unfold InRange
  omega

/-- An area that the range cuts has a page outside the range, whose recorded protection changes too. -/
theorem ProtectsExactly.wholeAreas (h : Separated ctx.areas lastEnd)
    (hw : addr.toNat + pagesLength len < 2 ^ 64)
    (hex : ProtectsExactly pml4 (ctx, e) (mmapDoMprotect S ctx e addr len prot).2 addr.toNat
      (pagesLength len) prot) : WholeAreas ctx addr.toNat (pagesLength len) prot := by
  intro i p hact hlo hhi hp1 hp2
  have h0 : len ≠ 0 := by
    rintro rfl
    have hz : pagesLength 0 = 0 := rfl
    omega
  by_contra hcon
  obtain ⟨hout, hprot⟩ := not_or.mp hcon
  have hcov := (covers_pagesLength h hw hact).mpr ⟨by omega, by omega⟩
  obtain ⟨q, hq, hq1, hq2⟩ : ∃ q : UInt64, ¬ InRange addr.toNat (pagesLength len) q ∧
      (ctx.areas i).lo ≤ q.toNat ∧ q.toNat < (ctx.areas i).hi := by
    unfold InRange
    by_cases hbefore : (ctx.areas i).lo < addr.toNat
    · have hq : (ctx.areas i).start.toNat = (ctx.areas i).lo := rfl
      exact ⟨(ctx.areas i).start, by omega, hq.ge, by omega⟩
    · have hq : (UInt64.ofNat (addr.toNat + pagesLength len)).toNat = addr.toNat + pagesLength len :=
        UInt64.toNat_ofNat_of_lt' hw
      exact ⟨UInt64.ofNat (addr.toNat + pagesLength len), by omega, by omega, by omega⟩
  have hkept := hex.outside q hq
  rw [protAt_mprotect e h0, (findAreaAt_iff h).mpr ⟨hact, hq1, hq2⟩, Option.map_some, if_pos hcov,
    protAt_of_area h hact hq1 hq2] at hkept
  exact hprot (Option.some.inj hkept).symm

/-- `mmap_do_mprotect` changes the recorded protections and the entries of the pages in the range exactly if it
meets areas as a whole or does not change their protection. -/
theorem mprotect_exact_iff (hS : OnPmap S src pml4) (ht : PageTables src pml4 e)
    (h : Separated ctx.areas lastEnd) (haddr : addr.toNat % 4096 = 0)
    (hw : addr.toNat + pagesLength len < 2 ^ 64) :
    ProtectsExactly pml4 (ctx, e) (mmapDoMprotect S ctx e addr len prot).2 addr.toNat (pagesLength len) prot ↔
      WholeAreas ctx addr.toNat (pagesLength len) prot := by
  refine ⟨ProtectsExactly.wholeAreas h hw, fun hwhole => ?_⟩
  by_cases h0 : len = 0
  · have hn : pagesLength len = 0 := by
      rw [h0]
      rfl
    have hres : (mmapDoMprotect S ctx e addr len prot).2 = (ctx, e) := by
      unfold mmapDoMprotect
      rw [if_pos h0]
    rw [hn, hres]
    refine ⟨fun p hp => absurd hp not_inRange_zero, fun _ _ => rfl, ?_, fun _ _ _ => rfl⟩
    rintro w - ⟨p, -, hp, -⟩ -
    exact absurd hp not_inRange_zero
  refine ⟨fun p hp => ?_, fun p hp => ?_, fun w hal => (mprotect_entries hS ht h haddr hw h0 hal).1,
    fun w hal => (mprotect_entries hS ht h haddr hw h0 hal).2⟩
  · rw [protAt_mprotect e h0]
    unfold protAt
    dsimp only
    cases hfind : mmapFindAreaAt ctx p with
    | none => rfl
    | some i =>
      obtain ⟨hact, hlo, hhi⟩ := (findAreaAt_iff h).mp hfind
      obtain ⟨hp1, hp2⟩ := hp
      rw [Option.map_some, if_pos ((covers_pagesLength h hw hact).mpr ⟨by omega, by omega⟩)]
      rfl
  · rw [protAt_mprotect e h0]
    unfold protAt
    dsimp only
    cases hfind : mmapFindAreaAt ctx p with
    | none => rfl
    | some i =>
      obtain ⟨hact, hlo, hhi⟩ := (findAreaAt_iff h).mp hfind
      rw [Option.map_some, Option.map_some]
      congr 1
      split_ifs with hcov
      · -- the area has a page in the range, and `p` is one outside
        obtain ⟨hc1, hc2⟩ := (covers_pagesLength h hw hact).mp hcov
        have hsound := (h.sound i hact).nonempty
        have hpos := pagesLength_pos h0
        unfold InRange at hp
        rcases hwhole i (max addr.toNat (ctx.areas i).lo) hact (by omega) (by omega) (by omega)
          (by omega) with hin | heq
        · omega
        · exact heq.symm
      · rfl

end Call

/-! ## An area of two pages -/

/-- The services of an address space without files. -/
def pmapOnly (src : FrameSource α) (pml4 : UInt64) : Services (Pmap.State α) where
  allocPages e := (none, e)
  freePages e _ := e
  inMainZone _ := false
  pmapMapPage e v p f :=
    (decide ((Pmap.pmapMapPage src e pml4 v p f).1 = 0), (Pmap.pmapMapPage src e pml4 v p f).2)
  pmapUnmapPage e v := Pmap.pmapUnmapPage e pml4 v
  pmapGetPhysical e v := Pmap.pmapGetPhysical e.mem pml4 v
  pagecacheFindPage e _ _ := (0, e)
  pagecacheGetPage e _ _ := (0, e)
  pagecacheSetDirty e _ := e
  pagecachePutPage e _ := e
  pagecacheSyncNode e _ := e

theorem pmapOnly_onPmap : OnPmap (pmapOnly src pml4) src pml4 :=
  ⟨fun _ _ _ _ => rfl, fun _ _ => rfl, fun _ _ => rfl⟩

theorem refines_pageTables {f : Pmap.VMap} (h : Pmap.Refines src pml4 e f) : PageTables src pml4 e :=
  ⟨h.forest, h.tree⟩

/-- Two pages at `0x400000` that can be read and written. -/
def dataPages : Context :=
  { areas := fun i => if i = 0 then ⟨0x400000, 0x2000, 3, 0x20, 0, 1, 0, true⟩ else Area.zero
    areaCount := 1 }

theorem dataPages_zero {i : Slot} (hi : (dataPages.areas i).active = true) : i = 0 := by
  by_contra hne
  have hz : dataPages.areas i = Area.zero := if_neg hne
  rw [hz] at hi
  cases hi

theorem dataPages_separated : Separated dataPages.areas lastEnd := by
  refine ⟨fun i hi => ?_, fun i j hij hi hj => absurd ((dataPages_zero hi).trans (dataPages_zero hj).symm) hij⟩
  obtain rfl := dataPages_zero hi
  exact ⟨by decide, by decide, by decide, by decide⟩

/-- The first page is mapped. -/
def firstMapped : Pmap.State ℕ :=
  (Pmap.pmapStep Pmap.bumpSource 0x1000 Pmap.bumpStart (.map 0x400000 0x700000 0x7)).2

theorem firstMapped_pageTables : PageTables Pmap.bumpSource 0x1000 firstMapped := by
  have hvalid : (Pmap.PmapOp.map 0x400000 0x700000 0x7).Valid := by
    unfold Pmap.PmapOp.Valid
    decide
  exact refines_pageTables (Pmap.bumpStart_zeroed.refines.step hvalid)

theorem mprotect_whole_area : ProtectsExactly 0x1000 (dataPages, firstMapped)
    (mmapDoMprotect (pmapOnly Pmap.bumpSource 0x1000) dataPages firstMapped 0x400000 0x2000 1).2
    (0x400000 : UInt64).toNat (pagesLength 0x2000) 1 := by
  refine (mprotect_exact_iff pmapOnly_onPmap firstMapped_pageTables dataPages_separated rfl (by decide)).mpr ?_
  intro i p hact _ _ _ _
  obtain rfl := dataPages_zero hact
  exact Or.inl (by decide)

/-- Protecting the first page changes what is recorded for the second. -/
theorem mprotect_first_page : ¬ ∀ (S : Services (Pmap.State ℕ)) (src : FrameSource ℕ) (pml4 : UInt64)
    (ctx : Context) (e : Pmap.State ℕ) (addr len : UInt64) (prot : UInt32),
    OnPmap S src pml4 → PageTables src pml4 e → Separated ctx.areas lastEnd → addr.toNat % 4096 = 0 →
      addr.toNat + pagesLength len < 2 ^ 64 →
        ProtectsExactly pml4 (ctx, e) (mmapDoMprotect S ctx e addr len prot).2 addr.toNat
          (pagesLength len) prot := by
  intro h
  have hw : (0x400000 : UInt64).toNat + pagesLength 0x1000 < 2 ^ 64 := by decide
  have hex := h (pmapOnly Pmap.bumpSource 0x1000) Pmap.bumpSource 0x1000 dataPages firstMapped 0x400000
    0x1000 1 pmapOnly_onPmap firstMapped_pageTables dataPages_separated rfl hw
  have hwhole := ProtectsExactly.wholeAreas dataPages_separated hw hex
  exact absurd (hwhole 0 0x400000 rfl (by decide) (by decide) (by decide) (by decide)) (by decide)

end Mmap
