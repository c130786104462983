import Kenux.Pmap.Proofs.Pages

/-!
# The page tables of one address space refine a finite map
-/

namespace Pmap

open TableWalk Run

/-- The joint invariant: the tables form a tree and translate as the map says. -/
structure Refines {α : Type} (src : FrameSource α) (pml4 : UInt64) (s : State α) (f : VMap) : Prop where
  forest : Forest src s {pml4}
  tree : Distinct (next s.mem) pml4 3
  agree : ∀ v, translate v (leaf s.mem pml4 v) = f.lookup v

theorem offset_eq_mod (v : UInt64) : v &&& 0xFFF = v % 4096 := by
  apply UInt64.toNat_inj.mp
  have h := Word.toNat_and_field (a := v) (m := 0xFFF) 0 12 (by decide)
  rw [h, UInt64.toNat_mod]
  change v.toNat / 2 ^ 0 % 2 ^ 12 * 2 ^ 0 = v.toNat % 4096
  omega

theorem translate_mapped {paddr flags : UInt64} (hp : paddr.toNat % 4096 = 0 ∧ paddr.toNat < 2 ^ 52)
    (hf : pteAddr flags = 0) (w : UInt64) :
    translate w (some (pteFlags paddr (flags ||| pagePresent))) = paddr + w % 4096 := by
  unfold translate
  simp only [present_pteFlags, if_false]
  rw [pteAddr_pteFlags hp (pteAddr_or_present hf), offset_eq_mod]

section

variable {α : Type} {src : FrameSource α} {s : State α} {pml4 : UInt64} {f : VMap}

theorem ZeroedPml4.walk_eq (h : ZeroedPml4 src s pml4) {q : List (Fin 512)} {u : UInt64}
    (hw : walk (next s.mem) pml4 q = some u) : q = [] ∧ u = pml4 := by
  cases q with
  | nil => exact ⟨rfl, (Option.some.inj hw).symm⟩
  | cons i q =>
    rw [walk_cons, next_of_absent (by rw [h.zeroed]; decide)] at hw
    exact absurd hw (by simp)

theorem ZeroedPml4.refines (h : ZeroedPml4 src s pml4) : Refines src pml4 s fun _ => none where
  forest :=
    { roots := by
        rintro r rfl
        exact ⟨h.aligned, h.notNull⟩
      inUse := by
        rintro r rfl q u - hw
        rw [(h.walk_eq hw).2]
        exact h.inUse
      leveled := by
        rintro r rfl r' rfl p q t - - hp hq
        rw [(h.walk_eq hp).1, (h.walk_eq hq).1]
      tables := by
        rintro r rfl q t i u - hw hn
        rw [(h.walk_eq hw).2, next_of_absent (by rw [h.zeroed]; decide)] at hn
        exact absurd hn (by simp) }
  tree p q t _ _ hp hq := by rw [(h.walk_eq hp).1, (h.walk_eq hq).1]
  agree v := by
    cases hw : walk (next s.mem) pml4 (tablePath v) with
    | none => simp [leaf, hw, translate, VMap.lookup]
    | some u => exact absurd (h.walk_eq hw).1 (by simp [tablePath])

/-- In a tree the write of one entry retranslates one virtual page. -/
theorem Refines.writeLeaf (h : Refines src pml4 s f) {pt v : UInt64} (e : UInt64)
    (o : Option UInt64) (hw : walk (next s.mem) pml4 (tablePath v) = some pt)
    (he : ∀ w, translate w (some e) = VMap.lookup (fun _ => o) w) :
    Refines src pml4 { s with mem := writeLeaf s.mem pt v e } (Function.update f (vpn v) o) where
  forest := writeLeaf_forest h.forest rfl hw
  tree := writeLeaf_distinct h.forest rfl hw rfl h.tree
  agree w := by
    dsimp only
    rw [writeLeaf_leaf h.forest rfl hw rfl]
    by_cases hv : vpn w = vpn v
    · obtain ⟨h1, h2⟩ := (vpn_eq_iff w v).mp hv
      rw [if_pos ⟨h1 ▸ hw, h2⟩, he]
      simp [VMap.lookup, hv]
    · rw [if_neg, h.agree w]
      · simp [VMap.lookup, Function.update_of_ne hv]
      · rintro ⟨hww, hi⟩
        exact hv ((vpn_eq_iff w v).mpr ⟨h.tree _ _ _ (le_refl 3) (le_refl 3) hww hw, hi⟩)

theorem Refines.grown (h : Refines src pml4 s f) {s' : State α} {v : UInt64}
    (hg : Grown src pml4 v s s') : Refines src pml4 s' f where
  forest := hg.forest h.forest rfl
  tree := hg.distinct h.forest rfl rfl h.tree
  agree w := by rw [hg.translate_eq h.forest rfl rfl, h.agree]

/-- One operation keeps the joint invariant. -/
theorem Refines.step (h : Refines src pml4 s f) {op : PmapOp} (hop : op.Valid) :
    Refines src pml4 (pmapStep src pml4 s op).2 (f.apply (pmapStep src pml4 s op).1 op) := by
  cases op with
  | map v p fl =>
    obtain ⟨hp1, hp2, hfl, -⟩ := hop
    obtain ⟨s₁, hg, hres | ⟨pt, hw, hres⟩⟩ := pmapMapPage_cases h.forest rfl v p fl
    · simp only [pmapStep, hres, VMap.apply]
      exact h.grown hg
    · simp only [pmapStep, hres, VMap.apply, if_true]
      exact (h.grown hg).writeLeaf _ (some p) hw fun w => translate_mapped ⟨hp1, hp2⟩ hfl w
  | unmap v =>
    rcases pmapUnmapPage_cases h.forest rfl v with ⟨hw, hres⟩ | ⟨pt, hw, hres⟩
    · simp only [pmapStep, hres, VMap.apply]
      refine ⟨h.forest, h.tree, fun w => ?_⟩
      by_cases hv : vpn w = vpn v
      · rw [leaf, ((vpn_eq_iff w v).mp hv).1, hw]
        simp [VMap.lookup, hv, translate]
      · rw [h.agree]
        simp [VMap.lookup, Function.update_of_ne hv]
    · simp only [pmapStep, hres, VMap.apply]
      exact h.writeLeaf 0 none hw fun w => by simp [translate, VMap.lookup]

theorem Refines.reach (h : Refines src pml4 s f) {x : State α × VMap}
    (hx : Reach (jointStep src pml4) (fun _ op => op.Valid) (s, f) x) :
    Refines src pml4 x.1 x.2 := by
  refine Reach.invariant (I := fun x => Refines src pml4 x.1 x.2) h ?_ hx
  intro x op y hI hop hst
  obtain rfl := Option.some.inj hst
  exact hI.step hop

theorem Refines.getPhysical (h : Refines src pml4 s f) (v : UInt64) :
    pmapGetPhysical s.mem pml4 v = f.lookup v := by
  rw [h.forest.pmapGetPhysical_eq rfl, h.agree]

end

/-- Over every sequence of valid maps and unmaps on a top-level table that starts zeroed,
`pmap_get_physical` is lookup in a finite map, and an operation on one page leaves the translation
of every other page alone. -/
theorem pmap_refines_finite_map {α : Type} (src : FrameSource α) {s₀ : State α} {pml4 : UInt64}
    (h₀ : ZeroedPml4 src s₀ pml4) {s : State α} {f : VMap}
    (h : Reach (jointStep src pml4) (fun _ op => op.Valid) (s₀, fun _ => none) (s, f)) :
    (∀ v, pmapGetPhysical s.mem pml4 v = f.lookup v) ∧
      ∀ op : PmapOp, op.Valid → ∀ w, vpn w ≠ vpn op.vaddr →
        pmapGetPhysical (pmapStep src pml4 s op).2.mem pml4 w = pmapGetPhysical s.mem pml4 w := by
  have hR : Refines src pml4 s f := h₀.refines.reach h
  refine ⟨hR.getPhysical, fun op hop w hw => ?_⟩
  rw [(hR.step hop).getPhysical, hR.getPhysical]
  cases op with
  | map v p fl =>
    have hv : vpn w ≠ vpn v := hw
    unfold VMap.apply VMap.lookup
    dsimp only
    split_ifs
    · rw [Function.update_of_ne hv]
    · rfl
  | unmap v =>
    have hv : vpn w ≠ vpn v := hw
    unfold VMap.apply VMap.lookup
    dsimp only
    rw [Function.update_of_ne hv]

/-- A frame source that hands out the frames from `0x2000` up one after the other. -/
def bumpSource : FrameSource ℕ where
  alloc n := if n < 2 ^ 39 then (UInt64.ofNat (4096 * (n + 2)), n + 1) else (0, n)
  inUse n := {t | t.toNat < 4096 * (n + 2)}
  keeps n := by
    intro t ht
    simp only [Set.mem_ofPred_eq] at ht ⊢
    split_ifs <;> dsimp only <;> omega
  takes n h := by
    split_ifs at h ⊢ with hn
    · simp only [Set.mem_ofPred_eq, UInt64.toNat_ofNat']
      omega
    · exact absurd rfl h
  fresh n h := by
    split_ifs at h ⊢ with hn
    · simp only [Set.mem_ofPred_eq, UInt64.toNat_ofNat']
      omega
    · exact absurd rfl h
  aligned n := by
    split_ifs with hn
    · simp only [UInt64.toNat_ofNat']
      omega
    · rfl
  bounded n := by
    split_ifs with hn
    · simp only [UInt64.toNat_ofNat']
      omega
    · simp

/-- Zeroed memory, with the current top-level table at `0x1000`. -/
def bumpStart : State ℕ := ⟨fun _ => 0, 0, 0x1000⟩

theorem bumpStart_zeroed : ZeroedPml4 bumpSource bumpStart 0x1000 where
  notNull := by decide
  aligned := by decide
  inUse := by
    change (0x1000 : UInt64).toNat < 4096 * (0 + 2)
    decide
  zeroed _ := rfl

theorem pmap_refines_finite_map_one_page :
    pmapGetPhysical (pmapStep bumpSource 0x1000 bumpStart (.map 0x400000 0x700000 0x7)).2.mem
      0x1000 0x400123 = 0x700123 := by
  have h := (pmap_refines_finite_map bumpSource bumpStart_zeroed
    (.step (.map 0x400000 0x700000 0x7) .start (by unfold PmapOp.Valid; decide) rfl)).1 0x400123
  refine h.trans ?_
  decide +kernel

end Pmap

/-!
## Mapping a mapped page again

A page that is mapped has its tables, so unmapping it and mapping it again needs no memory. It changes the
entry of that page and no other.
-/

namespace Pmap

open TableWalk

variable {α : Type} {src : FrameSource α} {s : State α} {pml4 pt v w paddr flags e : UInt64}

/-- The tables below a top-level table form a tree. -/
structure PageTables (src : FrameSource α) (pml4 : UInt64) (s : State α) : Prop where
  forest : Forest src s {pml4}
  tree : Distinct (next s.mem) pml4 3

theorem pmapGetOrAllocTable_found {t u : UInt64} {i : Fin 512} (h : next s.mem t i = some u) :
    pmapGetOrAllocTable src s (slot t i) = (u, s) := by
  obtain ⟨-, hp, hu⟩ := next_eq_some.mp h
  have hp' : s.mem (slot t i) &&& pagePresent ≠ 0 := hp
  have hu' : pteAddr (s.mem (slot t i)) = u := hu
  unfold pmapGetOrAllocTable
  rw [if_pos hp', hu']

/-- With its tables in place a page is mapped without an allocation. -/
theorem PageTables.pmapMapPage (h : PageTables src pml4 s)
    (hw : walk (next s.mem) pml4 (tablePath v) = some pt) :
    pmapMapPage src s pml4 v paddr flags =
      (0, { s with mem := writeLeaf s.mem pt v (pteFlags paddr (flags ||| pagePresent)) }) := by
  have h0 : pml4 ≠ 0 := (h.forest.roots pml4 rfl).2
  have hroot : walk (next s.mem) pml4 [] = some pml4 := rfl
  unfold tablePath at hw
  obtain ⟨pdpt, h1, hw1⟩ := Option.bind_eq_some_iff.mp hw
  obtain ⟨pd, h2, hw2⟩ := Option.bind_eq_some_iff.mp hw1
  obtain ⟨pt', h3, hw3⟩ := Option.bind_eq_some_iff.mp hw2
  obtain rfl := Option.some.inj hw3
  have hpdpt : walk (next s.mem) pml4 [idxPml4 v] = some pdpt := by
    rw [walk_cons, h1]
    rfl
  have hpd : walk (next s.mem) pml4 [idxPml4 v, idxPdpt v] = some pd := by
    rw [walk_cons, h1, Option.bind_some, walk_cons, h2]
    rfl
  have n1 := (h.forest.tables pml4 rfl [] _ _ _ (by simp) hroot h1).1
  have n2 := (h.forest.tables pml4 rfl _ _ _ _ (by simp) hpdpt h2).1
  have n3 := (h.forest.tables pml4 rfl _ _ _ _ (by simp) hpd h3).1
  unfold Pmap.pmapMapPage
  rw [if_neg h0, pmapGetOrAllocTable_found h1]
  dsimp only
  rw [if_neg n1, pmapGetOrAllocTable_found h2]
  dsimp only
  rw [if_neg n2, pmapGetOrAllocTable_found h3]
  dsimp only
  rw [if_neg n3]
  rfl

theorem PageTables.writeLeaf (h : PageTables src pml4 s)
    (hw : walk (next s.mem) pml4 (tablePath v) = some pt) :
    PageTables src pml4 { s with mem := Pmap.writeLeaf s.mem pt v e } where
  forest := writeLeaf_forest h.forest rfl hw
  tree := writeLeaf_distinct h.forest rfl hw rfl h.tree

/-- In a tree the write of one entry is seen by one virtual page. -/
theorem PageTables.leaf_writeLeaf (h : PageTables src pml4 s)
    (hw : walk (next s.mem) pml4 (tablePath v) = some pt) (w : UInt64) :
    leaf (Pmap.writeLeaf s.mem pt v e) pml4 w =
      if vpn w = vpn v then some e else leaf s.mem pml4 w := by
  rw [writeLeaf_leaf h.forest rfl hw rfl]
  refine if_congr ?_ rfl rfl
  rw [vpn_eq_iff]
  constructor
  · rintro ⟨hww, hi⟩
    exact ⟨h.tree _ _ _ (le_refl 3) (le_refl 3) hww hw, hi⟩
  · rintro ⟨hp, hi⟩
    exact ⟨hp ▸ hw, hi⟩

/-- A page that translates to something has an entry. -/
theorem PageTables.walk_of_mapped (h : PageTables src pml4 s) (hv : pmapGetPhysical s.mem pml4 v ≠ 0) :
    ∃ pt, walk (next s.mem) pml4 (tablePath v) = some pt := by
  rw [h.forest.pmapGetPhysical_eq rfl] at hv
  cases hw : walk (next s.mem) pml4 (tablePath v) with
  | some pt => exact ⟨pt, rfl⟩
  | none =>
    unfold leaf at hv
    rw [hw] at hv
    exact absurd rfl hv

/-- What a page that is unmapped and mapped again leaves. -/
theorem PageTables.remap (h : PageTables src pml4 s) (hv : pmapGetPhysical s.mem pml4 v ≠ 0) :
    PageTables src pml4 (Pmap.pmapMapPage src (pmapUnmapPage s pml4 v) pml4 v paddr flags).2 ∧
      ∀ w, leaf (Pmap.pmapMapPage src (pmapUnmapPage s pml4 v) pml4 v paddr flags).2.mem pml4 w =
        if vpn w = vpn v then some (pteFlags paddr (flags ||| pagePresent)) else leaf s.mem pml4 w := by
  obtain ⟨pt, hw⟩ := h.walk_of_mapped hv
  obtain ⟨hnone, -⟩ | ⟨pt', hw', hunmap⟩ := pmapUnmapPage_cases h.forest rfl v
  · rw [hw] at hnone
    exact absurd hnone (by simp)
  have hclear := h.writeLeaf (e := 0) hw'
  have hwalk : walk (next (Pmap.writeLeaf s.mem pt' v 0)) pml4 (tablePath v) = some pt' := by
    rw [writeLeaf_walk h.forest rfl hw' rfl (le_refl 3)]
    exact hw'
  rw [hunmap, hclear.pmapMapPage hwalk]
  refine ⟨hclear.writeLeaf hwalk, fun w => ?_⟩
  dsimp only
  rw [hclear.leaf_writeLeaf hwalk, h.leaf_writeLeaf hw']
  split_ifs <;> rfl

end Pmap
