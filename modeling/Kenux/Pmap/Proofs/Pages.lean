import Kenux.Pmap.Proofs.Entry

/-!
# Mapping and unmapping a page

`pmap_map_page` makes the missing tables (`Grown`) and then writes one entry of the last level;
`pmap_unmap_page` only writes. A write of the last level changes no walk, so it changes the
translation of exactly those addresses that use the same slot of the same page table.
-/

namespace Pmap

open TableWalk

/-- The states that table steps along the path of `v` from `r` can lead to. -/
inductive Grown {α : Type} (src : FrameSource α) (r v : UInt64) (s : State α) : State α → Prop where
  | refl : Grown src r v s s
  | tail {s₁ s₂ : State α} {t u : UInt64} {p : List (Fin 512)} {i : Fin 512}
      (h : Grown src r v s s₁) (hp : p ++ [i] <+: tablePath v)
      (hw : walk (next s₁.mem) r p = some t) (ht : TableStep src s₁ s₂ t i u) : Grown src r v s s₂

/-- The entry of the last level for `v` in page table `pt` is set to `e`. -/
def writeLeaf (m : PhysMem) (pt v e : UInt64) : PhysMem := Function.update m (slot pt (idxPt v)) e

section Grown

variable {α : Type} {src : FrameSource α} {s s' : State α} {R : Set UInt64} {r v : UInt64}

theorem prefix_length {p : List (Fin 512)} {i : Fin 512} (hp : p ++ [i] <+: tablePath v) :
    p.length < 3 := by
  have h := hp.length_le
  rw [List.length_append, List.length_singleton] at h
  exact h

theorem Grown.forest (hF : Forest src s R) (hr : r ∈ R) (h : Grown src r v s s') :
    Forest src s' R := by
  induction h with
  | refl => exact hF
  | tail _ hp hw ht ih => exact ht.forest ih hr (prefix_length hp) hw

theorem Grown.translate_eq (hF : Forest src s R) (hr : r ∈ R) (h : Grown src r v s s')
    {r' : UInt64} (hr' : r' ∈ R) (w : UInt64) :
    translate w (leaf s'.mem r' w) = translate w (leaf s.mem r' w) := by
  induction h with
  | refl => rfl
  | tail h hp hw ht ih =>
    rw [ht.translate_eq (h.forest hF hr) hr (prefix_length hp) hw hr' w, ih]

theorem Grown.walk_mono (hF : Forest src s R) (hr : r ∈ R) (h : Grown src r v s s') {r' w : UInt64}
    (hr' : r' ∈ R) {q : List (Fin 512)} (hq : q.length ≤ 3)
    (hw : walk (next s.mem) r' q = some w) : walk (next s'.mem) r' q = some w := by
  induction h with
  | refl => exact hw
  | tail h hp hwp ht ih =>
    exact ht.walk_mono (h.forest hF hr) hr (prefix_length hp) hwp hr' hq ih

theorem Grown.distinct (hF : Forest src s R) (hr : r ∈ R) (h : Grown src r v s s') {r' : UInt64}
    (hr' : r' ∈ R) (hd : Distinct (next s.mem) r' 3) : Distinct (next s'.mem) r' 3 := by
  induction h with
  | refl => exact hd
  | tail h hp hw ht ih =>
    exact ht.distinct (h.forest hF hr) hr (prefix_length hp) hw hr' ih

end Grown

section

variable {α : Type} {src : FrameSource α} {s : State α} {R : Set UInt64} {r : UInt64}

/-- `pmap_map_page` grows the tables and, when it returns 0, writes the entry of `vaddr`. -/
theorem pmapMapPage_cases (hF : Forest src s R) (hr : r ∈ R) (vaddr paddr flags : UInt64) :
    ∃ s₁, Grown src r vaddr s s₁ ∧
      (pmapMapPage src s r vaddr paddr flags = (-1, s₁) ∨
        ∃ pt, walk (next s₁.mem) r (tablePath vaddr) = some pt ∧
          pmapMapPage src s r vaddr paddr flags = (0, { s₁ with
            mem := writeLeaf s₁.mem pt vaddr (pteFlags paddr (flags ||| pagePresent)) })) := by
  obtain ⟨hra, hr0⟩ := hF.roots r hr
  have hw0 : walk (next s.mem) r [] = some r := rfl
  have st1 := pmapGetOrAllocTable_step src s (idxPml4 vaddr) hra
  unfold pmapMapPage
  simp only [hr0, if_false]
  generalize pmapGetOrAllocTable src s (slot r (idxPml4 vaddr)) = o1 at *
  obtain ⟨pdpt, s1⟩ := o1
  dsimp only at st1 ⊢
  have g1 : Grown src r vaddr s s1 := .tail .refl ⟨_, rfl⟩ hw0 st1
  by_cases h1 : pdpt = 0
  · exact ⟨s1, g1, Or.inl (by rw [if_pos h1])⟩
  have hF1 := g1.forest hF hr
  have hw1 := st1.walk_snoc_eq hF hr (p := []) (by simp) hw0 h1
  have st2 := pmapGetOrAllocTable_step src s1 (idxPdpt vaddr)
    (hF1.aligned hr hw1)
  rw [if_neg h1]
  generalize pmapGetOrAllocTable src s1 (slot pdpt (idxPdpt vaddr)) = o2 at *
  obtain ⟨pd, s2⟩ := o2
  dsimp only at st2 ⊢
  have g2 : Grown src r vaddr s s2 := .tail g1 ⟨_, rfl⟩ hw1 st2
  by_cases h2 : pd = 0
  · exact ⟨s2, g2, Or.inl (by rw [if_pos h2])⟩
  have hF2 := g2.forest hF hr
  have hw2 := st2.walk_snoc_eq hF1 hr (by simp) hw1 h2
  have st3 := pmapGetOrAllocTable_step src s2 (idxPd vaddr)
    (hF2.aligned hr hw2)
  rw [if_neg h2]
  generalize pmapGetOrAllocTable src s2 (slot pd (idxPd vaddr)) = o3 at *
  obtain ⟨pt, s3⟩ := o3
  dsimp only at st3 ⊢
  have g3 : Grown src r vaddr s s3 := .tail g2 ⟨_, rfl⟩ hw2 st3
  by_cases h3 : pt = 0
  · exact ⟨s3, g3, Or.inl (by rw [if_pos h3])⟩
  rw [if_neg h3]
  exact ⟨s3, g3, Or.inr ⟨pt, st3.walk_snoc_eq hF2 hr (by simp) hw2 h3, rfl⟩⟩

/-- `pmap_unmap_page` clears the entry of `vaddr` if there is a page table for it. -/
theorem pmapUnmapPage_cases (hF : Forest src s R) (hr : r ∈ R) (vaddr : UInt64) :
    (walk (next s.mem) r (tablePath vaddr) = none ∧ pmapUnmapPage s r vaddr = s) ∨
      ∃ pt, walk (next s.mem) r (tablePath vaddr) = some pt ∧
        pmapUnmapPage s r vaddr = { s with mem := writeLeaf s.mem pt vaddr 0 } := by
  obtain ⟨hra, hr0⟩ := hF.roots r hr
  unfold pmapUnmapPage tablePath
  simp only [hr0, if_false, walk_cons]
  by_cases h1 : s.mem.entry r (idxPml4 vaddr) &&& pagePresent = 0
  · left
    simp [next_of_absent, h1]
  have n1 := next_of_present hra h1
  simp only [h1, if_false, n1, Option.bind_some]
  have a1 : (pteAddr (s.mem.entry r (idxPml4 vaddr))).toNat % 4096 = 0 := (pteAddr_isFrame _).1
  generalize pteAddr (s.mem.entry r (idxPml4 vaddr)) = pdpt at *
  by_cases h2 : s.mem.entry pdpt (idxPdpt vaddr) &&& pagePresent = 0
  · left
    simp [next_of_absent, h2]
  have n2 := next_of_present a1 h2
  simp only [h2, if_false, n2, Option.bind_some]
  have a2 : (pteAddr (s.mem.entry pdpt (idxPdpt vaddr))).toNat % 4096 = 0 := (pteAddr_isFrame _).1
  generalize pteAddr (s.mem.entry pdpt (idxPdpt vaddr)) = pd at *
  by_cases h3 : s.mem.entry pd (idxPd vaddr) &&& pagePresent = 0
  · left
    simp [next_of_absent, h3]
  right
  refine ⟨pteAddr (s.mem.entry pd (idxPd vaddr)), by simp [next_of_present a2 h3], ?_⟩
  simp only [h3, if_false]
  rfl

/-! ## Writes of the last level -/

variable {pt v e : UInt64} (hF : Forest src s R) (hr : r ∈ R)
  (hw : walk (next s.mem) r (tablePath v) = some pt)

include hF hr hw

theorem writeLeaf_next {r' t : UInt64} {q : List (Fin 512)} (hr' : r' ∈ R) (hq : q.length < 3)
    (hwq : walk (next s.mem) r' q = some t) (i : Fin 512) :
    next (writeLeaf s.mem pt v e) t i = next s.mem t i := by
  refine next_congr fun ht => ?_
  rw [writeLeaf, entry_update (hF.aligned hr hw) ht, if_neg]
  rintro ⟨rfl, -⟩
  exact hF.not_above hr hr' rfl hw hq hwq rfl

theorem writeLeaf_walk {r' : UInt64} (hr' : r' ∈ R) {q : List (Fin 512)} (hq : q.length ≤ 3) :
    walk (next (writeLeaf s.mem pt v e)) r' q = walk (next s.mem) r' q :=
  walk_congr (fun _ _ hp hwp i => writeLeaf_next hF hr hw hr' hp hwp i) q hq

theorem writeLeaf_forest : Forest src { s with mem := writeLeaf s.mem pt v e } R where
  roots := hF.roots
  inUse r' hr' q u hq hwq := by
    rw [writeLeaf_walk hF hr hw hr' hq] at hwq
    exact hF.inUse r' hr' q u hq hwq
  leveled r₁ hr₁ r₂ hr₂ p q u hp hq hwp hwq := by
    rw [writeLeaf_walk hF hr hw hr₁ hp] at hwp
    rw [writeLeaf_walk hF hr hw hr₂ hq] at hwq
    exact hF.leveled r₁ hr₁ r₂ hr₂ p q u hp hq hwp hwq
  tables r' hr' q t i u hq hwq hn := by
    rw [writeLeaf_walk hF hr hw hr' hq.le] at hwq
    rw [writeLeaf_next hF hr hw hr' hq hwq] at hn
    have ht : t ≠ pt := hF.not_above hr hr' rfl hw hq hwq
    dsimp only
    rw [writeLeaf, entry_update (hF.aligned hr hw) (hF.aligned hr' hwq),
      if_neg (fun h => ht h.1)]
    exact hF.tables r' hr' q t i u hq hwq hn

theorem writeLeaf_leaf {r' : UInt64} (hr' : r' ∈ R) (w : UInt64) :
    leaf (writeLeaf s.mem pt v e) r' w =
      if walk (next s.mem) r' (tablePath w) = some pt ∧ idxPt w = idxPt v then some e
      else leaf s.mem r' w := by
  unfold leaf
  rw [writeLeaf_walk hF hr hw hr' (le_refl 3)]
  cases hwq : walk (next s.mem) r' (tablePath w) with
  | none => simp
  | some t =>
    rw [Option.map_some, Option.map_some, writeLeaf,
      entry_update (hF.aligned hr hw) (hF.aligned hr' hwq)]
    simp only [Option.some.injEq]
    split_ifs <;> rfl

theorem writeLeaf_distinct {r' : UInt64} (hr' : r' ∈ R) (hd : Distinct (next s.mem) r' 3) :
    Distinct (next (writeLeaf s.mem pt v e)) r' 3 := by
  intro p q t hp hq hwp hwq
  rw [writeLeaf_walk hF hr hw hr' hp] at hwp
  rw [writeLeaf_walk hF hr hw hr' hq] at hwq
  exact hd p q t hp hq hwp hwq

end

end Pmap
