import Kenux.Pmap.Proofs.Refinement

/-!
# Two address spaces

`pmap_create` copies the whole top level of the current tables, so the new address space shares every
table that hangs off a slot present at that moment. Off the other slots the two spaces have no table
in common (`Apart`), and nothing done there in one of them is seen in the other.
-/

namespace Pmap

open TableWalk Run

/-- Tables common to `A` and `B` hang off slots of `S` in both. -/
def Apart (m : PhysMem) (A B : UInt64) (S : Set (Fin 512)) : Prop :=
  ∀ p q t, p.length ≤ 3 → q.length ≤ 3 → walk (next m) A p = some t → walk (next m) B q = some t →
    (∃ i ∈ p.head?, i ∈ S) ∧ ∃ i ∈ q.head?, i ∈ S

theorem Apart.symm {m : PhysMem} {A B : UInt64} {S : Set (Fin 512)} (h : Apart m A B S) :
    Apart m B A S :=
  fun p q t hp hq hwp hwq => (h q p t hq hp hwq hwp).symm

theorem tablePath_head (v : UInt64) : (tablePath v).head? = some (idxPml4 v) := rfl

section

variable {α : Type} {src : FrameSource α} {s s' : State α} {R : Set UInt64} {A B : UInt64}
variable {S : Set (Fin 512)}

/-! ## Operations off the shared slots -/

/-- A table step of `B` off the shared slots keeps the spaces apart. -/
theorem Apart.tableStep (h : Apart s.mem A B S) (hF : Forest src s R) (hA : A ∈ R) (hB : B ∈ R)
    {t u v : UInt64} {p : List (Fin 512)} {i : Fin 512} (hp : p ++ [i] <+: tablePath v)
    (hv : idxPml4 v ∉ S) (hw : walk (next s.mem) B p = some t) (ht : TableStep src s s' t i u) :
    Apart s'.mem A B S := by
  cases ht with
  | found _ hs => rw [hs]; exact h
  | failed _ hm _ => rw [hm]; exact h
  | made hu hf hn hent hnew hold hi =>
    have hlen := prefix_length hp
    have hl := link_of_made hF hB hlen hw hf hn hent hnew
    have hhead : ∀ j ∈ p.head?, j ∉ S := by
      intro j hj
      cases p with
      | nil => simp at hj
      | cons k p =>
        obtain rfl : k = idxPml4 v := by
          have := List.cons_prefix_cons.mp hp
          exact this.1
        simp at hj
        exact hj ▸ hv
    -- `A` does not reach `t`, so its walks are unchanged
    have hAt : Fresh (next s.mem) 3 A t := by
      intro q hq hwq
      obtain ⟨-, j, hj, hjS⟩ := h q p t hq (by omega) hwq hw
      exact hhead j hj hjS
    intro a b w ha hb hwa hwb
    rw [hl.walk_eq (hF.fresh hA hnew) hAt ha] at hwa
    rcases (hl.walk_iff (hF.fresh hB hnew) b w hb).mp hwb with hwb | ⟨rfl, -⟩
    · exact h a b w ha hb hwa hwb
    · exact absurd hwa (hF.fresh hA hnew a ha)

theorem Apart.grown (h : Apart s.mem A B S) (hF : Forest src s R) (hA : A ∈ R) (hB : B ∈ R)
    {v : UInt64} (hv : idxPml4 v ∉ S) (hg : Grown src B v s s') : Apart s'.mem A B S := by
  induction hg with
  | refl => exact h
  | tail hg hp hw ht ih => exact ih.tableStep (hg.forest hF hB) hA hB hp hv hw ht

theorem Apart.writeLeaf (h : Apart s.mem A B S) (hF : Forest src s R) (hA : A ∈ R) (hB : B ∈ R)
    {v pt e : UInt64} (hw : walk (next s.mem) B (tablePath v) = some pt) :
    Apart (writeLeaf s.mem pt v e) A B S := by
  intro p q t hp hq hwp hwq
  rw [writeLeaf_walk hF hB hw hA hp] at hwp
  rw [writeLeaf_walk hF hB hw hB hq] at hwq
  exact h p q t hp hq hwp hwq

/-- A write in `B` off the shared slots is not seen in `A`. -/
theorem Apart.leaf_eq (h : Apart s.mem A B S) (hF : Forest src s R) (hA : A ∈ R) (hB : B ∈ R)
    {v pt e : UInt64} (hv : idxPml4 v ∉ S) (hw : walk (next s.mem) B (tablePath v) = some pt)
    (w : UInt64) : leaf (Pmap.writeLeaf s.mem pt v e) A w = leaf s.mem A w := by
  rw [writeLeaf_leaf hF hB hw hA, if_neg]
  rintro ⟨hwA, -⟩
  obtain ⟨-, i, hi, hiS⟩ := h _ _ pt (le_refl 3) (le_refl 3) hwA hw
  rw [tablePath_head] at hi
  exact hv (Option.some.inj hi ▸ hiS)

/-- The invariant of two address spaces in one forest. -/
structure Spaces (src : FrameSource α) (R : Set UInt64) (A B : UInt64) (S : Set (Fin 512))
    (s : State α) : Prop where
  forest : Forest src s R
  memA : A ∈ R
  memB : B ∈ R
  apart : Apart s.mem A B S

theorem Spaces.symm (h : Spaces src R A B S s) : Spaces src R B A S s :=
  ⟨h.forest, h.memB, h.memA, h.apart.symm⟩

/-- An operation on `B` off the shared slots keeps the invariant and every translation of `A`. -/
theorem Spaces.step (h : Spaces src R A B S s) {op : PmapOp} (hop : idxPml4 op.vaddr ∉ S) :
    Spaces src R A B S (pmapStep src B s op).2 ∧
      ∀ w, pmapGetPhysical (pmapStep src B s op).2.mem A w = pmapGetPhysical s.mem A w := by
  obtain ⟨hF, hA, hB, hap⟩ := h
  cases op with
  | map v p fl =>
    have hv : idxPml4 v ∉ S := hop
    obtain ⟨s₁, hg, hres | ⟨pt, hw, hres⟩⟩ := pmapMapPage_cases hF hB v p fl
    · have hF₁ := hg.forest hF hB
      simp only [pmapStep, hres]
      refine ⟨⟨hF₁, hA, hB, hap.grown hF hA hB hv hg⟩, fun w => ?_⟩
      rw [hF₁.pmapGetPhysical_eq hA, hF.pmapGetPhysical_eq hA, hg.translate_eq hF hB hA]
    · have hF₁ := hg.forest hF hB
      have hap₁ := hap.grown hF hA hB hv hg
      have hF₂ := writeLeaf_forest (e := pteFlags p (fl ||| pagePresent)) hF₁ hB hw
      simp only [pmapStep, hres]
      refine ⟨⟨hF₂, hA, hB, hap₁.writeLeaf hF₁ hA hB hw⟩, fun w => ?_⟩
      rw [hF₂.pmapGetPhysical_eq hA, hF.pmapGetPhysical_eq hA, hap₁.leaf_eq hF₁ hA hB hv hw,
        hg.translate_eq hF hB hA]
  | unmap v =>
    have hv : idxPml4 v ∉ S := hop
    rcases pmapUnmapPage_cases hF hB v with ⟨-, hres⟩ | ⟨pt, hw, hres⟩
    · have he : pmapStep src B s (.unmap v) = (0, s) := by rw [pmapStep, hres]
      rw [he]
      exact ⟨⟨hF, hA, hB, hap⟩, fun _ => rfl⟩
    · have hF₂ := writeLeaf_forest (e := 0) hF hB hw
      simp only [pmapStep, hres]
      refine ⟨⟨hF₂, hA, hB, hap.writeLeaf hF hA hB hw⟩, fun w => ?_⟩
      rw [hF₂.pmapGetPhysical_eq hA, hF.pmapGetPhysical_eq hA, hap.leaf_eq hF hA hB hv hw]

/-! ## Creating an address space -/

/-- The slots of the top level of `A` that are present. -/
def presentSlots (m : PhysMem) (A : UInt64) : Set (Fin 512) :=
  {i | m.entry A i &&& pagePresent ≠ 0}

section Create

variable (hF : Forest src s R) (hA : s.currentPml4 ∈ R) (hc : pmapCreate src s = (B, s'))
  (hB0 : B ≠ 0)

include hF hA hc hB0

theorem pmapCreate_spec : IsFrame B ∧ B ∉ src.inUse s.heap ∧ B ∈ src.inUse s'.heap ∧
    src.inUse s.heap ⊆ src.inUse s'.heap ∧
    ∀ w j, w.toNat % 4096 = 0 → s'.mem.entry w j =
      if w = B then s.mem.entry s.currentPml4 j else s.mem.entry w j := by
  obtain ⟨hAa, hA0⟩ := hF.roots _ hA
  unfold pmapCreate at hc
  dsimp only at hc
  by_cases h0 : (src.alloc s.heap).1 = 0
  · rw [if_pos h0] at hc
    exact absurd (Prod.mk.inj hc).1.symm hB0
  rw [if_neg h0, if_pos hA0] at hc
  obtain ⟨hB, hs⟩ := Prod.mk.inj hc
  have hf : IsFrame (src.alloc s.heap).1 := ⟨src.aligned _, src.bounded _⟩
  have hnew := src.fresh s.heap h0
  rw [← hs, ← hB]
  refine ⟨hf, hnew, src.takes _ h0, src.keeps _, fun w j hw => ?_⟩
  have hne : s.currentPml4 ≠ (src.alloc s.heap).1 :=
    fun e => hnew (e ▸ hF.inUse _ hA [] _ (by simp) rfl)
  dsimp only
  rw [entry_copyPage hf.1 hw, entry_zeroPage hf.1 hAa, entry_zeroPage hf.1 hw, if_neg hne]
  split_ifs <;> rfl

theorem pmapCreate_next_other {t : UInt64} (ht : t ≠ B) (i : Fin 512) :
    next s'.mem t i = next s.mem t i := by
  obtain ⟨-, -, -, -, hent⟩ := pmapCreate_spec hF hA hc hB0
  refine next_congr fun ha => ?_
  rw [hent t i ha, if_neg ht]

theorem pmapCreate_walk_old {r : UInt64} (hr : r ∈ R) {q : List (Fin 512)} (hq : q.length ≤ 3) :
    walk (next s'.mem) r q = walk (next s.mem) r q := by
  obtain ⟨-, hnew, -, -, -⟩ := pmapCreate_spec hF hA hc hB0
  refine walk_congr (fun p t hp hw i => pmapCreate_next_other hF hA hc hB0 ?_ i) q hq
  rintro rfl
  exact hF.fresh hr hnew p hp.le hw

theorem pmapCreate_next_new (i : Fin 512) : next s'.mem B i = next s'.mem s.currentPml4 i := by
  obtain ⟨hf, hnew, -, -, hent⟩ := pmapCreate_spec hF hA hc hB0
  obtain ⟨hAa, -⟩ := hF.roots _ hA
  have hne : s.currentPml4 ≠ B := fun e => hnew (e ▸ hF.inUse _ hA [] _ (by simp) rfl)
  unfold next
  rw [hent B i hf.1, hent _ i hAa, if_pos rfl, if_neg hne]
  simp [hf.1, hAa]

theorem pmapCreate_walk_new {q : List (Fin 512)} {i : Fin 512} :
    walk (next s'.mem) B (i :: q) = walk (next s'.mem) s.currentPml4 (i :: q) := by
  rw [walk_cons, walk_cons, pmapCreate_next_new hF hA hc hB0]

/-- Every walk of the new forest is the empty one from `B` or one of the old forest. -/
theorem pmapCreate_walk {r t : UInt64} (hr : r ∈ insert B R) {q : List (Fin 512)}
    (hq : q.length ≤ 3) (hw : walk (next s'.mem) r q = some t) :
    (q = [] ∧ t = B) ∨ ∃ r₀ ∈ R, walk (next s.mem) r₀ q = some t := by
  rcases hr with rfl | hr
  · cases q with
    | nil => exact Or.inl ⟨rfl, (Option.some.inj hw).symm⟩
    | cons i q =>
      rw [pmapCreate_walk_new hF hA hc hB0, pmapCreate_walk_old hF hA hc hB0 hA hq] at hw
      exact Or.inr ⟨_, hA, hw⟩
  · rw [pmapCreate_walk_old hF hA hc hB0 hr hq] at hw
    exact Or.inr ⟨r, hr, hw⟩

theorem pmapCreate_forest : Forest src s' (insert B R) := by
  obtain ⟨hf, hnew, hold, hi, hent⟩ := pmapCreate_spec hF hA hc hB0
  have hwalk := fun r t hr q => pmapCreate_walk (r := r) (t := t) hF hA hc hB0 hr (q := q)
  refine ⟨?_, ?_, ?_, ?_⟩
  · rintro r (rfl | hr)
    · exact ⟨hf.1, hB0⟩
    · exact hF.roots r hr
  · intro r hr q u hq hw
    rcases hwalk r u hr q hq hw with ⟨-, rfl⟩ | ⟨r₀, hr₀, hw⟩
    · exact hold
    · exact hi (hF.inUse r₀ hr₀ q u hq hw)
  · intro r hr r' hr' p q t hp hq hwp hwq
    rcases hwalk r t hr p hp hwp with ⟨rfl, rfl⟩ | ⟨r₀, hr₀, hwp⟩
    · rcases hwalk r' t hr' q hq hwq with ⟨rfl, -⟩ | ⟨r₁, hr₁, hwq⟩
      · rfl
      · exact absurd hwq (hF.fresh hr₁ hnew q hq)
    · rcases hwalk r' t hr' q hq hwq with ⟨rfl, rfl⟩ | ⟨r₁, hr₁, hwq⟩
      · exact absurd hwp (hF.fresh hr₀ hnew p hp)
      · exact hF.leveled r₀ hr₀ r₁ hr₁ p q t hp hq hwp hwq
  · intro r hr q t i u hq hw hn
    rcases hwalk r t hr q hq.le hw with ⟨rfl, rfl⟩ | ⟨r₀, hr₀, hw⟩
    · have hne : s.currentPml4 ≠ t := fun e => hnew (e ▸ hF.inUse _ hA [] _ (by simp) rfl)
      rw [pmapCreate_next_new hF hA hc hB0, pmapCreate_next_other hF hA hc hB0 hne] at hn
      rw [hent t i hf.1, if_pos rfl]
      exact hF.tables _ hA [] _ i u (by simp) rfl hn
    · have htB : t ≠ B := fun e => hF.fresh hr₀ hnew q hq.le (e ▸ hw)
      rw [pmapCreate_next_other hF hA hc hB0 htB] at hn
      rw [hent t i (hF.aligned hr₀ hw), if_neg htB]
      exact hF.tables r₀ hr₀ q t i u hq hw hn

/-- The new space and the one it was copied from share exactly the slots that were present. -/
theorem pmapCreate_spaces :
    Spaces src (insert B R) s.currentPml4 B (presentSlots s.mem s.currentPml4) s' := by
  obtain ⟨-, hnew, -, -, -⟩ := pmapCreate_spec hF hA hc hB0
  have hF' := pmapCreate_forest hF hA hc hB0
  refine ⟨hF', Or.inr hA, Or.inl rfl, fun p q t hp hq hwp hwq => ?_⟩
  have hpres : ∀ i l, l.length ≤ 2 → walk (next s.mem) s.currentPml4 (i :: l) = some t →
      i ∈ presentSlots s.mem s.currentPml4 := by
    intro i l _ hw
    rw [walk_cons] at hw
    obtain ⟨u, hu, -⟩ := Option.bind_eq_some_iff.mp hw
    exact (next_eq_some.mp hu).2.1
  rw [pmapCreate_walk_old hF hA hc hB0 hA hp] at hwp
  cases q with
  | nil =>
    obtain rfl := Option.some.inj hwq
    exact absurd hwp (hF.fresh hA hnew p hp)
  | cons j q =>
    rw [pmapCreate_walk_new hF hA hc hB0, pmapCreate_walk_old hF hA hc hB0 hA hq] at hwq
    have hlen := hF.leveled _ hA _ hA p (j :: q) t hp hq hwp hwq
    cases p with
    | nil => simp at hlen
    | cons i p =>
      simp only [List.length_cons] at hp hq
      exact ⟨⟨i, rfl, hpres i p (by omega) hwp⟩, ⟨j, rfl, hpres j q (by omega) hwq⟩⟩

end Create

end

end Pmap

/-!
## Isolation of address spaces over runs

The forest is an invariant of the whole system of address spaces. Two spaces, one created while the
other was current, are isolated over every run that stays off the slots that were present at the
creation; a page mapped through such a slot is mapped in both.
-/

namespace Pmap

open TableWalk Run

/-- The lower half of the canonical addresses. -/
def IsUser (v : UInt64) : Prop := v < 0x0000800000000000

/-! ## The system of address spaces -/

/-- The kernel's tables and the top-level tables created so far. -/
structure System (α : Type) where
  st : State α
  spaces : List UInt64

inductive SysOp where
  | create
  | switch (pml4 : UInt64)
  | on (pml4 : UInt64) (op : PmapOp)

/-- Operations take only top-level tables that exist. -/
def sysStep {α : Type} (src : FrameSource α) (x : System α) : SysOp → Option (System α)
  | .create =>
      let res := pmapCreate src x.st
      some ⟨res.2, if res.1 = 0 then x.spaces else res.1 :: x.spaces⟩
  | .switch pml4 => if pml4 ∈ x.spaces then some { x with st := pmapSwitch x.st pml4 } else none
  | .on pml4 op =>
      if pml4 ∈ x.spaces then some { x with st := (pmapStep src pml4 x.st op).2 } else none

section

variable {α : Type} {src : FrameSource α} {s s' : State α} {R : Set UInt64} {A B : UInt64}

theorem pmapStep_forest (hF : Forest src s R) (hA : A ∈ R) (op : PmapOp) :
    Forest src (pmapStep src A s op).2 R := by
  cases op with
  | map v p fl =>
    obtain ⟨s₁, hg, hres | ⟨pt, hw, hres⟩⟩ := pmapMapPage_cases hF hA v p fl
    · rw [pmapStep, hres]
      exact hg.forest hF hA
    · rw [pmapStep, hres]
      exact writeLeaf_forest (hg.forest hF hA) hA hw
  | unmap v =>
    rcases pmapUnmapPage_cases hF hA v with ⟨-, hres⟩ | ⟨pt, hw, hres⟩
    · rw [pmapStep, hres]
      exact hF
    · rw [pmapStep, hres]
      exact writeLeaf_forest hF hA hw

/-- The invariant of the system: all its spaces form one forest and the current one is among them. -/
structure SystemInv (src : FrameSource α) (x : System α) : Prop where
  forest : Forest src x.st {r | r ∈ x.spaces}
  current : x.st.currentPml4 ∈ x.spaces

/-! ## Isolation -/

/-- One operation on the space `r`. -/
def spaceStep (src : FrameSource α) (r : UInt64) (s : State α) (op : PmapOp) : Option (State α) :=
  some (pmapStep src r s op).2

/-- One operation on either of two spaces. -/
def pairStep (src : FrameSource α) (A B : UInt64) (s : State α) (x : Bool × PmapOp) :
    Option (State α) :=
  spaceStep src (if x.1 then A else B) s x.2

/-- A user address whose top-level slot was absent in `A`. -/
def OffShared (m : PhysMem) (A : UInt64) (op : PmapOp) : Prop :=
  IsUser op.vaddr ∧ m.entry A (idxPml4 op.vaddr) &&& pagePresent = 0

theorem OffShared.not_mem {m : PhysMem} {op : PmapOp} (h : OffShared m A op) :
    idxPml4 op.vaddr ∉ presentSlots m A :=
  fun hc => hc h.2

variable {m : PhysMem}

theorem Spaces.run (h : Spaces src R A B (presentSlots m A) s)
    (hr : Reach (spaceStep src B) (fun _ op => OffShared m A op) s s') :
    Spaces src R A B (presentSlots m A) s' ∧
      ∀ w, pmapGetPhysical s'.mem A w = pmapGetPhysical s.mem A w := by
  refine Reach.invariant (I := fun x => Spaces src R A B (presentSlots m A) x ∧
    ∀ w, pmapGetPhysical x.mem A w = pmapGetPhysical s.mem A w) ⟨h, fun _ => rfl⟩ ?_ hr
  rintro x op y ⟨hI, heq⟩ hok hst
  obtain rfl := Option.some.inj hst
  obtain ⟨hI', heq'⟩ := hI.step hok.not_mem
  exact ⟨hI', fun w => (heq' w).trans (heq w)⟩

theorem Spaces.pairRun (h : Spaces src R A B (presentSlots m A) s)
    (hr : Reach (pairStep src A B) (fun _ x => OffShared m A x.2) s s') :
    Spaces src R A B (presentSlots m A) s' := by
  refine Reach.invariant h ?_ hr
  rintro x ⟨side, op⟩ y hI hok hst
  obtain rfl := Option.some.inj hst
  cases side with
  | true => exact (hI.symm.step hok.not_mem).1.symm
  | false => exact (hI.step hok.not_mem).1

/-- A page mapped in `B` through a slot that both spaces share is mapped in `A`. -/
theorem map_shared_slot (hF : Forest src s R) (hA : A ∈ R) (hB : B ∈ R) {v paddr flags u : UInt64}
    (hnA : next s.mem A (idxPml4 v) = some u) (hnB : next s.mem B (idxPml4 v) = some u)
    (hp : paddr.toNat % 4096 = 0 ∧ paddr.toNat < 2 ^ 52) (hf : pteAddr flags = 0)
    (hret : (pmapMapPage src s B v paddr flags).1 = 0) :
    pmapGetPhysical (pmapMapPage src s B v paddr flags).2.mem A v = paddr + v % 4096 := by
  obtain ⟨s₁, hg, hres | ⟨pt, hw, hres⟩⟩ := pmapMapPage_cases hF hB v paddr flags
  · rw [hres] at hret
    exact absurd hret (by simp)
  · have hF₁ := hg.forest hF hB
    have hone : ∀ r, next s.mem r (idxPml4 v) = some u →
        walk (next s.mem) r [idxPml4 v] = some u := fun r h => by simp [walk_cons, h]
    have hA₁ := hg.walk_mono hF hB hA (by simp) (hone A hnA)
    have hB₁ := hg.walk_mono hF hB hB (by simp) (hone B hnB)
    -- below the shared slot the walks of `A` and `B` are the same
    have hwA : walk (next s₁.mem) A (tablePath v) = some pt := by
      have hsplit : tablePath v = [idxPml4 v] ++ [idxPdpt v, idxPd v] := rfl
      rw [hsplit, walk_append, hB₁] at hw
      rw [hsplit, walk_append, hA₁]
      exact hw
    rw [hres, (writeLeaf_forest hF₁ hB hw).pmapGetPhysical_eq hA]
    dsimp only
    rw [writeLeaf_leaf hF₁ hB hw hA, if_pos ⟨hwA, rfl⟩, translate_mapped hp hf]

end

/-- Let `B` be created while `A` was current. Over every interleaving of operations on user
addresses whose top-level slot was absent in `A` at the creation, operations on one space leave every
translation of the other alone. Through a slot that was present, a page mapped in `B` right after
the creation is mapped in `A`. -/
theorem address_spaces_isolated_off_shared_slots {α : Type} (src : FrameSource α) {s s₁ : State α}
    {R : Set UInt64} {A B : UInt64} (hF : Forest src s R) (hAR : A ∈ R) (hA : s.currentPml4 = A)
    (hc : pmapCreate src s = (B, s₁)) (hB : B ≠ 0) :
    (∀ s₂, Reach (pairStep src A B) (fun _ x => OffShared s.mem A x.2) s₁ s₂ →
      (∀ s₃, Reach (spaceStep src B) (fun _ op => OffShared s.mem A op) s₂ s₃ →
        ∀ v, IsUser v → pmapGetPhysical s₃.mem A v = pmapGetPhysical s₂.mem A v) ∧
      (∀ s₃, Reach (spaceStep src A) (fun _ op => OffShared s.mem A op) s₂ s₃ →
        ∀ v, IsUser v → pmapGetPhysical s₃.mem B v = pmapGetPhysical s₂.mem B v)) ∧
    (∀ v paddr flags, IsUser v → s.mem.entry A (idxPml4 v) &&& pagePresent ≠ 0 →
      (PmapOp.map v paddr flags).Valid → (pmapMapPage src s₁ B v paddr flags).1 = 0 →
        pmapGetPhysical (pmapMapPage src s₁ B v paddr flags).2.mem A v = paddr + v % 4096) := by
  subst hA
  have hS := pmapCreate_spaces hF hAR hc hB
  refine ⟨fun s₂ h₂ => ?_, fun v paddr flags _ hpres hval hret => ?_⟩
  · have hS₂ := hS.pairRun h₂
    refine ⟨fun s₃ h₃ v _ => (hS₂.run h₃).2 v, fun s₃ h₃ v _ => ?_⟩
    have hsymm : ∀ x y, Spaces src (insert B R) B s.currentPml4 (presentSlots s.mem s.currentPml4) x →
        Reach (spaceStep src s.currentPml4) (fun _ op => OffShared s.mem s.currentPml4 op) x y →
        Spaces src (insert B R) B s.currentPml4 (presentSlots s.mem s.currentPml4) y ∧
          ∀ w, pmapGetPhysical y.mem B w = pmapGetPhysical x.mem B w := by
      intro x y hx hr
      refine Reach.invariant (I := fun z =>
        Spaces src (insert B R) B s.currentPml4 (presentSlots s.mem s.currentPml4) z ∧
          ∀ w, pmapGetPhysical z.mem B w = pmapGetPhysical x.mem B w) ⟨hx, fun _ => rfl⟩ ?_ hr
      rintro z op z' ⟨hI, heq⟩ hok hst
      obtain rfl := Option.some.inj hst
      obtain ⟨hI', heq'⟩ := hI.step hok.not_mem
      exact ⟨hI', fun w => (heq' w).trans (heq w)⟩
    exact (hsymm s₂ s₃ hS₂.symm h₃).2 v
  · obtain ⟨hAa, -⟩ := hF.roots _ hAR
    obtain ⟨-, hnew, -, -, -⟩ := pmapCreate_spec hF hAR hc hB
    have hne : s.currentPml4 ≠ B := fun e => hnew (e ▸ hF.inUse _ hAR [] _ (by simp) rfl)
    have hnA : next s₁.mem s.currentPml4 (idxPml4 v) =
        some (pteAddr (s.mem.entry s.currentPml4 (idxPml4 v))) := by
      rw [pmapCreate_next_other hF hAR hc hB hne]
      exact next_of_present hAa hpres
    have hnB := (pmapCreate_next_new hF hAR hc hB (idxPml4 v)).trans hnA
    exact map_shared_slot hS.forest hS.memA hS.memB hnA hnB ⟨hval.1, hval.2.1⟩ hval.2.2.1 hret

/-- A user page mapped at `0x400000`, then a second space. -/
def sharedStart : State ℕ := (pmapStep bumpSource 0x1000 bumpStart (.map 0x400000 0x700000 0x7)).2

theorem sharedStart_forest : Forest bumpSource sharedStart {0x1000} :=
  pmapStep_forest bumpStart_zeroed.refines.forest rfl _

/-- Off the shared slot: `0x8000000000` lies in slot 1, which is absent in `0x1000`. -/
theorem address_spaces_isolated_far_page :
    pmapGetPhysical (pmapMapPage bumpSource (pmapCreate bumpSource sharedStart).2
      (pmapCreate bumpSource sharedStart).1 0x8000000000 0x900000 0x7).2.mem 0x1000 0x8000000000 =
      pmapGetPhysical (pmapCreate bumpSource sharedStart).2.mem 0x1000 0x8000000000 :=
  ((address_spaces_isolated_off_shared_slots bumpSource sharedStart_forest rfl
    (by decide +kernel) rfl (by decide +kernel)).1 _ .start).1 _
    (.step (.map 0x8000000000 0x900000 0x7) .start ⟨by unfold IsUser; decide, by decide +kernel⟩ rfl)
    0x8000000000 (by unfold IsUser; decide)

/-- A page mapped at `0x401000` in the new space appears in the old one, where it was unmapped. -/
theorem address_spaces_not_isolated :
    ¬ ∀ (src : FrameSource ℕ) (s : State ℕ) (A : UInt64) (op : PmapOp), Forest src s {A} →
      s.currentPml4 = A → (pmapCreate src s).1 ≠ 0 → IsUser op.vaddr → op.Valid →
      ∀ v, IsUser v →
        pmapGetPhysical (pmapStep src (pmapCreate src s).1 (pmapCreate src s).2 op).2.mem A v =
          pmapGetPhysical (pmapCreate src s).2.mem A v := by
  intro h
  have h := h bumpSource sharedStart 0x1000 (.map 0x401000 0x900000 0x7) sharedStart_forest
    (by decide +kernel) (by decide +kernel) (by unfold IsUser PmapOp.vaddr; decide)
    (by unfold PmapOp.Valid; decide) 0x401000 (by unfold IsUser; decide)
  revert h
  decide +kernel

end Pmap
