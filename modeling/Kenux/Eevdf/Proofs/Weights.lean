import Kenux.Eevdf.Proofs.Runs
import Mathlib.Algebra.Group.Action.Defs
import Mathlib.Algebra.Order.BigOperators.Group.Finset

/-!
# The counters of a run queue

`nr_running` counts the tasks on the queue, and `total_weight` adds their weights.
-/

namespace Eevdf

open RbTree Run
open Function (update_self update_of_ne)

variable {α : Type*} [DecidableEq α] {q q' : Rq α} {task : α} {fuel : ℕ} {e : Entity} {S : Finset α} {b : Bool}

/-! ## What the operations of the tree leave as it is -/

/-- The parts of a queue that its counters depend on. -/
structure HasCounts (q : Rq α) (entity : α → Entity) (onRq : α → Bool) (totalWeight : UInt64) (nrRunning : UInt32) :
    Prop where
  entity : q.entity = entity
  onRq : q.onRq = onRq
  totalWeight : q.totalWeight = totalWeight
  nrRunning : q.nrRunning = nrRunning

/-- Only the tree and what is not counted differ. -/
def SameCounts (q q' : Rq α) : Prop := HasCounts q' q.entity q.onRq q.totalWeight q.nrRunning

theorem eevdfRbInsert_same (h : eevdfRbInsert fuel q task = some q') : SameCounts q q' := by
  unfold eevdfRbInsert at h
  obtain ⟨path, -, h⟩ := Option.bind_eq_some_iff.mp h
  dsimp only at h
  by_cases hpath : path = []
  · rw [if_pos hpath] at h
    obtain rfl := Option.some.inj h
    exact ⟨rfl, rfl, rfl, rfl⟩
  · rw [if_neg hpath] at h
    obtain ⟨tree, -, h⟩ := Option.bind_eq_some_iff.mp h
    obtain rfl := Option.some.inj h
    exact ⟨rfl, rfl, rfl, rfl⟩

omit [DecidableEq α] in
theorem eevdfRbUpdateLeftmost_same (h : eevdfRbUpdateLeftmost fuel q = some q') : SameCounts q q' := by
  unfold eevdfRbUpdateLeftmost at h
  split at h
  · obtain rfl := Option.some.inj h
    exact ⟨rfl, rfl, rfl, rfl⟩
  · obtain ⟨first, -, h⟩ := Option.bind_eq_some_iff.mp h
    obtain rfl := Option.some.inj h
    exact ⟨rfl, rfl, rfl, rfl⟩

theorem eevdfRbDelete_same (h : eevdfRbDelete fuel q task = some q') : SameCounts q q' := by
  unfold eevdfRbDelete at h
  obtain ⟨⟨y, x⟩, -, h⟩ := Option.bind_eq_some_iff.mp h
  obtain ⟨s₁, -, h⟩ := Option.bind_eq_some_iff.mp h
  obtain ⟨s₂, -, h⟩ := Option.bind_eq_some_iff.mp h
  have hsame := eevdfRbUpdateLeftmost_same h
  exact ⟨hsame.entity, hsame.onRq, hsame.totalWeight, hsame.nrRunning⟩

/-! ## What each operation does to the counters -/

theorem eevdfEnqueue_counts (h : eevdfEnqueue fuel q task = some q') :
    HasCounts q' (Function.update q.entity task ((q.entity task).renew q.totalWeight))
      (Function.update q.onRq task true) (q.totalWeight + (q.entity task).weight) (q.nrRunning + 1) := by
  unfold eevdfEnqueue at h
  obtain ⟨q₁, hinsert, h⟩ := Option.bind_eq_some_iff.mp h
  have hsame := eevdfRbInsert_same hinsert
  have hentity : q₁.entity = Function.update q.entity task ((q.entity task).renew q.totalWeight) := hsame.entity
  have hweight : (q₁.entity task).weight = (q.entity task).weight := by
    rw [hentity, update_self]
    rfl
  have hcounts : HasCounts
      { q₁.setOnRq task true with
        nrRunning := q₁.nrRunning + 1
        totalWeight := q₁.totalWeight + (q₁.entity task).weight }
      (Function.update q.entity task ((q.entity task).renew q.totalWeight)) (Function.update q.onRq task true)
      (q.totalWeight + (q.entity task).weight) (q.nrRunning + 1) := by
    refine ⟨hentity, ?_, ?_, ?_⟩
    · show Function.update q₁.onRq task true = _
      rw [hsame.onRq]
      rfl
    · show q₁.totalWeight + (q₁.entity task).weight = _
      rw [hweight, hsame.totalWeight]
      rfl
    · show q₁.nrRunning + 1 = _
      rw [hsame.nrRunning]
      rfl
  dsimp only at h
  split_ifs at h
  · obtain rfl := Option.some.inj h
    exact ⟨hcounts.entity, hcounts.onRq, hcounts.totalWeight, hcounts.nrRunning⟩
  · obtain rfl := Option.some.inj h
    exact hcounts

theorem eevdfDequeue_counts (hon : q.onRq task = true) (h : eevdfDequeue fuel q task = some q') :
    HasCounts q' q.entity (Function.update q.onRq task false) (q.totalWeight - (q.entity task).weight)
      (q.nrRunning - 1) := by
  unfold eevdfDequeue at h
  rw [if_pos hon] at h
  obtain ⟨q₁, hdelete, h⟩ := Option.bind_eq_some_iff.mp h
  have hsame := eevdfRbDelete_same hdelete
  have hcounts : HasCounts
      { q₁.setOnRq task false with
        nrRunning := q₁.nrRunning - 1
        totalWeight := q₁.totalWeight - (q₁.entity task).weight }
      q.entity (Function.update q.onRq task false) (q.totalWeight - (q.entity task).weight) (q.nrRunning - 1) := by
    refine ⟨hsame.entity, ?_, ?_, ?_⟩
    · show Function.update q₁.onRq task false = _
      rw [hsame.onRq]
    · show q₁.totalWeight - (q₁.entity task).weight = _
      rw [hsame.entity, hsame.totalWeight]
    · show q₁.nrRunning - 1 = _
      rw [hsame.nrRunning]
  dsimp only at h
  split at h
  · obtain rfl := Option.some.inj h
    split_ifs
    · exact ⟨hcounts.entity, hcounts.onRq, hcounts.totalWeight, hcounts.nrRunning⟩
    · exact hcounts
  · obtain rfl := Option.some.inj h
    exact hcounts

theorem eevdfUpdateCurr_counts {delta : UInt64} (h : eevdfUpdateCurr q task delta = some q') :
    HasCounts q' (Function.update q.entity task ((q.entity task).ran delta)) q.onRq q.totalWeight q.nrRunning := by
  unfold eevdfUpdateCurr at h
  split_ifs at h
  obtain rfl := Option.some.inj h
  exact ⟨rfl, rfl, rfl, rfl⟩

theorem eevdfReweight_counts {nice : ℤ} (h : eevdfReweight fuel q task nice = some q') :
    ∃ e : Entity, e.weight = eevdfCalcWeight nice ∧ HasCounts q' (Function.update q.entity task e) q.onRq
      (q.totalWeight - (q.entity task).weight + eevdfCalcWeight nice) q.nrRunning := by
  refine ⟨((q.entity task).setNice nice).renew (q.totalWeight - (q.entity task).weight + eevdfCalcWeight nice),
    rfl, ?_⟩
  unfold eevdfReweight at h
  dsimp only at h
  split_ifs at h
  · obtain ⟨q₁, hdelete, hinsert⟩ := Option.bind_eq_some_iff.mp h
    have hdelete := eevdfRbDelete_same hdelete
    have hinsert := eevdfRbInsert_same hinsert
    refine ⟨?_, ?_, ?_, ?_⟩
    · rw [hinsert.entity, hdelete.entity]
      rfl
    · rw [hinsert.onRq, hdelete.onRq]
      rfl
    · rw [hinsert.totalWeight, hdelete.totalWeight]
      rfl
    · rw [hinsert.nrRunning, hdelete.nrRunning]
      rfl
  · obtain rfl := Option.some.inj h
    exact ⟨rfl, rfl, rfl, rfl⟩

/-! ## The weights -/

/-- The weights are those of the table. -/
def Weighed (q : Rq α) : Prop := ∀ a, (q.entity a).weight.toNat ≤ 517000

theorem eevdfCalcWeight_le (nice : ℤ) : (eevdfCalcWeight nice).toNat ≤ 517000 := by
  have hall : ∀ w ∈ prioToWeight, w.toNat ≤ 517000 := by simp [prioToWeight]
  unfold eevdfCalcWeight
  dsimp only
  rw [List.getD_eq_getElem?_getD]
  generalize (if (if nice + 20 < 0 then 0 else nice + 20) > 39 then 39
      else if nice + 20 < 0 then 0 else nice + 20).toNat = idx
  cases hidx : prioToWeight[idx]? with
  | none => simp
  | some w => exact hall w (List.mem_of_getElem? hidx)

omit [DecidableEq α] in
theorem Weighed.congr (h : Weighed q) (hent : q'.entity = q.entity) : Weighed q' := by
  unfold Weighed
  rw [hent]
  exact h

theorem Weighed.setEntity (h : Weighed q) (he : e.weight.toNat ≤ 517000) : Weighed (q.setEntity task e) := by
  intro a
  show (Function.update q.entity task e a).weight.toNat ≤ 517000
  by_cases ha : a = task
  · subst ha
    rw [update_self]
    exact he
  · rw [update_of_ne ha]
    exact h a

/-- What the weights of the tasks of `S` add up to. -/
def weightOf (entity : α → Entity) (S : Finset α) : ℕ := ∑ a ∈ S, (entity a).weight.toNat

omit [DecidableEq α] in
theorem weightOf_le (h : Weighed q) : weightOf q.entity S ≤ S.card * 517000 := by
  have hle := Finset.sum_le_card_nsmul S (fun a => (q.entity a).weight.toNat) 517000 fun a _ => h a
  rw [smul_eq_mul] at hle
  exact hle

/-- A task outside `S` has any weight. -/
theorem weightOf_update_notMem (h : task ∉ S) : weightOf (Function.update q.entity task e) S = weightOf q.entity S := by
  refine Finset.sum_congr rfl fun a ha => ?_
  have hne : a ≠ task := fun heq => h (heq ▸ ha)
  rw [update_of_ne hne]

/-- The weight of a task of `S` changes. -/
theorem weightOf_update_mem (h : task ∈ S) :
    weightOf (Function.update q.entity task e) S + (q.entity task).weight.toNat =
      weightOf q.entity S + e.weight.toNat := by
  have hafter := Finset.add_sum_erase S (fun a => (Function.update q.entity task e a).weight.toNat) h
  have hbefore := Finset.add_sum_erase S (fun a => (q.entity a).weight.toNat) h
  have hrest : weightOf (Function.update q.entity task e) _ = _ :=
    weightOf_update_notMem (Finset.notMem_erase task S)
  unfold weightOf at hrest ⊢
  rw [update_self] at hafter
  omega

theorem weightOf_insert (h : task ∉ S) :
    weightOf q.entity (insert task S) = (q.entity task).weight.toNat + weightOf q.entity S :=
  Finset.sum_insert h

theorem weightOf_erase (h : task ∈ S) :
    (q.entity task).weight.toNat + weightOf q.entity (S.erase task) = weightOf q.entity S :=
  Finset.add_sum_erase S (fun a => (q.entity a).weight.toNat) h

/-- An entity of the same weight. -/
theorem weightOf_update_same (h : e.weight = (q.entity task).weight) :
    weightOf (Function.update q.entity task e) S = weightOf q.entity S := by
  refine Finset.sum_congr rfl fun a _ => ?_
  by_cases ha : a = task
  · subst ha
    rw [update_self, h]
  · rw [update_of_ne ha]

/-! ## The steps -/

omit [DecidableEq α] in
theorem sums_iff (hmem : ∀ a, a ∈ S ↔ q.onRq a = true) :
    Sums q ↔ q.nrRunning.toNat = S.card ∧ q.totalWeight.toNat = weightOf q.entity S := by
  constructor
  · rintro ⟨S', hmem', hnr, htotal⟩
    obtain rfl : S' = S := Finset.ext fun a => (hmem' a).trans (hmem a).symm
    exact ⟨hnr, htotal⟩
  · rintro ⟨hnr, htotal⟩
    exact ⟨S, hmem, hnr, htotal⟩

omit [DecidableEq α] in
/-- The sum of the weights has room for one more. -/
theorem weightOf_lt (hweighed : Weighed q) (hcard : S.card < 2 ^ 32) : weightOf q.entity S + 517000 < 2 ^ 64 := by
  have hle : weightOf q.entity S ≤ _ := weightOf_le hweighed
  omega

section

variable (hmem : ∀ a, a ∈ S ↔ q.onRq a = true) (hnr : q.nrRunning.toNat = S.card)
  (htotal : q.totalWeight.toNat = weightOf q.entity S)

include hmem hnr htotal

/-- The weight of a task changes, and the total with it or not. -/
theorem sums_setWeight (hcounts : HasCounts q' (Function.update q.entity task e) q.onRq q'.totalWeight q.nrRunning) :
    Sums q' ↔ if q.onRq task = true then q'.totalWeight.toNat + (q.entity task).weight.toNat =
      q.totalWeight.toNat + e.weight.toNat else q'.totalWeight = q.totalWeight := by
  have hmem' : ∀ a, a ∈ S ↔ q'.onRq a = true := by
    rw [hcounts.onRq]
    exact hmem
  rw [sums_iff hmem', hcounts.nrRunning, and_iff_right hnr, hcounts.entity]
  split_ifs with hon
  · have hupdate : weightOf (Function.update q.entity task e) S + _ = _ := weightOf_update_mem ((hmem task).mpr hon)
    rw [htotal]
    omega
  · rw [weightOf_update_notMem fun hin => hon ((hmem task).mp hin), ← htotal, UInt64.toNat_inj]

variable (hweighed : Weighed q)

include hweighed

theorem enqueue_sums (h : eevdfEnqueue fuel q task = some q') :
    Weighed q' ∧ (Sums q' ↔ q.onRq task = false ∧ q.nrRunning.toNat + 1 < 2 ^ 32) := by
  have hcounts := eevdfEnqueue_counts h
  have hweighed' : Weighed (q.setEntity task ((q.entity task).renew q.totalWeight)) :=
    hweighed.setEntity (hweighed task)
  refine ⟨hweighed'.congr hcounts.entity, ?_⟩
  have hcard : S.card < 2 ^ 32 := hnr ▸ q.nrRunning.toNat_lt
  have hroom := weightOf_lt hweighed hcard
  have hw := hweighed task
  have hmem' : ∀ a, a ∈ insert task S ↔ q'.onRq a = true := by
    intro a
    rw [hcounts.onRq, Finset.mem_insert, hmem]
    by_cases ha : a = task
    · subst ha
      simp
    · rw [update_of_ne ha, or_iff_right ha]
  have hsame : weightOf q'.entity (insert task S) = weightOf q.entity (insert task S) := by
    rw [hcounts.entity]
    exact weightOf_update_same rfl
  rw [sums_iff hmem', hcounts.nrRunning, hcounts.totalWeight, hsame, UInt32.toNat_add, UInt64.toNat_add, hnr, htotal]
  have hone : (1 : UInt32).toNat = 1 := rfl
  by_cases hon : q.onRq task = true
  · have hin : task ∈ S := (hmem task).mpr hon
    rw [Finset.insert_eq_of_mem hin, hone, hon]
    refine iff_of_false (fun hand => ?_) fun hand => nomatch hand.1
    omega
  · have hout : task ∉ S := fun hin => hon ((hmem task).mp hin)
    rw [Finset.card_insert_of_notMem hout, weightOf_insert hout, hone, Bool.eq_false_iff.mpr hon]
    constructor
    · intro hand
      have := hand.1
      exact ⟨rfl, by omega⟩
    · intro hand
      have := hand.2
      omega

theorem dequeue_sums (h : eevdfDequeue fuel q task = some q') : Weighed q' ∧ Sums q' := by
  by_cases hon : q.onRq task = true
  · have hcounts := eevdfDequeue_counts hon h
    refine ⟨hweighed.congr hcounts.entity, ?_⟩
    have hin : task ∈ S := (hmem task).mpr hon
    have hcard : S.card < 2 ^ 32 := hnr ▸ q.nrRunning.toNat_lt
    have hpos : 0 < S.card := Finset.card_pos.mpr ⟨task, hin⟩
    have herase : _ + weightOf q.entity _ = _ := weightOf_erase hin
    have hmem' : ∀ a, a ∈ S.erase task ↔ q'.onRq a = true := by
      intro a
      rw [hcounts.onRq, Finset.mem_erase, hmem]
      by_cases ha : a = task
      · subst ha
        simp
      · rw [update_of_ne ha, and_iff_right ha]
    have hle1 : (1 : UInt32) ≤ q.nrRunning := by
      rw [UInt32.le_iff_toNat_le, hnr]
      exact hpos
    have hlew : (q.entity task).weight ≤ q.totalWeight := by
      rw [UInt64.le_iff_toNat_le, htotal]
      omega
    rw [sums_iff hmem', hcounts.nrRunning, hcounts.totalWeight, hcounts.entity, UInt32.toNat_sub_of_le _ _ hle1,
      UInt64.toNat_sub_of_le _ _ hlew, hnr, htotal, Finset.card_erase_of_mem hin]
    exact ⟨rfl, by omega⟩
  · unfold eevdfDequeue at h
    rw [if_neg hon] at h
    obtain rfl := Option.some.inj h
    exact ⟨hweighed, (sums_iff hmem).mpr ⟨hnr, htotal⟩⟩

theorem updateCurr_sums {delta : UInt64} (h : eevdfUpdateCurr q task delta = some q') : Weighed q' ∧ Sums q' := by
  have hcounts := eevdfUpdateCurr_counts h
  have hweighed' : Weighed (q.setEntity task ((q.entity task).ran delta)) := hweighed.setEntity (hweighed task)
  have hmem' : ∀ a, a ∈ S ↔ q'.onRq a = true := by
    rw [hcounts.onRq]
    exact hmem
  have hsame : weightOf (Function.update q.entity task ((q.entity task).ran delta)) S = weightOf q.entity S :=
    weightOf_update_same rfl
  refine ⟨hweighed'.congr hcounts.entity, (sums_iff hmem').mpr ⟨?_, ?_⟩⟩
  · rw [hcounts.nrRunning]
    exact hnr
  · rw [hcounts.totalWeight, hcounts.entity, htotal, hsame]

theorem setNice_sums {nice : ℤ} : Weighed (eevdfSetNice q task nice) ∧ (Sums (eevdfSetNice q task nice) ↔
    nice < -20 ∨ nice > 19 ∨ q.onRq task = false ∨ eevdfCalcWeight nice = (q.entity task).weight) := by
  unfold eevdfSetNice
  by_cases hrange : nice < -20 ∨ nice > 19
  · rw [if_pos hrange]
    refine ⟨hweighed, iff_of_true ((sums_iff hmem).mpr ⟨hnr, htotal⟩) ?_⟩
    rcases hrange with hlow | hhigh
    · exact .inl hlow
    · exact .inr (.inl hhigh)
  · rw [if_neg hrange]
    refine ⟨hweighed.setEntity (eevdfCalcWeight_le nice), ?_⟩
    have hcounts : HasCounts (q.setEntity task ((q.entity task).setNice nice))
        (Function.update q.entity task ((q.entity task).setNice nice)) q.onRq q.totalWeight q.nrRunning :=
      ⟨rfl, rfl, rfl, rfl⟩
    rw [sums_setWeight hmem hnr htotal hcounts, ← or_assoc, or_iff_right hrange]
    show (if _ then q.totalWeight.toNat + _ = _ + (eevdfCalcWeight nice).toNat else q.totalWeight = _) ↔ _
    split_ifs with hon
    · rw [hon, or_iff_right (Bool.noConfusion), Nat.add_left_cancel_iff, UInt64.toNat_inj]
      exact eq_comm
    · exact iff_of_true rfl (.inl (Bool.eq_false_iff.mpr hon))

theorem reweight_sums {nice : ℤ} (h : eevdfReweight fuel q task nice = some q') :
    Weighed q' ∧ (Sums q' ↔ q.onRq task = true ∨ eevdfCalcWeight nice = (q.entity task).weight) := by
  obtain ⟨e, he, hcounts⟩ := eevdfReweight_counts h
  have hweighed' : Weighed (q.setEntity task e) := by
    refine hweighed.setEntity ?_
    rw [he]
    exact eevdfCalcWeight_le nice
  refine ⟨hweighed'.congr hcounts.entity, ?_⟩
  rw [sums_setWeight hmem hnr htotal ⟨hcounts.entity, hcounts.onRq, rfl, hcounts.nrRunning⟩,
    hcounts.totalWeight, he]
  split_ifs with hon
  · have hin : task ∈ S := (hmem task).mpr hon
    have hcard : S.card < 2 ^ 32 := hnr ▸ q.nrRunning.toNat_lt
    have hroom := weightOf_lt hweighed hcard
    have herase : _ + weightOf q.entity _ = _ := weightOf_erase hin
    have hnew := eevdfCalcWeight_le nice
    have hlew : (q.entity task).weight ≤ q.totalWeight := by
      rw [UInt64.le_iff_toNat_le, htotal]
      omega
    refine iff_of_true ?_ (.inl hon)
    rw [UInt64.toNat_add, UInt64.toNat_sub_of_le _ _ hlew, htotal]
    omega
  · rw [or_iff_right hon]
    constructor
    · intro heq
      have hsame : q.totalWeight - (q.entity task).weight + eevdfCalcWeight nice =
          q.totalWeight - (q.entity task).weight + (q.entity task).weight := by
        rw [heq, UInt64.sub_add_cancel]
      exact (UInt64.add_right_inj _).mp hsame
    · intro heq
      rw [heq, UInt64.sub_add_cancel]

end

/-- The counters survive a step exactly if it is `Counted`. -/
theorem step_sums {op : Op α} (hsums : Sums q) (hweighed : Weighed q) (h : step fuel q op = some q') :
    Weighed q' ∧ (Sums q' ↔ Counted q op) := by
  obtain ⟨S, hmem, hnr, htotal⟩ := hsums
  cases op with
  | enqueue task => exact enqueue_sums hmem hnr htotal hweighed h
  | dequeue task =>
    obtain ⟨hweighed', hsums'⟩ := dequeue_sums hmem hnr htotal hweighed h
    exact ⟨hweighed', iff_of_true hsums' trivial⟩
  | updateCurr task delta =>
    obtain ⟨hweighed', hsums'⟩ := updateCurr_sums hmem hnr htotal hweighed h
    exact ⟨hweighed', iff_of_true hsums' trivial⟩
  | setNice task nice =>
    obtain rfl := Option.some.inj h
    exact setNice_sums hmem hnr htotal hweighed
  | reweight task newNice => exact reweight_sums hmem hnr htotal hweighed h

/-! ## What a task is charged -/

theorem charge_eq {delta : UInt64} (h : eevdfUpdateCurr q task delta = some q') :
    charge q q' task = (delta * weight0) / (q.entity task).weight := by
  unfold charge
  rw [(eevdfUpdateCurr_counts h).entity, update_self]
  show (q.entity task).vruntime + _ - _ = _
  rw [UInt64.add_comm, UInt64.add_sub_cancel]

/-- The greater of two quotients, for two divisors. -/
theorem div_le_div_iff_exists {x v w : ℕ} (hv : 0 < v) (hw : 0 < w) :
    x / v ≤ x / w ↔ ∃ k, k * w ≤ x ∧ x < (k + 1) * v := by
  constructor
  · intro hle
    refine ⟨x / w, Nat.div_mul_le_self x w, ?_⟩
    exact (Nat.div_lt_iff_lt_mul hv).mp (Nat.lt_succ_of_le hle)
  · rintro ⟨k, hlow, hhigh⟩
    have hkw : k ≤ x / w := (Nat.le_div_iff_mul_le hw).mpr hlow
    have hkv : x / v < k + 1 := (Nat.div_lt_iff_lt_mul hv).mpr hhigh
    omega

theorem charge_le_iff {s t : α} {q₁ q₂ : Rq α} {a b : ℤ} {delta : UInt64}
    (hs : (q.entity s).weight = eevdfCalcWeight a) (ht : (q.entity t).weight = eevdfCalcWeight b)
    (h₁ : eevdfUpdateCurr q s delta = some q₁) (h₂ : eevdfUpdateCurr q t delta = some q₂) :
    charge q q₁ s ≤ charge q q₂ t ↔ ∃ k, k * (eevdfCalcWeight b).toNat ≤ scaled delta ∧
      scaled delta < (k + 1) * (eevdfCalcWeight a).toNat := by
  have hpos : ∀ nice, 0 < (eevdfCalcWeight nice).toNat := fun nice =>
    Nat.pos_of_ne_zero fun hzero => eevdfCalcWeight_ne_zero nice (UInt64.toNat_inj.mp hzero)
  rw [charge_eq h₁, charge_eq h₂, hs, ht, UInt64.le_iff_toNat_le, UInt64.toNat_div, UInt64.toNat_div]
  exact div_le_div_iff_exists (hpos a) (hpos b)

/-! ## Runs -/

/-- The task 0 has the lowest nice value, and the others have the highest. -/
def mixed : Rq ℕ := eevdfRqInit (fun a => eevdfEntityInit (if a = 0 then -20 else 19)) fun _ => ⟨fun _ => none, none, .black⟩

end Eevdf
