import Kenux.Eevdf.Proofs.Tree

/-!
# Runs of a run queue
-/

namespace Eevdf

open RbTree CTree
open Function (update_self update_of_ne)

variable {α : Type*} [DecidableEq α] {q q' : Rq α} {T T' : CTree α} {task : α} {fuel : ℕ} {e : Entity}

theorem eevdfCalcWeight_ne_zero (nice : ℤ) : eevdfCalcWeight nice ≠ 0 := by
  have hall : ∀ w ∈ prioToWeight, w ≠ 0 := by simp [prioToWeight]
  unfold eevdfCalcWeight
  dsimp only
  refine hall _ ?_
  have hlen : prioToWeight.length = 40 := rfl
  have hlt : (if (if nice + 20 < 0 then 0 else nice + 20) > 39 then 39
      else if nice + 20 < 0 then 0 else nice + 20).toNat < prioToWeight.length := by
    rw [hlen]
    split_ifs <;> omega
  rw [List.getD_eq_getElem?_getD, List.getElem?_eq_getElem hlt]
  exact List.getElem_mem hlt

/-- The weights are positive, and the queue has the tree. -/
structure Holds (q : Rq α) (T : CTree α) : Prop where
  weight : ∀ a, (q.entity a).weight ≠ 0
  tree : HasTree q T

omit [DecidableEq α] in
theorem HasTree.picks (h : HasTree q T) : PicksMinimum q := by
  have hleft := h.leftmost
  have hsorted := h.sorted
  have hmem := h.mem
  unfold PicksMinimum eevdfPickNext
  unfold CTree.Sorted at hsorted
  cases hlist : T.toList with
  | nil =>
    rw [hlist] at hleft hmem
    rw [hleft]
    intro b
    exact Bool.eq_false_iff.mpr fun hb => absurd ((hmem b).mpr hb) List.not_mem_nil
  | cons a rest =>
    rw [hlist] at hleft hmem hsorted
    rw [hleft]
    refine ⟨(hmem a).mp List.mem_cons_self, fun b hb => ?_⟩
    rcases List.mem_cons.mp ((hmem b).mpr hb) with rfl | hrest
    · exact UInt64.le_refl _
    · exact ((List.pairwise_cons.mp hsorted).1 b hrest).deadline

omit [DecidableEq α] in
theorem Holds.valid (h : Holds q T) : Valid q := ⟨h.weight, ⟨T, h.tree⟩, h.tree.picks⟩

theorem pairwise_setEntity {tasks : List α} (htask : task ∉ tasks)
    (h : tasks.Pairwise fun a b => keyLe (q.entity a) (q.entity b)) :
    tasks.Pairwise fun a b => keyLe ((q.setEntity task e).entity a) ((q.setEntity task e).entity b) := by
  refine h.imp_of_mem fun {a b} ha hb hab => ?_
  have hat : a ≠ task := fun heq => htask (heq ▸ ha)
  have hbt : b ≠ task := fun heq => htask (heq ▸ hb)
  show keyLe (Function.update q.entity task e a) (Function.update q.entity task e b)
  rw [update_of_ne hat, update_of_ne hbt]
  exact hab

/-- A new entity for a task outside the tree. -/
theorem Ordered.setEntity (h : Ordered q T) (htask : task ∉ T.toList) : Ordered (q.setEntity task e) T :=
  ⟨h.represents, h.redBlack, pairwise_setEntity htask h.sorted, h.leftmost⟩

theorem weight_setEntity (h : ∀ a, (q.entity a).weight ≠ 0) (he : e.weight ≠ 0) (a : α) :
    ((q.setEntity task e).entity a).weight ≠ 0 := by
  show (Function.update q.entity task e a).weight ≠ 0
  by_cases ha : a = task
  · subst ha
    rw [update_self]
    exact he
  · rw [update_of_ne ha]
    exact h a

omit [DecidableEq α] in
/-- What is not the tree, its order or the weights is free to change. -/
theorem Ordered.holds (h : Ordered q T) (hweight : ∀ a, (q.entity a).weight ≠ 0) (htree : q'.tree = q.tree)
    (hent : q'.entity = q.entity) (hleft : q'.leftmost = q.leftmost)
    (hmem : ∀ a, a ∈ T.toList ↔ q'.onRq a = true) : Holds q' T := by
  refine ⟨?_, ⟨⟨?_, h.redBlack, ?_, ?_⟩, hmem⟩⟩
  · rw [hent]
    exact hweight
  · rw [htree]
    exact h.represents
  · rw [hent]
    exact h.sorted
  · rw [hleft]
    exact h.leftmost

/-! ## The steps -/

theorem eevdfEnqueue_spec (h : Holds q T) (htask : q.onRq task = false) (hroot : q.tree.root ≠ none)
    (hfuel : T.toList.length < fuel) :
    ∃ q' T', eevdfEnqueue fuel q task = some q' ∧ Holds q' T' ∧ T'.toList.length = T.toList.length + 1 := by
  have hnot : task ∉ T.toList := fun hmem => by
    rw [(h.tree.mem task).mp hmem] at htask
    cases htask
  have hT : T ≠ nil := by
    rintro rfl
    exact hroot h.tree.represents.root
  have hord : Ordered (q.setEntity task ((q.entity task).renew q.totalWeight)) T := h.tree.toOrdered.setEntity hnot
  have hweight : ∀ a, ((q.setEntity task ((q.entity task).renew q.totalWeight)).entity a).weight ≠ 0 :=
    weight_setEntity h.weight (h.weight task)
  obtain ⟨q₁, T₁, hq₁, hord₁, hent, honRq, hperm⟩ := eevdfRbInsert_spec hord hnot hT hfuel
  rw [← hent] at hweight
  have hmem : ∀ a, a ∈ T₁.toList ↔ Function.update q₁.onRq task true a = true := by
    intro a
    rw [hperm.mem_iff, List.mem_cons, h.tree.mem, honRq]
    by_cases ha : a = task
    · subst ha
      simp
    · rw [update_of_ne ha, or_iff_right ha]
      exact .rfl
  unfold eevdfEnqueue
  dsimp only
  rw [hq₁, Option.bind_eq_bind, Option.bind_some]
  split_ifs
  · exact ⟨_, T₁, rfl, hord₁.holds hweight rfl rfl rfl hmem, hperm.length_eq⟩
  · exact ⟨_, T₁, rfl, hord₁.holds hweight rfl rfl rfl hmem, hperm.length_eq⟩

/-- The tree after the removal of a task. -/
theorem delete_ordered (hrep : Represents q.tree T) (hrb : T.RedBlack)
    (hsorted : (T.toList.erase task).Pairwise fun a b => keyLe (q.entity a) (q.entity b)) (htask : task ∈ T.toList)
    (hleaves : Leaves fuel q.tree task) (hfuel : T.toList.length < fuel) :
    ∃ q' T', eevdfRbDelete fuel q task = some q' ∧ Ordered q' T' ∧ q'.entity = q.entity ∧ q'.onRq = q.onRq ∧
      T'.toList = T.toList.erase task := by
  obtain ⟨s', T', hdelete, hrep', hrb', hlist⟩ := eevdfRbDelete_spec hrep hrb htask hleaves hfuel
  refine ⟨_, T', hdelete, ⟨hrep', hrb', ?_, rfl⟩, rfl, rfl, hlist⟩
  unfold CTree.Sorted
  rw [hlist]
  exact hsorted

theorem eevdfDequeue_spec (h : Holds q T) (hkept : q.onRq task = true → Leaves fuel q.tree task)
    (hfuel : T.toList.length < fuel) :
    ∃ q' T', eevdfDequeue fuel q task = some q' ∧ Holds q' T' ∧ T'.toList.length ≤ T.toList.length := by
  unfold eevdfDequeue
  by_cases hon : q.onRq task = true
  · rw [if_pos hon]
    have htask := (h.tree.mem task).mpr hon
    obtain ⟨q₁, T₁, hq₁, hord₁, hent, honRq, hlist⟩ := delete_ordered h.tree.represents h.tree.redBlack
      (h.tree.sorted.sublist List.erase_sublist) htask (hkept hon) hfuel
    have hweight : ∀ a, (q₁.entity a).weight ≠ 0 := by
      rw [hent]
      exact h.weight
    have hmem : ∀ a, a ∈ T₁.toList ↔ Function.update q₁.onRq task false a = true := by
      intro a
      rw [hlist, h.tree.represents.nodup.mem_erase_iff, h.tree.mem, honRq]
      by_cases ha : a = task
      · subst ha
        simp
      · rw [update_of_ne ha, and_iff_right ha]
    have hlen : T₁.toList.length ≤ T.toList.length := by
      rw [hlist]
      exact List.erase_sublist.length_le
    rw [hq₁, Option.bind_eq_bind, Option.bind_some]
    dsimp only
    cases hleft : (q₁.setOnRq task false).leftmost with
    | none => exact ⟨_, T₁, rfl, hord₁.holds hweight rfl rfl hleft.symm hmem, hlen⟩
    | some first =>
      dsimp only
      split_ifs
      · exact ⟨_, T₁, rfl, hord₁.holds hweight rfl rfl hleft.symm hmem, hlen⟩
      · exact ⟨_, T₁, rfl, hord₁.holds hweight rfl rfl hleft.symm hmem, hlen⟩
  · rw [if_neg hon]
    exact ⟨q, T, rfl, h, le_refl _⟩

/-- A task in the tree gets an entity between those before and behind it. -/
theorem Holds.setEntity (h : Holds q T) (he : e.weight ≠ 0)
    (hplace : ∀ xs ys, T.toList = xs ++ task :: ys →
      (∀ a ∈ xs, keyLe (q.entity a) e) ∧ ∀ a ∈ ys, keyLe e (q.entity a)) : Holds (q.setEntity task e) T := by
  refine ⟨weight_setEntity h.weight he, ⟨⟨h.tree.represents, h.tree.redBlack, ?_, h.tree.leftmost⟩, h.tree.mem⟩⟩
  by_cases htask : task ∈ T.toList
  · obtain ⟨xs, ys, hsplit⟩ := List.append_of_mem htask
    obtain ⟨hbefore, hbehind⟩ := hplace xs ys hsplit
    have hnodup := h.tree.represents.nodup
    have hsorted := h.tree.sorted
    unfold CTree.Sorted at hsorted ⊢
    rw [hsplit] at hnodup hsorted ⊢
    obtain ⟨-, hbehind', hdisj⟩ := List.nodup_append.mp hnodup
    have hself : (q.setEntity task e).entity task = e := update_self ..
    have hxs : ∀ a ∈ xs, (q.setEntity task e).entity a = q.entity a := fun a ha =>
      update_of_ne (hdisj a ha task List.mem_cons_self) ..
    have hys : ∀ a ∈ ys, (q.setEntity task e).entity a = q.entity a := fun a ha =>
      update_of_ne (fun heq : a = task => (List.nodup_cons.mp hbehind').1 (heq ▸ ha)) ..
    obtain ⟨hsxs, hstys, hcross⟩ := List.pairwise_append.mp hsorted
    refine List.pairwise_append.mpr ⟨?_, List.pairwise_cons.mpr ⟨fun a ha => ?_, ?_⟩, fun a ha b hb => ?_⟩
    · refine hsxs.imp_of_mem fun {a b} ha hb hab => ?_
      rw [hxs a ha, hxs b hb]
      exact hab
    · rw [hself, hys a ha]
      exact hbehind a ha
    · refine (List.pairwise_cons.mp hstys).2.imp_of_mem fun {a b} ha hb hab => ?_
      rw [hys a ha, hys b hb]
      exact hab
    · rw [hxs a ha]
      rcases List.mem_cons.mp hb with rfl | hb'
      · rw [hself]
        exact hbefore a ha
      · rw [hys b hb']
        exact hcross a ha b hb
  · exact (h.tree.toOrdered.setEntity htask).sorted

theorem eevdfUpdateCurr_spec (h : Holds q T) {delta : UInt64}
    (hkept : q.onRq task = true → StaysInPlace q task ((q.entity task).ran delta)) :
    ∃ q', eevdfUpdateCurr q task delta = some q' ∧ Holds q' T := by
  unfold eevdfUpdateCurr
  rw [if_neg (h.weight task)]
  have hset : Holds (q.setEntity task ((q.entity task).ran delta)) T := by
    refine h.setEntity (h.weight task) fun xs ys hsplit => ?_
    have htask : task ∈ T.toList := by
      rw [hsplit]
      exact List.mem_append_right _ List.mem_cons_self
    exact hkept ((h.tree.mem task).mp htask) T xs ys h.tree.represents hsplit
  exact ⟨_, rfl, hset.tree.toOrdered.holds hset.weight rfl rfl rfl hset.tree.mem⟩

theorem eevdfSetNice_spec (h : Holds q T) (nice : ℤ) : Holds (eevdfSetNice q task nice) T := by
  unfold eevdfSetNice
  split_ifs
  · exact h
  · refine h.setEntity (eevdfCalcWeight_ne_zero nice) fun xs ys hsplit => ?_
    have hsorted := h.tree.sorted
    unfold CTree.Sorted at hsorted
    rw [hsplit] at hsorted
    obtain ⟨-, hbehind, hcross⟩ := List.pairwise_append.mp hsorted
    exact ⟨fun a ha => hcross a ha task List.mem_cons_self, (List.pairwise_cons.mp hbehind).1⟩

/-- A removal that takes a red node or leaves a child is not that of the only task. -/
theorem TakesRed.erase_ne_nil (hred : TakesRed fuel q.tree task) (h : Represents q.tree T) (hrb : T.RedBlack)
    (htask : task ∈ T.toList) : T.toList.erase task ≠ [] := by
  obtain ⟨k, c, l, r, rfl⟩ := exists_plug htask
  rw [erase_toList_plug h.nodup]
  intro hnil
  simp only [List.append_eq_nil_iff] at hnil
  obtain ⟨⟨hb, hl, hr⟩, ha⟩ := hnil
  obtain rfl := toList_eq_nil.mp hl
  obtain rfl := toList_eq_nil.mp hr
  have hlen := length_plug k (nil : CTree α)
  rw [toList_plug, hb, ha] at hlen
  obtain rfl : k = [] := List.length_eq_zero_iff.mp (Nat.le_zero.mp hlen)
  obtain ⟨y, x, hspliced, hyx⟩ := hred
  have hnode := h.repr.1
  have hright : (q.tree.node task).child .right = none := hnode.far
  unfold spliced at hspliced
  rw [hnode.near, hright] at hspliced
  obtain ⟨rfl, rfl⟩ := Prod.mk.inj (Option.some.inj hspliced)
  have hblack : c = .black := hrb.1
  rcases hyx with hcolor | hne
  · rw [hnode.color, hblack] at hcolor
    cases hcolor
  · exact hne rfl

/-- The task is taken out of the tree and put in again. -/
theorem requeue_spec (hrep : Represents q.tree T) (hrb : T.RedBlack)
    (hsorted : (T.toList.erase task).Pairwise fun a b => keyLe (q.entity a) (q.entity b))
    (hmem : ∀ a, a ∈ T.toList ↔ q.onRq a = true) (hweight : ∀ a, (q.entity a).weight ≠ 0) (htask : task ∈ T.toList)
    (hred : TakesRed fuel q.tree task) (hfuel : T.toList.length < fuel) :
    ∃ q' T', (do let q ← eevdfRbDelete fuel q task; eevdfRbInsert fuel q task) = some q' ∧ Holds q' T' ∧
      T'.toList.length = T.toList.length := by
  obtain ⟨y, x, hspliced, hyx⟩ := id hred
  obtain ⟨q₁, T₁, hq₁, hord₁, hent₁, honRq₁, hlist₁⟩ :=
    delete_ordered hrep hrb hsorted htask ⟨y, x, hspliced, hyx.imp_right .inl⟩ hfuel
  have hnot : task ∉ T₁.toList := by
    rw [hlist₁]
    exact fun hin => (hrep.nodup.mem_erase_iff.mp hin).1 rfl
  have hT₁ : T₁ ≠ nil := by
    rintro rfl
    exact hred.erase_ne_nil hrep hrb htask hlist₁.symm
  have hlen : T₁.toList.length < fuel := by
    rw [hlist₁]
    exact lt_of_le_of_lt List.erase_sublist.length_le hfuel
  obtain ⟨q₂, T₂, hq₂, hord₂, hent₂, honRq₂, hperm⟩ := eevdfRbInsert_spec hord₁ hnot hT₁ hlen
  rw [hlist₁] at hperm
  have hperm₂ : T₂.toList.Perm T.toList := hperm.trans (List.perm_cons_erase htask).symm
  refine ⟨q₂, T₂, ?_, hord₂.holds ?_ rfl rfl rfl fun a => ?_, hperm₂.length_eq⟩
  · rw [hq₁]
    exact hq₂
  · rw [hent₂, hent₁]
    exact hweight
  · rw [hperm₂.mem_iff, hmem, honRq₂, honRq₁]

/-- The weight and the deadline of a task change while it is out of the tree. -/
theorem eevdfReweight_spec (h : Holds q T) (nice : ℤ) (hkept : q.onRq task = true → TakesRed fuel q.tree task)
    (hfuel : T.toList.length < fuel) :
    ∃ q' T', eevdfReweight fuel q task nice = some q' ∧ Holds q' T' ∧ T'.toList.length = T.toList.length := by
  have hent : ∀ w, (((q.entity task).setNice nice).renew w).weight ≠ 0 := fun w => eevdfCalcWeight_ne_zero nice
  unfold eevdfReweight
  dsimp only
  generalize q.totalWeight - (q.entity task).weight + ((q.entity task).setNice nice).weight = w
  have hq : Holds { q with totalWeight := w } T := h.tree.toOrdered.holds h.weight rfl rfl rfl h.tree.mem
  have hweight := @weight_setEntity _ _ _ task _ hq.weight (hent w)
  show ∃ q' T', (if q.onRq task = true then _ else _) = some q' ∧ _
  by_cases hon : q.onRq task = true
  · have hnot : task ∉ T.toList.erase task := fun hmem => (h.tree.represents.nodup.mem_erase_iff.mp hmem).1 rfl
    rw [if_pos hon]
    exact requeue_spec h.tree.represents h.tree.redBlack
      (pairwise_setEntity hnot (hq.tree.sorted.sublist List.erase_sublist)) h.tree.mem hweight
      ((h.tree.mem task).mpr hon) (hkept hon) hfuel
  · have hnot : task ∉ T.toList := fun hmem => hon ((h.tree.mem task).mp hmem)
    rw [if_neg hon]
    exact ⟨_, T, rfl, (hq.tree.toOrdered.setEntity hnot).holds hweight rfl rfl rfl h.tree.mem, rfl⟩

/-! ## Runs -/

theorem step_spec {op : Op α} (h : Holds q T) (hused : WellUsed q op) (hkept : Kept fuel q op)
    (hfuel : T.toList.length < fuel) :
    ∃ q' T', step fuel q op = some q' ∧ Holds q' T' ∧ T'.toList.length ≤ T.toList.length + 1 := by
  cases op with
  | enqueue task =>
    obtain ⟨q', T', hstep, h', hlen⟩ := eevdfEnqueue_spec h hused hkept hfuel
    exact ⟨q', T', hstep, h', hlen.le⟩
  | dequeue task =>
    obtain ⟨q', T', hstep, h', hlen⟩ := eevdfDequeue_spec h hkept hfuel
    exact ⟨q', T', hstep, h', by omega⟩
  | updateCurr task delta =>
    obtain ⟨q', hstep, h'⟩ := eevdfUpdateCurr_spec h hkept
    exact ⟨q', T, hstep, h', by omega⟩
  | setNice task nice => exact ⟨_, T, rfl, eevdfSetNice_spec h nice, by omega⟩
  | reweight task newNice =>
    obtain ⟨q', T', hstep, h', hlen⟩ := eevdfReweight_spec h newNice hkept hfuel
    exact ⟨q', T', hstep, h', by omega⟩

/-- A valid run queue stays valid, and no step of the code fails, as long as every step meets its condition. -/
theorem eevdf_runs_valid (hweight : ∀ a, (q.entity a).weight ≠ 0) (htree : HasTree q T) (ops : List (Op α))
    (hfuel : T.toList.length + ops.length < fuel) (hused : Along fuel WellUsed q ops)
    (hkept : Along fuel (Kept fuel) q ops) : ∃ q', Run.run (step fuel) q ops = some q' ∧ Valid q' := by
  have h : Holds q T := ⟨hweight, htree⟩
  clear hweight htree
  induction ops generalizing q T with
  | nil => exact ⟨q, rfl, h.valid⟩
  | cons op ops ih =>
    simp only [List.length_cons] at hfuel
    obtain ⟨hop, hrest⟩ := hused
    obtain ⟨hkop, hkrest⟩ := hkept
    obtain ⟨q₁, T₁, hstep, h₁, hlen⟩ := step_spec h hop hkop (by omega)
    rw [Run.run_cons hstep]
    exact ih (by omega) (hrest q₁ hstep) (hkrest q₁ hstep) h₁

/-- A queue with one task, whose node is black. -/
def oneTask : Rq ℕ where
  entity _ := eevdfEntityInit 0
  onRq a := a = 0
  tree := ⟨fun _ => ⟨fun _ => none, none, .black⟩, some 0⟩
  leftmost := some 0
  minVruntime := 0
  totalWeight := eevdfCalcWeight 0
  nrRunning := 1
  clock := 0

theorem hasTree_oneTask : HasTree oneTask (.node .black nil 0 nil) := by
  refine ⟨⟨⟨rfl, ⟨⟨rfl, rfl, rfl, rfl⟩, trivial, trivial⟩, by decide⟩, ⟨rfl, 1, 0, rfl, rfl, rfl⟩,
    List.pairwise_singleton .., rfl⟩, fun a => ?_⟩
  simp [toList, oneTask]

theorem eevdf_runs_valid_one : ∃ q', Run.run (step 4) oneTask [.enqueue 1, .dequeue 1] = some q' ∧ Valid q' := by
  refine eevdf_runs_valid (fun _ => eevdfCalcWeight_ne_zero 0) hasTree_oneTask _ (by decide)
    ⟨rfl, fun q' _ => ⟨trivial, fun _ _ => trivial⟩⟩ ⟨(fun hnone => nomatch hnone), fun q' hq => ⟨fun _ => ⟨1, none, ?_, ?_⟩, fun _ _ => trivial⟩⟩
  · obtain rfl := Option.some.inj hq
    rfl
  · obtain rfl := Option.some.inj hq
    exact .inl rfl

/-- A second task on a queue that was empty makes the fix-up read the parent of the red root. -/
theorem eevdf_runs_not_valid : ¬∀ (q : Rq ℕ) (T : CTree ℕ) (ops : List (Op ℕ)) (fuel : ℕ),
    (∀ a, (q.entity a).weight ≠ 0) → HasTree q T → T.toList.length + ops.length < fuel →
      Along fuel WellUsed q ops → ∃ q', Run.run (step fuel) q ops = some q' ∧ Valid q' := by
  intro hclaim
  have hstart : HasTree (eevdfRqInit (fun _ => eevdfEntityInit 0) fun _ => ⟨fun _ => none, none, .black⟩) (nil : CTree ℕ) :=
    ⟨⟨⟨rfl, trivial, List.nodup_nil⟩, ⟨rfl, 0, rfl⟩, List.Pairwise.nil, rfl⟩, by simp [toList, eevdfRqInit]⟩
  obtain ⟨q', hq', -⟩ := hclaim _ _ [.enqueue 0, .enqueue 1] 4 (fun _ => eevdfCalcWeight_ne_zero 0) hstart (by decide)
    ⟨rfl, fun q' hq => ⟨by obtain rfl := Option.some.inj hq; rfl, fun _ _ => trivial⟩⟩
  cases hq'

end Eevdf
