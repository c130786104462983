import Kenux.Cfs.Proofs.Delete

/-!
# Runs of insertions and removals
-/

namespace Cfs

open RbTree CTree
open Function (update_self update_of_ne)

variable {ι α : Type*} [DecidableEq ι] [DecidableEq α] {s s' : Timelines ι α} {t t' : Timeline α} {m : Members ι α}
  {S S' : Finset α} {T : CTree α} {key : α → UInt64} {i j : ι} {a b : α} {fuel : ℕ}

/-- The invariant of the runs. -/
structure Holds (s : Timelines ι α) (m : Members ι α) : Prop where
  initialized : (∃ i, m i ≠ none) → s.rbtreeInitialized = true
  black : s.rbtreeInitialized = true → (s.node none).color = .black
  tree : ∀ i S, m i = some S → ∃ T, IsTimeline s.vruntime (s.tree i) S T
  apart : ∀ i j S S' a, m i = some S → m j = some S' → a ∈ S → a ∈ S' → i = j

omit [DecidableEq ι] [DecidableEq α] in
theorem IsTimeline.length (h : IsTimeline key t S T) : T.toList.length = S.card := by
  classical
  have hset : T.toList.toFinset = S := Finset.ext fun a => List.mem_toFinset.trans (h.mem a)
  rw [← hset, List.toFinset_card_of_nodup h.represents.nodup]

omit [DecidableEq ι] [DecidableEq α] in
/-- Another memory with the same nodes and keys. -/
theorem IsTimeline.congr {key' : α → UInt64} (h : IsTimeline key t S T) (hroot : t'.root = t.root)
    (hnode : ∀ b ∈ S, t'.node (some b) = t.node (some b)) (hkey : ∀ b ∈ S, key' b = key b) :
    IsTimeline key' t' S T := by
  refine ⟨⟨hroot.trans h.represents.root, h.represents.repr.congr fun b hb => hnode b ((h.mem b).mp hb),
    h.represents.nodup⟩, h.redBlack, ?_, h.mem⟩
  refine h.sorted.imp_of_mem fun {a b} ha hb hab => ?_
  rw [hkey a ((h.mem a).mp ha), hkey b ((h.mem b).mp hb)]
  exact hab

omit [DecidableEq ι] [DecidableEq α] in
theorem IsTimeline.minCorrect (h : IsTimeline key t S T) (hfuel : S.card ≤ fuel) : MinCorrect key t S fuel := by
  have hroot : t.root = T.root := h.represents.root
  unfold MinCorrect rbtreeMin
  rw [hroot]
  cases hr : T.root with
  | none =>
    rw [if_pos rfl]
    have hnil := root_eq_none.mp hr
    refine Finset.eq_empty_of_forall_notMem fun a ha => ?_
    have hmem := (h.mem a).mpr ha
    rw [hnil] at hmem
    cases hmem
  | some r =>
    rw [if_neg (by rintro ⟨⟩), treeMin_eq]
    have hhead := leftmost_head (k := []) h.represents hr (h.length.symm ▸ hfuel)
    rw [hhead]
    have hsorted := h.sorted
    unfold CTree.Sorted at hsorted
    cases hlist : T.toList with
    | nil =>
      rw [toList_eq_nil.mp hlist] at hr
      cases hr
    | cons a rest =>
      rw [hlist] at hsorted
      have hmem : ∀ b, b ∈ S ↔ b ∈ a :: rest := fun b => by rw [← hlist, h.mem]
      refine ⟨(hmem a).mpr List.mem_cons_self, fun b hb => ?_⟩
      rcases List.mem_cons.mp ((hmem b).mp hb) with rfl | hrest
      · exact UInt64.le_refl _
      · exact (List.pairwise_cons.mp hsorted).1 b hrest

omit [DecidableEq ι] [DecidableEq α] in
theorem Holds.correct (h : Holds s m) (hfuel : ∀ i S, m i = some S → S.card ≤ fuel) : Correct s m fuel := by
  refine ⟨fun hsome => h.black (h.initialized hsome), h.tree, fun i S hi => ?_⟩
  obtain ⟨T, hT⟩ := h.tree i S hi
  exact hT.minCorrect (hfuel i S hi)

/-! ## The steps -/

theorem rbtreeInit_spec (h : Holds s m) : Holds (rbtreeInit s i) (m.after (.init i)) := by
  have hnode : ∀ b, (rbtreeInit s i).node (some b) = s.node (some b) := by
    intro b
    show initSentinel s.rbtreeInitialized s.node (some b) = s.node (some b)
    unfold initSentinel
    split_ifs
    · rfl
    · exact update_of_ne (by rintro ⟨⟩) ..
  have hcases : ∀ j S, m.after (.init i) j = some S → (j = i ∧ S = ∅) ∨ (j ≠ i ∧ m j = some S) := by
    intro j S hj
    have hj : (if j = i then some ∅ else m j) = some S := (Function.update_apply ..).symm.trans hj
    split_ifs at hj with hji
    · exact .inl ⟨hji, (Option.some.inj hj).symm⟩
    · exact .inr ⟨hji, hj⟩
  refine ⟨fun _ => rfl, fun _ => ?_, fun j S hj => ?_, fun j j' S S' a hj hj' ha ha' => ?_⟩
  · show (initSentinel s.rbtreeInitialized s.node none).color = .black
    unfold initSentinel
    split_ifs with hinit
    · exact h.black hinit
    · rw [update_self]
  · rcases hcases j S hj with ⟨rfl, rfl⟩ | ⟨hji, hj⟩
    · refine ⟨nil, ⟨⟨?_, trivial, List.nodup_nil⟩, ⟨rfl, 0, rfl⟩, List.Pairwise.nil, fun a => ?_⟩⟩
      · show Function.update s.root j none j = none
        rw [update_self]
      · exact iff_of_false List.not_mem_nil (Finset.notMem_empty a)
    · obtain ⟨T, hT⟩ := h.tree j S hj
      refine ⟨T, hT.congr ?_ (fun b _ => hnode b) fun _ _ => rfl⟩
      show Function.update s.root i none j = s.root j
      rw [update_of_ne hji]
  · rcases hcases j S hj with ⟨rfl, rfl⟩ | ⟨hji, hj⟩
    · exact absurd ha (Finset.notMem_empty a)
    · rcases hcases j' S' hj' with ⟨rfl, rfl⟩ | ⟨hji', hj'⟩
      · exact absurd ha' (Finset.notMem_empty a)
      · exact h.apart j j' S S' a hj hj' ha ha'

omit [DecidableEq α] in
/-- One tree gets other nodes, and what is outside it and the new node is as before. -/
theorem Holds.setTree (h : Holds s m) (hi : m i = some S) (hnil : t.color none = .black)
    (hT : IsTimeline s.vruntime t S' T) (hnode : ∀ b, b ∉ S → b ∉ S' → t.node (some b) = s.node (some b))
    (hoff : ∀ a ∈ S', a ∈ S ∨ m.Off a) : Holds (s.setTree i t) (Function.update m i (some S')) := by
  have hcases : ∀ j S₁, Function.update m i (some S') j = some S₁ →
      (j = i ∧ S₁ = S') ∨ (j ≠ i ∧ m j = some S₁) := by
    intro j S₁ hj
    rw [Function.update_apply] at hj
    split_ifs at hj with hji
    · exact .inl ⟨hji, (Option.some.inj hj).symm⟩
    · exact .inr ⟨hji, hj⟩
  -- a task of another tree is in neither set
  have hother : ∀ j S₁ b, j ≠ i → m j = some S₁ → b ∈ S₁ → b ∉ S ∧ b ∉ S' := by
    intro j S₁ b hji hj hb
    have hS : b ∉ S := fun hbS => hji (h.apart j i S₁ S b hj hi hb hbS)
    refine ⟨hS, fun hbS' => ?_⟩
    exact (hoff b hbS').elim hS fun hout => hout j S₁ hj hb
  refine ⟨fun _ => h.initialized ⟨i, by rw [hi]; rintro ⟨⟩⟩, fun _ => hnil, fun j S₁ hj => ?_,
    fun j j' S₁ S₂ a hj hj' ha ha' => ?_⟩
  · rcases hcases j S₁ hj with ⟨rfl, rfl⟩ | ⟨hji, hj⟩
    · refine ⟨T, hT.congr ?_ (fun _ _ => rfl) fun _ _ => rfl⟩
      show Function.update s.root j t.root j = t.root
      rw [update_self]
    · obtain ⟨T₁, hT₁⟩ := h.tree j S₁ hj
      refine ⟨T₁, hT₁.congr ?_ (fun b hb => ?_) fun _ _ => rfl⟩
      · show Function.update s.root i t.root j = s.root j
        rw [update_of_ne hji]
      · obtain ⟨hS, hS'⟩ := hother j S₁ b hji hj hb
        exact hnode b hS hS'
  · rcases hcases j S₁ hj with ⟨rfl, rfl⟩ | ⟨hji, hm⟩
    · rcases hcases j' S₂ hj' with ⟨rfl, rfl⟩ | ⟨hji', hm'⟩
      · rfl
      · exact absurd ha (hother j' S₂ a hji' hm' ha').2
    · rcases hcases j' S₂ hj' with ⟨rfl, rfl⟩ | ⟨hji', hm'⟩
      · exact absurd ha' (hother j S₁ a hji hm ha).2
      · exact h.apart j j' S₁ S₂ a hm hm' ha ha'

omit [DecidableEq ι] [DecidableEq α] in
theorem side_spec (key : α → UInt64) (node y : α) :
    match side key node y with | .left => key node ≤ key y | .right => key y ≤ key node := by
  unfold side
  by_cases hlt : key node < key y
  · rw [if_pos hlt]
    exact UInt64.le_of_lt hlt
  · rw [if_neg hlt]
    exact UInt64.not_lt.mp hlt

theorem insert_spec (h : Holds s m) (hi : m i ≠ none) (hoff : m.Off a)
    (hfuel : ∀ S, m i = some S → S.card + 1 < fuel) :
    ∃ s', step fuel s (.insert i a) = some s' ∧ Holds s' (m.after (.insert i a)) := by
  obtain ⟨S, hS⟩ := Option.ne_none_iff_exists'.mp hi
  obtain ⟨T, hT⟩ := h.tree i S hS
  have hnil : (s.tree i).color none = .black := h.black (h.initialized ⟨i, hi⟩)
  have ha : a ∉ T.toList := fun hmem => hoff i S hS ((hT.mem a).mp hmem)
  have hlen : T.toList.length < fuel := by
    rw [hT.length]
    exact Nat.lt_of_succ_lt (hfuel S hS)
  obtain ⟨t, T', ht, hkept, hsame, hrep, hrb, hsorted, hperm⟩ := rbtreeInsert_spec hnil hT.represents hT.redBlack
    hT.sorted (fun _ _ _ => UInt64.le_trans) (side_spec s.vruntime a) ha hlen
  have hmem : ∀ b, b ∈ T'.toList ↔ b ∈ insert a S := by
    intro b
    rw [hperm.mem_iff, List.mem_cons, Finset.mem_insert, hT.mem]
  refine ⟨s.setTree i t, ?_, ?_⟩
  · show (rbtreeInsert fuel s.vruntime a (s.tree i)).map _ = _
    rw [ht]
    rfl
  · show Holds _ (Function.update m i ((m i).map (insert a)))
    rw [hS]
    refine h.setTree hS (hkept.color hnil) ⟨hrep, hrb, hsorted, hmem⟩ (fun b _ hb => hsame b fun hin => ?_) ?_
    · rw [List.mem_cons, hT.mem, ← Finset.mem_insert] at hin
      exact hb hin
    · intro b hb
      rcases Finset.mem_insert.mp hb with rfl | hb
      · exact .inr hoff
      · exact .inl hb

theorem delete_spec (h : Holds s m) (hi : m i = some S) (ha : a ∈ S) (hfuel : S.card + 1 < fuel) :
    ∃ s', step fuel s (.delete i a) = some s' ∧ Holds s' (m.after (.delete i a)) := by
  obtain ⟨T, hT⟩ := h.tree i S hi
  have hnil : (s.tree i).color none = .black := h.black (h.initialized ⟨i, by rw [hi]; rintro ⟨⟩⟩)
  have hlen : T.toList.length + 1 < fuel := by
    rw [hT.length]
    exact hfuel
  obtain ⟨t, T', ht, hnil', hsame, hrep, hrb, hlist⟩ :=
    rbtreeDelete_spec hnil hT.represents hT.redBlack ((hT.mem a).mpr ha) hlen
  have hmem : ∀ b, b ∈ T'.toList ↔ b ∈ S.erase a := by
    intro b
    rw [hlist, hT.represents.nodup.mem_erase_iff, Finset.mem_erase, hT.mem]
  have hsorted : T'.Sorted fun a b => s.vruntime a ≤ s.vruntime b := by
    unfold CTree.Sorted
    rw [hlist]
    exact List.Pairwise.sublist List.erase_sublist hT.sorted
  refine ⟨s.setTree i t, ?_, ?_⟩
  · show (rbtreeDelete fuel (some a) (s.tree i)).map _ = _
    rw [ht]
    rfl
  · show Holds _ (Function.update m i ((m i).map fun S => S.erase a))
    rw [hi]
    refine h.setTree hi hnil' ⟨hrep, hrb, hsorted, hmem⟩ (fun b hb _ => hsame b fun hin => hb ((hT.mem b).mp hin)) ?_
    exact fun b hb => .inl (Finset.mem_of_mem_erase hb)

omit [DecidableEq ι] in
theorem setVruntime_spec (h : Holds s m) (hoff : m.Off a) {v : UInt64} :
    Holds { s with vruntime := Function.update s.vruntime a v } m := by
  refine ⟨h.initialized, h.black, fun i S hi => ?_, h.apart⟩
  obtain ⟨T, hT⟩ := h.tree i S hi
  refine ⟨T, hT.congr rfl (fun _ _ => rfl) fun b hb => ?_⟩
  show Function.update s.vruntime a v b = s.vruntime b
  rw [update_of_ne fun heq : b = a => hoff i S hi (heq ▸ hb)]

theorem step_spec {op : Op ι α} (h : Holds s m) (hlegal : m.Legal op)
    (hfuel : ∀ i S, m i = some S → S.card + 1 < fuel) :
    ∃ s', step fuel s op = some s' ∧ Holds s' (m.after op) := by
  cases op with
  | init i => exact ⟨_, rfl, rbtreeInit_spec h⟩
  | insert i a => exact insert_spec h hlegal.1 hlegal.2 fun S hi => hfuel i S hi
  | delete i a =>
    obtain ⟨S, hi, ha⟩ := hlegal
    exact delete_spec h hi ha (hfuel i S hi)
  | setVruntime a v => exact ⟨_, rfl, setVruntime_spec h hlegal⟩

/-! ## Runs -/

/-- A step adds one task at most. -/
theorem card_after {op : Op ι α} {n : ℕ} (h : ∀ i S, m i = some S → S.card ≤ n) :
    ∀ i S, m.after op i = some S → S.card ≤ n + 1 := by
  have hupdate : ∀ (i : ι) (f : Option (Finset α)), (∀ S, f = some S → S.card ≤ n + 1) →
      ∀ j S, Function.update m i f j = some S → S.card ≤ n + 1 := by
    intro i f hf j S hj
    rw [Function.update_apply] at hj
    split_ifs at hj with hji
    · exact hf S hj
    · exact Nat.le_succ_of_le (h j S hj)
  cases op with
  | init i =>
    refine hupdate i _ fun S hS => ?_
    obtain rfl := Option.some.inj hS
    exact Nat.zero_le _
  | insert i a =>
    refine hupdate i _ fun S hS => ?_
    obtain ⟨S₀, hS₀, rfl⟩ := Option.map_eq_some_iff.mp hS
    exact (Finset.card_insert_le a S₀).trans (Nat.succ_le_succ (h i S₀ hS₀))
  | delete i a =>
    refine hupdate i _ fun S hS => ?_
    obtain ⟨S₀, hS₀, rfl⟩ := Option.map_eq_some_iff.mp hS
    exact (Finset.card_erase_le.trans (h i S₀ hS₀)).trans (Nat.le_succ n)
  | setVruntime a v => exact fun i S hi => Nat.le_succ_of_le (h i S hi)

theorem run_spec {ops : List (Op ι α)} {n : ℕ} (h : Holds s m) (hcard : ∀ i S, m i = some S → S.card ≤ n)
    (hlegal : Run.Meets (fun m op => some (m.after op)) Members.Legal m ops) (hfuel : n + ops.length + 1 < fuel) :
    ∃ s', Run.run (step fuel) s ops = some s' ∧ Correct s' (ops.foldl Members.after m) fuel := by
  induction ops generalizing s m n with
  | nil => exact ⟨s, rfl, h.correct fun i S hi => (hcard i S hi).trans (by simp at hfuel; omega)⟩
  | cons op ops ih =>
    obtain ⟨hop, hrest⟩ := hlegal
    simp only [List.length_cons] at hfuel
    have hroom : n + 1 < fuel := by omega
    obtain ⟨s₁, hs₁, h₁⟩ := step_spec h hop fun i S hi => lt_of_le_of_lt (Nat.succ_le_succ (hcard i S hi)) hroom
    rw [Run.run_cons hs₁]
    exact ih h₁ (card_after hcard) (hrest _ rfl) (by omega)

/-- Every legal sequence of operations on timelines that share the sentinel runs to its end and leaves each
timeline a red-black tree, in the order of the vruntimes, of the tasks inserted and not deleted. -/
theorem timelines_correct (s : Timelines ι α) (hstart : s.rbtreeInitialized = false) (ops : List (Op ι α))
    (hlegal : Run.Meets (fun m op => some (m.after op)) Members.Legal (fun _ => none) ops)
    (hfuel : ops.length + 1 < fuel) :
    ∃ s', Run.run (step fuel) s ops = some s' ∧ Correct s' (ops.foldl Members.after fun _ => none) fuel := by
  have h : Holds s (fun _ => none) := by
    refine ⟨fun hsome => ?_, fun hinit => ?_, (fun i S hi => nomatch hi), fun i j S S' a hi => nomatch hi⟩
    · obtain ⟨i, hi⟩ := hsome
      exact absurd rfl hi
    · rw [hstart] at hinit
      cases hinit
  have hcard : ∀ (i : ι) (S : Finset α), (fun _ => none : Members ι α) i = some S → S.card ≤ 0 := fun i S hi =>
    nomatch hi
  exact run_spec h hcard hlegal (by omega)

/-- Memory before the first `rbtree_init`. -/
def boot : Timelines Bool ℕ := ⟨false, fun _ => ⟨fun _ => none, none, .red⟩, fun _ => none, fun a => a.toUInt64⟩

theorem timelines_correct_two : ∃ s', Run.run (step 6) boot [.init false, .init true, .insert false 5, .insert true 7] = some s' ∧
    Correct s' ([.init false, .init true, .insert false 5, .insert true 7].foldl Members.after fun _ => none) 6 := by
  refine timelines_correct boot rfl _ ?_ (by decide)
  refine ⟨trivial, fun m hm => ⟨trivial, fun m' hm' => ⟨⟨?_, ?_⟩, fun m'' hm'' => ⟨⟨?_, ?_⟩, fun _ _ => trivial⟩⟩⟩⟩
  all_goals
    obtain rfl := Option.some.inj hm
    obtain rfl := Option.some.inj hm'
  · simp [Members.after]
  · intro i S hi
    cases i
    all_goals
      obtain rfl : ∅ = S := Option.some.inj hi
      exact Finset.notMem_empty 5
  · obtain rfl := Option.some.inj hm''
    simp [Members.after]
  · obtain rfl := Option.some.inj hm''
    intro i S hi
    cases i with
    | false =>
      obtain rfl : {5} = S := Option.some.inj hi
      decide
    | true =>
      obtain rfl : ∅ = S := Option.some.inj hi
      exact Finset.notMem_empty 7

end Cfs
