import Kenux.Build.Schedule

/-!
# The closure of the roots (`buildsystem/core/model.py`)
-/

namespace Build

open Relation

/-- The target `a` depends on the target `b`, through an input, an implicit input or by name. -/
def DependsOn (g : BuildGraph) (a b : String) : Prop :=
  ∃ t, g.lookup a = some t ∧
    ((∃ p ∈ t.allInputs, ∃ d, g.producer p = some d ∧ d.name = b) ∨ b ∈ t.dependsOn)

/-- The target `a` names a dependency that is no target. -/
def Unknown (g : BuildGraph) (a : String) : Prop :=
  ∃ t, g.lookup a = some t ∧ ∃ n ∈ t.dependsOn, g.lookup n = none

/-- The targets of `closure`: no name twice, each behind its dependencies, and those that the roots depend on. -/
structure ClosureOrder (g : BuildGraph) (roots order : List String) : Prop where
  nodup : order.Nodup
  before : ∀ l a l', order = l ++ a :: l' → ∀ b, DependsOn g a b → b ∈ l
  mem : ∀ b, b ∈ order ↔ ∃ a ∈ roots, ReflTransGen (DependsOn g) a b

variable {g : BuildGraph} {a b : String} {t d : Target}

theorem lookup_some (h : g.lookup a = some t) : t ∈ g.targets ∧ t.name = a := by
  have hname := List.find?_some h
  exact ⟨List.mem_of_find?_eq_some h, by simpa using hname⟩

theorem lookup_isSome : (g.lookup a).isSome ↔ a ∈ g.targets.map Target.name := by
  simp [BuildGraph.lookup, List.find?_isSome]

theorem addDependency_names (result : List Target) (d : Target) (b : String) :
    b ∈ (addDependency result d).map Target.name ↔ b ∈ result.map Target.name ∨ b = d.name := by
  unfold addDependency
  split
  case isTrue h =>
    refine ⟨.inl, fun hb => hb.elim id fun hb => ?_⟩
    rw [hb]
    exact h
  case isFalse => simp

theorem addProducers_names (paths : List Path) (result : List Target) (b : String) :
    b ∈ (g.addProducers paths result).map Target.name ↔
      b ∈ result.map Target.name ∨ ∃ p ∈ paths, ∃ d, g.producer p = some d ∧ d.name = b := by
  induction paths generalizing result with
  | nil => simp [BuildGraph.addProducers]
  | cons p ps ih =>
    unfold BuildGraph.addProducers
    cases hp : g.producer p with
    | none =>
      rw [ih]
      simp [hp]
    | some d =>
      rw [ih, addDependency_names]
      simp only [List.mem_cons, exists_eq_or_imp, hp, Option.some.injEq, exists_eq_left']
      rw [or_assoc, eq_comm (a := b)]

theorem addNamed_spec (t : Target) (names : List String) (result : List Target) :
    (∃ ds, g.addNamed t names result = .ok ds ∧ (∀ n ∈ names, (g.lookup n).isSome) ∧
        ∀ b, b ∈ ds.map Target.name ↔ b ∈ result.map Target.name ∨ b ∈ names) ∨
      ∃ e, g.addNamed t names result = .error e ∧ ∃ n ∈ names, g.lookup n = none := by
  induction names generalizing result with
  | nil => exact .inl ⟨result, rfl, by simp, by simp⟩
  | cons n names ih =>
    cases hn : g.lookup n with
    | none => exact .inr ⟨.unknownTarget t.name n, by simp [BuildGraph.addNamed, hn], n, List.mem_cons_self, hn⟩
    | some d =>
      have heq : g.addNamed t (n :: names) result = g.addNamed t names (addDependency result d) := by
        simp [BuildGraph.addNamed, hn]
      rw [heq]
      rcases ih (addDependency result d) with ⟨ds, hds, hall, hmem⟩ | ⟨e, he, m, hm, hnone⟩
      · refine .inl ⟨ds, hds, fun m hm => ?_, fun b => ?_⟩
        · rcases List.mem_cons.mp hm with rfl | hm
          · simp [hn]
          · exact hall m hm
        · rw [hmem, addDependency_names, (lookup_some hn).2, List.mem_cons, or_assoc]
      · exact .inr ⟨e, he, m, List.mem_cons_of_mem _ hm, hnone⟩

/-- What `dependencies` gives: the names of what the target depends on, or an error for an unknown one. -/
theorem succs_spec (ha : g.lookup a = some t) :
    (∃ ns, g.succs a = .ok ns ∧ ¬ Unknown g a ∧ ∀ b, b ∈ ns ↔ DependsOn g a b) ∨
      ∃ e, g.succs a = .error e ∧ Unknown g a := by
  have hsuccs : g.succs a = (g.dependencies t).map fun ds => ds.map Target.name := by
    simp [BuildGraph.succs, ha]
  rcases addNamed_spec (g := g) t t.dependsOn (g.addProducers t.allInputs []) with ⟨ds, hds, hall, hmem⟩ | ⟨e, he, hn⟩
  · refine .inl ⟨ds.map Target.name, by rw [hsuccs, BuildGraph.dependencies, hds]; rfl, ?_, fun b => ?_⟩
    · rintro ⟨t', ht', n, hn, hnone⟩
      obtain rfl := Option.some.inj (ha.symm.trans ht')
      have hsome := hall n hn
      simp [hnone] at hsome
    · rw [hmem, addProducers_names]
      simp only [List.map_nil, List.not_mem_nil, false_or]
      refine ⟨fun h => ⟨t, ha, h⟩, ?_⟩
      rintro ⟨t', ht', h⟩
      obtain rfl := Option.some.inj (ha.symm.trans ht')
      exact h
  · exact .inr ⟨e, by rw [hsuccs, BuildGraph.dependencies, he]; rfl, t, ha, hn⟩

theorem succs_error_iff : (∃ e, g.succs a = .error e) ↔ Unknown g a := by
  constructor
  · rintro ⟨e, he⟩
    cases ha : g.lookup a with
    | none => simp [BuildGraph.succs, ha] at he
    | some t =>
      rcases succs_spec ha with ⟨ns, hns, -, -⟩ | ⟨-, -, hunk⟩
      · rw [hns] at he
        cases he
      · exact hunk
  · rintro ⟨t, ha, hn⟩
    rcases succs_spec ha with ⟨ns, -, hno, -⟩ | ⟨e, he, -⟩
    · exact (hno ⟨t, ha, hn⟩).elim
    · exact ⟨e, he⟩

/-- The edges that the traversal follows are the dependencies of targets that name no unknown one. -/
theorem edge_iff : DepthFirst.Edge g.succs a b ↔ DependsOn g a b ∧ ¬ Unknown g a := by
  cases ha : g.lookup a with
  | none => simp [DepthFirst.Edge, DependsOn, BuildGraph.succs, ha]
  | some t =>
    rcases succs_spec ha with ⟨ns, hns, hno, hmem⟩ | ⟨e, he, hunk⟩
    · simp [DepthFirst.Edge, hns, hno, hmem]
    · simp [DepthFirst.Edge, he, hunk]

/-- A dependency of a target that names no unknown one is a target. -/
theorem mem_names_of_edge (h : DepthFirst.Edge g.succs a b) : b ∈ g.targets.map Target.name := by
  obtain ⟨⟨t, ha, hdep⟩, hno⟩ := edge_iff.mp h
  rcases hdep with ⟨p, -, d, hd, rfl⟩ | hb
  · exact List.mem_map_of_mem (List.mem_of_find?_eq_some hd)
  · rw [← lookup_isSome, Option.isSome_iff_ne_none]
    exact fun hnone => hno ⟨t, ha, b, hb, hnone⟩

/-- A path of dependencies is one of edges, unless it meets a target that names an unknown one. -/
theorem reach_edge_or_unknown (h : ReflTransGen (DependsOn g) a b) :
    ReflTransGen (DepthFirst.Edge g.succs) a b ∨ ∃ c, ReflTransGen (DepthFirst.Edge g.succs) a c ∧ Unknown g c := by
  induction h with
  | refl => exact .inl .refl
  | @tail b c _ hbc ih =>
    rcases ih with hab | hunk
    · by_cases hb : Unknown g b
      · exact .inr ⟨b, hab, hb⟩
      · exact .inl (hab.tail (edge_iff.mpr ⟨hbc, hb⟩))
    · exact .inr hunk

/-- What makes the traversal fail, in terms of the dependencies. -/
theorem bad_iff : DepthFirst.Bad g.succs a ↔
    ∃ b, ReflTransGen (DependsOn g) a b ∧ (TransGen (DependsOn g) b b ∨ Unknown g b) := by
  have hsub {x y : String} (h : DepthFirst.Edge g.succs x y) : DependsOn g x y := (edge_iff.mp h).1
  constructor
  · rintro ⟨b, hab, hb⟩
    refine ⟨b, ReflTransGen.mono (fun _ _ => hsub) _ _ hab, hb.imp (TransGen.mono (fun _ _ => hsub) _ _) succs_error_iff.mp⟩
  · have hunknown {b c : String} (hab : ReflTransGen (DepthFirst.Edge g.succs) a b)
        (hbc : ReflTransGen (DepthFirst.Edge g.succs) b c) (hc : Unknown g c) : DepthFirst.Bad g.succs a :=
      ⟨c, hab.trans hbc, .inr (succs_error_iff.mpr hc)⟩
    rintro ⟨b, hab, hb⟩
    rcases reach_edge_or_unknown hab with hab | ⟨c, hac, hc⟩
    · rcases hb with hcycle | hb
      · obtain ⟨c, hbc, hcb⟩ := TransGen.head'_iff.mp hcycle
        by_cases hub : Unknown g b
        · exact hunknown hab .refl hub
        have hedge : DepthFirst.Edge g.succs b c := edge_iff.mpr ⟨hbc, hub⟩
        rcases reach_edge_or_unknown hcb with hcb | ⟨d, hcd, hd⟩
        · exact ⟨b, hab, .inl (.head' hedge hcb)⟩
        · exact hunknown hab (.head hedge hcd) hd
      · exact hunknown hab .refl hb
    · exact hunknown .refl hac hc

/-- `closure` returns; it raises an error if and only if a cycle or a target with an unknown dependency is reached from
the roots, and else gives a topological order of what is reached. -/
theorem closure_spec {roots : List String} (hroots : ∀ a ∈ roots, (g.lookup a).isSome) :
    ∃ r, g.closure roots = some r ∧
      ((∃ e, r = .error e) ↔ ∃ a ∈ roots, ∃ b, ReflTransGen (DependsOn g) a b ∧
        (TransGen (DependsOn g) b b ∨ Unknown g b)) ∧
      ∀ order, r = .ok order → ClosureOrder g roots order := by
  have hcard : (g.targets.map Target.name).toFinset.card < g.targets.length + 1 := by
    rw [List.toFinset_card_of_nodup g.names_nodup, List.length_map]
    omega
  have hclosed (a b : String) (h : DepthFirst.Edge g.succs a b) : b ∈ (g.targets.map Target.name).toFinset :=
    List.mem_toFinset.mpr (mem_names_of_edge h)
  have hnodes (a : String) (ha : a ∈ roots) : a ∈ (g.targets.map Target.name).toFinset :=
    List.mem_toFinset.mpr (lookup_isSome.mp (hroots a ha))
  rcases DepthFirst.postorder_spec hclosed hnodes hcard with ⟨order, hr, htop, hmem, hgood⟩ | ⟨e, hr, a, ha, hbad⟩
  · refine ⟨.ok order, by simp [BuildGraph.closure, hr, Except.mapError], ?_, ?_⟩
    · constructor
      · rintro ⟨e, he⟩
        cases he
      · rintro ⟨a, ha, hb⟩
        exact (hgood a ha (bad_iff.mpr hb)).elim
    · rintro _ ⟨rfl⟩
      -- in the order no target names an unknown one, so its edges are the dependencies
      have hedge {x y : String} (hx : x ∈ order) (h : DependsOn g x y) : DepthFirst.Edge g.succs x y := by
        refine edge_iff.mpr ⟨h, fun hunk => ?_⟩
        obtain ⟨as, has⟩ := htop.known x hx
        obtain ⟨e, he⟩ := succs_error_iff.mpr hunk
        rw [has] at he
        cases he
      refine ⟨htop.nodup, fun l x l' heq y hxy => ?_, fun b => (hmem b).trans ⟨?_, ?_⟩⟩
      · exact htop.before l x l' heq y (hedge (by simp [heq]) hxy)
      · rintro ⟨a, ha, hab⟩
        exact ⟨a, ha, ReflTransGen.mono (fun _ _ h => (edge_iff.mp h).1) _ _ hab⟩
      · rintro ⟨a, ha, hab⟩
        refine ⟨a, ha, ?_⟩
        rcases reach_edge_or_unknown hab with hab | ⟨c, hac, hc⟩
        · exact hab
        · exact (hgood a ha (bad_iff.mpr ⟨c, ReflTransGen.mono (fun _ _ h => (edge_iff.mp h).1) _ _ hac, .inr hc⟩)).elim
  · refine ⟨.error (graphError e), by simp [BuildGraph.closure, hr, Except.mapError], ?_, fun order h => by cases h⟩
    exact ⟨fun _ => ⟨a, ha, bad_iff.mp hbad⟩, fun _ => ⟨_, rfl⟩⟩

end Build
