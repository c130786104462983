import Kenux.Cgroup.Proofs.Charges

/-!
# Names and members of groups (`kernel/cgroup.c`)

What a change of one group, a new group and one that is taken out leave of the tree, the balance, the names of siblings
and the members.
-/

namespace Cgroup

/-- The children of a group have different names. -/
def NamesUnique (s : State) : Prop :=
  ∀ p g, s.groups p = some g → ∀ c ∈ g.children, ∀ c' ∈ g.children, ∀ gc gc',
    s.groups c = some gc → s.groups c' = some gc' → gc.name = gc'.name → c = c'

/-- A pid is in one group at most, and once. -/
def OneGroup (s : State) : Prop :=
  (∀ p q g g' pid, s.groups p = some g → s.groups q = some g' → pid ∈ g.pids → pid ∈ g'.pids → p = q) ∧
    ∀ p g, s.groups p = some g → g.pids.Nodup

variable {u v : State} {p q : ℕ} {g g' : Group} {own : ℕ → ℕ} {pid : UInt64}

theorem SameTree.names (h : SameTree u v) (hn : NamesUnique u) : NamesUnique v := by
  intro p g' hp c hc c' hc' gc gc' hgc hgc' hname
  obtain ⟨g, hg, hl⟩ := h.back hp
  obtain ⟨k, hk, hlk⟩ := h.back hgc
  obtain ⟨k', hk', hlk'⟩ := h.back hgc'
  rw [hl.children] at hc hc'
  exact hn p g hg c hc c' hc' k k' hk hk' (by rw [← hlk.name, ← hlk'.name, hname])

/-- A change of one group that keeps its links and its usage. -/
theorem balanced_set (hb : Balanced own u) (hp : u.groups p = some g) (hl : SameLinks g g')
    (hu : g'.memUsagePages = g.memUsagePages) : Balanced own (u.set p g') := by
  have husage : (u.set p g').usage = u.usage := by
    funext q
    by_cases hq : q = p
    · subst hq
      rw [usage_eq (set_self u q g'), usage_eq hp, hu]
    · simp only [State.usage, set_ne u g' hq]
  intro q gq hq
  obtain ⟨g₀, hg₀, hl₀⟩ := (sameTree_set hp hl).back hq
  have hbal := hb q g₀ hg₀
  rw [← usage_eq hq, husage, usage_eq hg₀, hl₀.children]
  exact hbal

/-- The members after one group was changed. -/
theorem oneGroup_set (h : OneGroup u) (hp : u.groups p = some g) (hnd : g'.pids.Nodup)
    (hnew : ∀ pid ∈ g'.pids, pid ∈ g.pids ∨ ∀ q gq, u.groups q = some gq → pid ∈ gq.pids → q = p) :
    OneGroup (u.set p g') := by
  have hself {q : ℕ} {gq : Group} {pid : UInt64} (hq : u.groups q = some gq) (hm : pid ∈ gq.pids)
      (hm' : pid ∈ g'.pids) : q = p := by
    rcases hnew pid hm' with hold | huniq
    · exact h.1 q p gq g pid hq hp hm hold
    · exact huniq q gq hq hm
  constructor
  · intro q r gq gr pid hq hr hm hm'
    by_cases hqp : q = p <;> by_cases hrp : r = p
    · exact hqp.trans hrp.symm
    · subst hqp
      obtain rfl := Option.some.inj ((set_self u q g').symm.trans hq)
      rw [set_ne u g' hrp] at hr
      exact (hself hr hm' hm).symm
    · subst hrp
      obtain rfl := Option.some.inj ((set_self u r g').symm.trans hr)
      rw [set_ne u g' hqp] at hq
      exact hself hq hm hm'
    · rw [set_ne u g' hqp] at hq
      rw [set_ne u g' hrp] at hr
      exact h.1 q r gq gr pid hq hr hm hm'
  · intro q gq hq
    by_cases hqp : q = p
    · subst hqp
      obtain rfl := Option.some.inj ((set_self u q g').symm.trans hq)
      exact hnd
    · exact h.2 q gq ((set_ne u g' hqp).symm.trans hq)

/-- The members after a change of groups that keeps their pids. -/
theorem oneGroup_of_pids (h : OneGroup u)
    (hback : ∀ q gq', v.groups q = some gq' → ∃ gq, u.groups q = some gq ∧ gq'.pids = gq.pids) : OneGroup v := by
  constructor
  · intro p q gp gq pid hp hq hm hm'
    obtain ⟨kp, hkp, hpids⟩ := hback p gp hp
    obtain ⟨kq, hkq, hqids⟩ := hback q gq hq
    exact h.1 p q kp kq pid hkp hkq (hpids ▸ hm) (hqids ▸ hm')
  · intro p gp hp
    obtain ⟨kp, hkp, hpids⟩ := hback p gp hp
    rw [hpids]
    exact h.2 p kp hkp

open Classical in
/-- The pids after a loop over the ancestors. -/
theorem pids_of_spec {f : Group → Group} (hf : ∀ g, (f g).pids = g.pids)
    (hspec : ∀ q, v.groups q = if Ancestor u p q then (u.groups q).map f else u.groups q) (q : ℕ) (gq' : Group)
    (hq : v.groups q = some gq') : ∃ gq, u.groups q = some gq ∧ gq'.pids = gq.pids := by
  rw [hspec q] at hq
  split at hq
  · obtain ⟨gq, hgq, rfl⟩ := Option.map_eq_some_iff.mp hq
    exact ⟨gq, hgq, hf gq⟩
  · exact ⟨gq', hq, rfl⟩

/-! ## A new group -/

/-- A new group at a free address. -/
structure Added (u v : State) (p : ℕ) (parent : Option ℕ) (name : List UInt8) : Prop where
  free : u.groups p = none
  self : ∃ level, v.groups p = some (newGroup parent level name) ∧
    ∀ q ∈ parent, ∀ gq, u.groups q = some gq → level = gq.level + 1
  under : ∀ q ∈ parent, ∃ gq, u.groups q = some gq ∧ v.groups q = some { gq with children := p :: gq.children }
  other : ∀ q, q ≠ p → some q ≠ parent → v.groups q = u.groups q

theorem cgroupCreate_cases {parent : Option ℕ} {name : Option (List UInt8)} {alloc r : Option ℕ}
    (h : cgroupCreate u parent name alloc = some (r, v)) (hfree : ∀ p ∈ alloc, u.groups p = none) :
    v = u ∨ ∃ p n, alloc = some p ∧ name = some n ∧ Added u v p parent n := by
  unfold cgroupCreate at h
  split at h
  · exact .inl (Prod.mk.inj (Option.some.inj h)).2.symm
  case h_2 n =>
    split at h
    · exact .inl (Prod.mk.inj (Option.some.inj h)).2.symm
    · split at h
      · exact .inl (Prod.mk.inj (Option.some.inj h)).2.symm
      case h_2 p =>
        have hp := hfree p rfl
        split at h
        · obtain ⟨-, rfl⟩ := Prod.mk.inj (Option.some.inj h)
          refine .inr ⟨p, n, rfl, rfl, hp, ⟨0, set_self u p _, by simp⟩, by simp, fun q hq _ => set_ne u _ hq⟩
        case h_2 q =>
          split at h
          · cases h
          case h_2 gq hgq =>
            obtain ⟨-, rfl⟩ := Prod.mk.inj (Option.some.inj h)
            have hpq : p ≠ q := by
              rintro rfl
              rw [hp] at hgq
              cases hgq
            refine .inr ⟨p, n, rfl, rfl, hp, ⟨gq.level + 1, ?_, fun q' hq' gq' hgq' => ?_⟩, fun q' hq' => ?_,
              fun q' hq' hne => ?_⟩
            · rw [set_ne _ _ hpq, set_self]
            · obtain rfl := Option.some.inj hq'
              obtain rfl := Option.some.inj (hgq.symm.trans hgq')
              rfl
            · obtain rfl := Option.some.inj hq'
              exact ⟨gq, hgq, set_self _ q _⟩
            · have hne' : q' ≠ q := fun heq => hne (congrArg some heq)
              rw [set_ne _ _ hne', set_ne _ _ hq']

/-- A group after the call: the new one, or an old one, whose children are as before but for the new one. -/
theorem Added.cases {parent : Option ℕ} {name : List UInt8} (h : Added u v p parent name) (hq : v.groups q = some g) :
    (q = p ∧ ∃ level, g = newGroup parent level name ∧
        ∀ r ∈ parent, ∀ gr, u.groups r = some gr → level = gr.level + 1) ∨
      (q ≠ p ∧ ∃ gq, u.groups q = some gq ∧
        ((some q = parent ∧ g = { gq with children := p :: gq.children }) ∨ (some q ≠ parent ∧ g = gq))) := by
  by_cases hqp : q = p
  · subst hqp
    obtain ⟨level, hself, hlevel⟩ := h.self
    exact .inl ⟨rfl, level, Option.some.inj (hq.symm.trans hself), hlevel⟩
  · refine .inr ⟨hqp, ?_⟩
    by_cases hpar : some q = parent
    · obtain ⟨gq, hgq, hnew⟩ := h.under q hpar.symm
      exact ⟨gq, hgq, .inl ⟨hpar, Option.some.inj (hq.symm.trans hnew)⟩⟩
    · exact ⟨g, (h.other q hqp hpar).symm.trans hq, .inr ⟨hpar, rfl⟩⟩

/-- What stays of a group that was there before. -/
theorem Added.old {parent : Option ℕ} {name : List UInt8} (h : Added u v p parent name) (hq : u.groups q = some g) :
    ∃ g', v.groups q = some g' ∧ g'.name = g.name ∧ g'.parent = g.parent ∧ g'.level = g.level ∧
      g'.memUsagePages = g.memUsagePages ∧ (∀ c ∈ g.children, c ∈ g'.children) ∧
      (some q = parent → p ∈ g'.children) := by
  have hqp : q ≠ p := by
    rintro rfl
    rw [h.free] at hq
    cases hq
  by_cases hpar : some q = parent
  · obtain ⟨gq, hgq, hnew⟩ := h.under q hpar.symm
    obtain rfl := Option.some.inj (hq.symm.trans hgq)
    exact ⟨_, hnew, rfl, rfl, rfl, rfl, fun c hc => List.mem_cons_of_mem _ hc, fun _ => List.mem_cons_self⟩
  · exact ⟨g, (h.other q hqp hpar).trans hq, rfl, rfl, rfl, rfl, fun c hc => hc, fun heq => (hpar heq).elim⟩

theorem Added.not_child {parent : Option ℕ} {name : List UInt8} (h : Added u v p parent name) (hl : Linked u)
    (hq : u.groups q = some g) : p ∉ g.children := by
  intro hp
  obtain ⟨gp, hgp, -⟩ := hl.child hq hp
  rw [h.free] at hgp
  cases hgp

theorem Added.linked {parent : Option ℕ} {name : List UInt8} (h : Added u v p parent name) (hl : Linked u) :
    Linked v := by
  constructor
  · intro c r g hc hr
    rcases h.cases hc with ⟨rfl, level, rfl, hlevel⟩ | ⟨-, gc, hgc, hcase⟩
    · obtain ⟨gr, hgr, -⟩ := h.under r hr
      obtain ⟨g', hg', -, -, hlev, -, -, hmem⟩ := h.old hgr
      refine ⟨g', hg', ?_, hmem hr.symm⟩
      rw [hlev]
      exact hlevel r hr gr hgr
    · have hsame : g.parent = gc.parent ∧ g.level = gc.level := by
        rcases hcase with ⟨-, rfl⟩ | ⟨-, rfl⟩ <;> exact ⟨rfl, rfl⟩
      obtain ⟨gr, hgr, hlev, hmem⟩ := hl.parent hgc (hsame.1.symm.trans hr)
      obtain ⟨g', hg', -, -, hlev', -, hsub, -⟩ := h.old hgr
      exact ⟨g', hg', by rw [hsame.2, hlev, hlev'], hsub c hmem⟩
  · intro r c gr hr hc
    have hold {gq : Group} (hq : u.groups r = some gq) (hc : c ∈ gq.children) :
        ∃ g, v.groups c = some g ∧ g.parent = some r := by
      obtain ⟨gc, hgc, hpar⟩ := hl.child hq hc
      obtain ⟨g', hg', -, hpar', -⟩ := h.old hgc
      exact ⟨g', hg', hpar'.trans hpar⟩
    rcases h.cases hr with ⟨-, level, rfl, -⟩ | ⟨-, gq, hgq, ⟨hpar, rfl⟩ | ⟨-, rfl⟩⟩
    · simp [newGroup] at hc
    · rcases List.mem_cons.mp hc with rfl | hc
      · obtain ⟨level, hself, -⟩ := h.self
        exact ⟨_, hself, hpar.symm⟩
      · exact hold hgq hc
    · exact hold hgq hc
  · intro r gr hr
    rcases h.cases hr with ⟨-, level, rfl, -⟩ | ⟨-, gq, hgq, ⟨-, rfl⟩ | ⟨-, rfl⟩⟩
    · exact List.nodup_nil
    · exact List.nodup_cons.mpr ⟨h.not_child hl hgq, hl.nodup hgq⟩
    · exact hl.nodup hgq

theorem Added.usage {parent : Option ℕ} {name : List UInt8} (h : Added u v p parent name) : v.usage = u.usage := by
  funext q
  cases hq : u.groups q with
  | some g =>
    obtain ⟨g', hg', -, -, -, hu, -⟩ := h.old hq
    rw [usage_eq hg', usage_eq hq, hu]
  | none =>
    cases hv : v.groups q with
    | none => simp [State.usage, hq, hv]
    | some g =>
      rcases h.cases hv with ⟨-, level, rfl, -⟩ | ⟨-, gq, hgq, -⟩
      · simp [State.usage, hq, hv, newGroup]
      · rw [hq] at hgq
        cases hgq

/-- The new group was not charged, and uses nothing. -/
theorem Added.balanced {parent : Option ℕ} {name : List UInt8} (h : Added u v p parent name)
    (hb : Balanced own u) : Balanced (Function.update own p 0) v := by
  intro q g hq
  rw [h.usage]
  rcases h.cases hq with ⟨rfl, level, rfl, -⟩ | ⟨hqp, gq, hgq, hcase⟩
  · simp [newGroup]
  · have hbal := hb q gq hgq
    rw [Function.update_of_ne hqp]
    have hzero : u.usage p = 0 := by simp [State.usage, h.free]
    rcases hcase with ⟨-, rfl⟩ | ⟨-, rfl⟩
    · simp only [List.map_cons, List.sum_cons, hzero, Nat.zero_add]
      exact hbal
    · exact hbal

theorem Added.names {parent : Option ℕ} {name : List UInt8} (h : Added u v p parent name) (hl : Linked u)
    (hn : NamesUnique u)
    (hnew : ∀ q ∈ parent, ∀ g, u.groups q = some g → ∀ c ∈ g.children, ∀ gc, u.groups c = some gc →
      gc.name ≠ stored name) : NamesUnique v := by
  -- the groups among old children are old groups
  have hold {q c : ℕ} {gq gc : Group} (hq : u.groups q = some gq) (hc : c ∈ gq.children)
      (hgc : v.groups c = some gc) : ∃ g₀, u.groups c = some g₀ ∧ gc.name = g₀.name := by
    obtain ⟨g₀, hg₀, -⟩ := hl.child hq hc
    obtain ⟨g', hg', hname, -⟩ := h.old hg₀
    obtain rfl := Option.some.inj (hgc.symm.trans hg')
    exact ⟨g₀, hg₀, hname⟩
  have hself {gp : Group} (hp : v.groups p = some gp) : gp.name = stored name := by
    obtain ⟨level, hself, -⟩ := h.self
    obtain rfl := Option.some.inj (hp.symm.trans hself)
    rfl
  intro q g hq c hc c' hc' gc gc' hgc hgc' heq
  rcases h.cases hq with ⟨-, level, rfl, -⟩ | ⟨-, gq, hgq, ⟨hpar, rfl⟩ | ⟨-, rfl⟩⟩
  · simp [newGroup] at hc
  · rcases List.mem_cons.mp hc with rfl | hmem <;> rcases List.mem_cons.mp hc' with rfl | hmem'
    · rfl
    · obtain ⟨g₀, hg₀, hname⟩ := hold hgq hmem' hgc'
      exact (hnew q hpar.symm gq hgq c' hmem' g₀ hg₀ (by rw [← hname, ← heq, hself hgc])).elim
    · obtain ⟨g₀, hg₀, hname⟩ := hold hgq hmem hgc
      exact (hnew q hpar.symm gq hgq c hmem g₀ hg₀ (by rw [← hname, heq, hself hgc'])).elim
    · obtain ⟨g₀, hg₀, hname⟩ := hold hgq hmem hgc
      obtain ⟨g₁, hg₁, hname'⟩ := hold hgq hmem' hgc'
      exact hn q gq hgq c hmem c' hmem' g₀ g₁ hg₀ hg₁ (by rw [← hname, ← hname', heq])
  · obtain ⟨g₀, hg₀, hname⟩ := hold hgq hc hgc
    obtain ⟨g₁, hg₁, hname'⟩ := hold hgq hc' hgc'
    exact hn q _ hgq c hc c' hc' g₀ g₁ hg₀ hg₁ (by rw [← hname, ← hname', heq])

theorem Added.oneGroup {parent : Option ℕ} {name : List UInt8} (h : Added u v p parent name) (ho : OneGroup u) :
    OneGroup v := by
  have hback {q : ℕ} {g : Group} (hq : v.groups q = some g) :
      g.pids = [] ∨ ∃ gq, u.groups q = some gq ∧ g.pids = gq.pids := by
    rcases h.cases hq with ⟨-, level, rfl, -⟩ | ⟨-, gq, hgq, ⟨-, rfl⟩ | ⟨-, rfl⟩⟩
    · exact .inl rfl
    · exact .inr ⟨gq, hgq, rfl⟩
    · exact .inr ⟨_, hgq, rfl⟩
  constructor
  · intro q r gq gr pid hq hr hm hm'
    rcases hback hq with hnil | ⟨kq, hkq, hpq⟩
    · rw [hnil] at hm
      cases hm
    rcases hback hr with hnil | ⟨kr, hkr, hpr⟩
    · rw [hnil] at hm'
      cases hm'
    exact ho.1 q r kq kr pid hkq hkr (hpq ▸ hm) (hpr ▸ hm')
  · intro q gq hq
    rcases hback hq with hnil | ⟨kq, hkq, hpq⟩
    · rw [hnil]
      exact List.nodup_nil
    · rw [hpq]
      exact ho.2 q kq hkq

/-! ## A group that is taken out -/

/-- The group at `q` when the child `p` of `parent` is taken out. -/
def without (parent : Option ℕ) (p q : ℕ) (g : Group) : Group :=
  { g with children := if parent = some q then g.children.erase p else g.children }

/-- A group without children and members is taken out of the list of its parent. -/
structure Removed (u v : State) (p : ℕ) (g : Group) : Prop where
  live : u.groups p = some g
  children : g.children = []
  self : v.groups p = none
  other : ∀ {q gq}, q ≠ p → v.groups q = some gq → ∃ g₀, u.groups q = some g₀ ∧ gq = without g.parent p q g₀
  kept : ∀ {q g₀}, q ≠ p → u.groups q = some g₀ → v.groups q = some (without g.parent p q g₀)

theorem cgroupDestroy_cases {cgrp : Option ℕ} (h : cgroupDestroy u cgrp = some v) :
    v = u ∨ ∃ p g, cgrp = some p ∧ some p ≠ u.default ∧ g.pids = [] ∧ Removed u v p g := by
  unfold cgroupDestroy at h
  split at h
  · exact .inl (Option.some.inj h).symm
  case h_2 p =>
    split at h
    · exact .inl (Option.some.inj h).symm
    case isFalse hdef =>
      split at h
      · cases h
      case h_2 g hg =>
        split at h
        · exact .inl (Option.some.inj h).symm
        case isFalse hpids =>
          split at h
          · exact .inl (Option.some.inj h).symm
          case isFalse hch =>
            have hnil : g.pids = [] := List.eq_nil_of_length_eq_zero (by omega)
            have hchildren : g.children = [] := not_not.mp hch
            have hfree (w : State) {q : ℕ} (hq : q ≠ p) : (w.free p).groups q = w.groups q :=
              Function.update_of_ne hq _ _
            split at h
            case h_1 hpar =>
              obtain rfl := Option.some.inj h
              refine .inr ⟨p, g, rfl, hdef, hnil, hg, hchildren, Function.update_self p _ _, fun hq hv => ?_,
                fun hq hu => ?_⟩
              · exact ⟨_, (hfree u hq).symm.trans hv, by simp [without, hpar]⟩
              · rw [hfree u hq, hu]
                simp [without, hpar]
            case h_2 r hpar =>
              split at h
              · cases h
              case h_2 gr hgr =>
                obtain rfl := Option.some.inj h
                have hset (q : ℕ) (hq : q ≠ p) (g₀ : Group) (hu : u.groups q = some g₀) :
                    ((u.set r { gr with children := gr.children.erase p }).free p).groups q =
                      some (without g.parent p q g₀) := by
                  rw [hfree _ hq]
                  by_cases hqr : q = r
                  · subst hqr
                    obtain rfl := Option.some.inj (hgr.symm.trans hu)
                    rw [set_self, without, if_pos hpar]
                  · have hne : g.parent ≠ some q := by
                      rw [hpar]
                      exact fun heq => hqr (Option.some.inj heq).symm
                    rw [set_ne _ _ hqr, without, if_neg hne, hu]
                refine .inr ⟨p, g, rfl, hdef, hnil, hg, hchildren, Function.update_self p _ _, fun {q gq} hq hv => ?_,
                  fun hq hu => hset _ hq _ hu⟩
                have hlive : ∃ g₀, u.groups q = some g₀ := by
                  by_cases hqr : q = r
                  · exact ⟨gr, hqr ▸ hgr⟩
                  · rw [hfree _ hq, set_ne _ _ hqr] at hv
                    exact ⟨gq, hv⟩
                obtain ⟨g₀, hg₀⟩ := hlive
                exact ⟨g₀, hg₀, Option.some.inj (hv.symm.trans (hset q hq g₀ hg₀))⟩

/-- The group that was taken out is a child of none any more. -/
theorem Removed.mem_children (h : Removed u v p g) (hl : Linked u) {c : ℕ} {g₀ : Group} (hq : u.groups q = some g₀) :
    c ∈ (without g.parent p q g₀).children ↔ c ∈ g₀.children ∧ c ≠ p := by
  unfold without
  by_cases hpar : g.parent = some q
  · rw [if_pos hpar, (hl.nodup hq).mem_erase_iff]
    exact and_comm
  · rw [if_neg hpar, iff_self_and]
    rintro hc rfl
    obtain ⟨gc, hgc, hpc⟩ := hl.child hq hc
    obtain rfl := Option.some.inj (h.live.symm.trans hgc)
    exact hpar hpc

theorem Removed.ne (h : Removed u v p g) (hq : v.groups q = some g') : q ≠ p := by
  rintro rfl
  rw [h.self] at hq
  cases hq

theorem Removed.linked (h : Removed u v p g) (hl : Linked u) : Linked v := by
  constructor
  · intro c r gc hc hr
    have hcp := h.ne hc
    obtain ⟨g₀, hg₀, rfl⟩ := h.other hcp hc
    obtain ⟨gr, hgr, hlevel, hmem⟩ := hl.parent hg₀ hr
    have hrp : r ≠ p := by
      rintro rfl
      obtain rfl := Option.some.inj (h.live.symm.trans hgr)
      rw [h.children] at hmem
      cases hmem
    exact ⟨_, h.kept hrp hgr, hlevel, (h.mem_children hl hgr).mpr ⟨hmem, hcp⟩⟩
  · intro r c gr hr hc
    obtain ⟨g₀, hg₀, rfl⟩ := h.other (h.ne hr) hr
    obtain ⟨hmem, hcp⟩ := (h.mem_children hl hg₀).mp hc
    obtain ⟨gc, hgc, hpar⟩ := hl.child hg₀ hmem
    exact ⟨_, h.kept hcp hgc, hpar⟩
  · intro r gr hr
    obtain ⟨g₀, hg₀, rfl⟩ := h.other (h.ne hr) hr
    unfold without
    split
    · exact (hl.nodup hg₀).erase p
    · exact hl.nodup hg₀

/-- Its charges went with it, so there must have been none if it had a parent. -/
theorem Removed.balanced (h : Removed u v p g) (hl : Linked u) (hb : Balanced own u)
    (hz : g.parent ≠ none → g.memUsagePages = 0) : Balanced own v := by
  have husage {c : ℕ} (hc : c ≠ p) : v.usage c = u.usage c := by
    cases hu : u.groups c with
    | some g₀ => rw [usage_eq (h.kept hc hu), usage_eq hu, without]
    | none =>
      cases hv : v.groups c with
      | none => simp [State.usage, hu, hv]
      | some gc =>
        obtain ⟨g₀, hg₀, -⟩ := h.other hc hv
        rw [hu] at hg₀
        cases hg₀
  intro q gq hq
  obtain ⟨g₀, hg₀, rfl⟩ := h.other (h.ne hq) hq
  have hbal := hb q g₀ hg₀
  have hsum : ((without g.parent p q g₀).children.map v.usage).sum =
      ((without g.parent p q g₀).children.map u.usage).sum := by
    congr 1
    apply List.map_congr_left
    intro c hc
    exact husage ((h.mem_children hl hg₀).mp hc).2
  rw [hsum]
  change g₀.memUsagePages.toNat = _
  rw [hbal]
  unfold without
  by_cases hpar : g.parent = some q
  · obtain ⟨gq, hgq, -, hmem⟩ := hl.parent h.live hpar
    obtain rfl := Option.some.inj (hg₀.symm.trans hgq)
    have hzero : u.usage p = 0 := by
      rw [usage_eq h.live, hz (by simp [hpar])]
      rfl
    rw [if_pos hpar, ((List.perm_cons_erase hmem).map u.usage).sum_eq, List.map_cons, List.sum_cons, hzero,
      Nat.zero_add]
  · rw [if_neg hpar]

theorem Removed.names (h : Removed u v p g) (hl : Linked u) (hn : NamesUnique u) : NamesUnique v := by
  intro q gq hq c hc c' hc' gc gc' hgc hgc' heq
  obtain ⟨g₀, hg₀, rfl⟩ := h.other (h.ne hq) hq
  obtain ⟨k, hk, rfl⟩ := h.other (h.ne hgc) hgc
  obtain ⟨k', hk', rfl⟩ := h.other (h.ne hgc') hgc'
  exact hn q g₀ hg₀ c ((h.mem_children hl hg₀).mp hc).1 c' ((h.mem_children hl hg₀).mp hc').1 k k' hk hk' heq

theorem Removed.oneGroup (h : Removed u v p g) (ho : OneGroup u) : OneGroup v := by
  refine oneGroup_of_pids ho fun q gq hq => ?_
  obtain ⟨g₀, hg₀, rfl⟩ := h.other (h.ne hq) hq
  exact ⟨g₀, hg₀, rfl⟩

end Cgroup
