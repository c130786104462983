import Kenux.Cgroup.Proofs.Members

/-!
# Runs of the group calls (`kernel/cgroup.c`)
-/

namespace Cgroup

open Run

/-- A call that adds a name, a member or pages, or takes a group away, does so only when it should. -/
def Fine (s : Sys) : Call → Prop
  | .create parent name _ =>
    ∀ p ∈ parent, ∀ n ∈ name, ∀ g, s.cgroups.groups p = some g → ∀ c ∈ g.children, ∀ gc,
      s.cgroups.groups c = some gc → gc.name ≠ stored n
  | .destroy cgrp =>
    ∀ p ∈ cgrp, some p ≠ s.cgroups.default → ∀ g, s.cgroups.groups p = some g → g.pids = [] → g.children = [] →
      g.parent ≠ none → g.memUsagePages = 0
  | .attach cgrp pid =>
    ∀ p ∈ cgrp, pid ≠ 0 → ∀ g, s.cgroups.groups p = some g → g.pids.length < maxProcs →
      ∀ q gq, s.cgroups.groups q = some gq → pid ∈ gq.pids → q = p
  | .charge cgrp pages => ∀ p ∈ cgrp, Refused s.cgroups p pages ∨ Fits s.cgroups p pages
  | _ => True

/-- What holds in every state of a fine run. -/
structure Sound (s : Sys) : Prop where
  linked : Linked s.cgroups
  balanced : Balanced s.own s.cgroups
  names : NamesUnique s.cgroups
  pids : OneGroup s.cgroups

variable {s t : Sys} {p : ℕ} {g : Group} {pages pid : UInt64}

/-! ## Attaching, detaching, limits -/

theorem attach_sound {cgrp : Option ℕ} (h : Sound s) (hok : Fine s (.attach cgrp pid))
    (hst : step s (.attach cgrp pid) = some t) : Sound t := by
  obtain ⟨r, hr, rfl⟩ := Option.map_eq_some_iff.mp hst
  rcases cgrp with - | p
  · obtain rfl := Option.some.inj hr
    exact h
  simp only [cgroupAttachTask] at hr
  split at hr
  · obtain rfl := Option.some.inj hr
    exact h
  case isFalse hpid =>
    split at hr
    · cases hr
    case h_2 g hg =>
      split at hr
      · obtain rfl := Option.some.inj hr
        exact h
      case isFalse hroom =>
        split at hr
        · obtain rfl := Option.some.inj hr
          exact h
        case isFalse hnew =>
          obtain rfl := Option.some.inj hr
          have htree : SameTree s.cgroups (s.cgroups.set p { g with pids := g.pids ++ [pid] }) :=
            sameTree_set hg ⟨rfl, rfl, rfl, rfl⟩
          refine ⟨htree.linked h.linked, balanced_set h.balanced hg ⟨rfl, rfl, rfl, rfl⟩ rfl,
            htree.names h.names, oneGroup_set h.pids hg ?_ fun pid' hm => ?_⟩
          · refine List.nodup_append.mpr ⟨h.pids.2 p g hg, by simp, fun a ha b hb hab => ?_⟩
            obtain rfl : b = pid := by simpa using hb
            exact hnew (hab ▸ ha)
          · rcases List.mem_append.mp hm with hm | hm
            · exact .inl hm
            · obtain rfl : pid' = pid := by simpa using hm
              exact .inr fun q gq hq hmq => hok p rfl hpid g hg (by omega) q gq hq hmq

theorem detach_sound {cgrp : Option ℕ} (h : Sound s) (hst : step s (.detach cgrp pid) = some t) : Sound t := by
  obtain ⟨r, hr, rfl⟩ := Option.map_eq_some_iff.mp hst
  rcases cgrp with - | p
  · obtain rfl := Option.some.inj hr
    exact h
  simp only [cgroupDetachTask] at hr
  split at hr
  · cases hr
  case h_2 g hg =>
    split at hr
    · obtain rfl := Option.some.inj hr
      have htree : SameTree s.cgroups (s.cgroups.set p { g with pids := g.pids.erase pid }) :=
            sameTree_set hg ⟨rfl, rfl, rfl, rfl⟩
      exact ⟨htree.linked h.linked, balanced_set h.balanced hg ⟨rfl, rfl, rfl, rfl⟩ rfl, htree.names h.names,
        oneGroup_set h.pids hg ((h.pids.2 p g hg).erase pid) fun pid' hm => .inl (List.mem_of_mem_erase hm)⟩
    · obtain rfl := Option.some.inj hr
      exact h

theorem setLimit_sound {limit : UInt64} (h : Sound s) (hst : step s (.setLimit p limit) = some t) : Sound t := by
  simp only [step] at hst
  split at hst
  · cases hst
  case h_2 g hg =>
    obtain rfl := Option.some.inj hst
    have htree : SameTree s.cgroups (s.cgroups.set p { g with memLimitPages := limit }) :=
            sameTree_set hg ⟨rfl, rfl, rfl, rfl⟩
    exact ⟨htree.linked h.linked, balanced_set h.balanced hg ⟨rfl, rfl, rfl, rfl⟩ rfl, htree.names h.names,
      oneGroup_set h.pids hg (h.pids.2 p g hg) fun pid' hm => .inl hm⟩

/-! ## Charging and giving back -/

theorem charge_sound {cgrp : Option ℕ} (h : Sound s) (hok : Fine s (.charge cgrp pages))
    (hst : step s (.charge cgrp pages) = some t) : Sound t := by
  obtain ⟨r, hr, rfl⟩ := Option.map_eq_some_iff.mp hst
  rcases cgrp with - | p
  · obtain rfl := Option.some.inj hr
    exact h
  cases hp : s.cgroups.groups p with
  | none => simp [cgroupMemCharge, rounds, anyRefuses, hp] at hr
  | some g =>
    rcases cgroupMemCharge_spec h.linked hp pages with ⟨-, heq⟩ | ⟨v, hno, heq, htree, -, hspec⟩
    · obtain rfl := Option.some.inj (heq.symm.trans hr)
      exact h
    · obtain rfl := Option.some.inj (heq.symm.trans hr)
      have hfits := (hok p rfl).resolve_left hno
      have hmoved := usage_account hfits hspec (h.linked.ancestor_live hp)
      refine ⟨htree.linked h.linked, ?_, htree.names h.names, ?_⟩
      · exact (balanced_iff_of_moved h.linked hp htree hmoved).mp h.balanced
      · exact oneGroup_of_pids h.pids (pids_of_spec (f := Group.account pages) (fun _ => rfl) hspec)

open Classical in
theorem unaccount_sound {cgrp : Option ℕ} (h : Sound s) (hst : step s (.unaccount cgrp pages) = some t) :
    Sound t := by
  simp only [step] at hst
  split at hst
  case isFalse => cases hst
  case isTrue hown =>
    obtain ⟨v, hv, rfl⟩ := Option.map_eq_some_iff.mp hst
    rcases cgrp with - | p
    · obtain rfl := Option.some.inj hv
      exact h
    cases hp : s.cgroups.groups p with
    | none => simp [cgroupMemUnaccount, rounds, eachAncestor, hp] at hv
    | some g =>
      obtain ⟨v', hv', htree, -, hspec⟩ :=
        eachAncestor_spec (sameLinks_unaccount pages) h.linked hp (level_lt_rounds hp)
      obtain rfl := Option.some.inj (hv'.symm.trans hv)
      have hle : pages.toNat ≤ s.own p := hown p rfl
      have hmoved := usage_unaccount
        (fun q gq ha hq => hle.trans (h.balanced.own_le h.linked ha hq)) hspec (h.linked.ancestor_live hp)
      -- seen from the new state, the pages were charged
      obtain ⟨g', hp', -⟩ := htree.live hp
      have hback : Function.update (s.addOwn (some p) (· - pages.toNat)) p
          (s.addOwn (some p) (· - pages.toNat) p + pages.toNat) = s.own := by
        funext q
        by_cases hq : q = p
        · subst hq
          simp only [Sys.addOwn, Function.update_self]
          omega
        · simp [Sys.addOwn, hq]
      have hmoved' (q : ℕ) : s.cgroups.usage q = v'.usage q + if Ancestor v' p q then pages.toNat else 0 := by
        rw [hmoved q]
        exact congrArg _ (if_congr htree.ancestor rfl rfl)
      have hiff : Balanced (s.addOwn (some p) (· - pages.toNat)) v' ↔ Balanced _ s.cgroups :=
        balanced_iff_of_moved (htree.linked h.linked) hp' htree.symm hmoved'
      rw [hback] at hiff
      exact ⟨htree.linked h.linked, hiff.mpr h.balanced, htree.names h.names,
        oneGroup_of_pids h.pids (pids_of_spec (f := Group.unaccount pages) (fun _ => rfl) hspec)⟩

/-! ## Creating and destroying -/

theorem create_sound {parent : Option ℕ} {name : Option (List UInt8)} {alloc : Option ℕ} (h : Sound s)
    (hok : Fine s (.create parent name alloc)) (hst : step s (.create parent name alloc) = some t) : Sound t := by
  rcases alloc with - | p
  · obtain ⟨⟨r, v⟩, hr, rfl⟩ := Option.map_eq_some_iff.mp hst
    rcases cgroupCreate_cases hr (by simp) with rfl | ⟨p, n, hp, -⟩
    · exact h
    · cases hp
  simp only [step] at hst
  split at hst
  · cases hst
  case isFalse hlive =>
    have hfree : s.cgroups.groups p = none := by simpa using hlive
    obtain ⟨⟨r, v⟩, hr, rfl⟩ := Option.map_eq_some_iff.mp hst
    rcases cgroupCreate_cases hr (by simpa using hfree) with rfl | ⟨p', n, hp, rfl, hadd⟩
    · refine ⟨h.linked, fun q g hq => ?_, h.names, h.pids⟩
      have hqp : q ≠ p := by
        rintro rfl
        exact absurd hq (by simp [hfree])
      dsimp only
      rw [Function.update_of_ne hqp]
      exact h.balanced q g hq
    · obtain rfl := Option.some.inj hp
      exact ⟨hadd.linked h.linked, hadd.balanced h.balanced,
        hadd.names h.linked h.names fun q hq g hg c hc gc hgc => hok q hq n rfl g hg c hc gc hgc,
        hadd.oneGroup h.pids⟩

theorem destroy_sound {cgrp : Option ℕ} (h : Sound s) (hok : Fine s (.destroy cgrp))
    (hst : step s (.destroy cgrp) = some t) : Sound t := by
  obtain ⟨v, hv, rfl⟩ := Option.map_eq_some_iff.mp hst
  rcases cgroupDestroy_cases hv with rfl | ⟨p, g, rfl, hdef, hpids, hrem⟩
  · exact h
  · exact ⟨hrem.linked h.linked,
      hrem.balanced h.linked h.balanced (hok p rfl hdef g hrem.live hpids hrem.children),
      hrem.names h.linked h.names, hrem.oneGroup h.pids⟩

/-! ## Runs -/

theorem init_sound (alloc : Option ℕ) : Sound (.init alloc) := by
  have hgroup {p : ℕ} {g : Group} (hp : (cgroupInit alloc).groups p = some g) : g = newGroup none 0 [47] := by
    cases alloc with
    | none => cases hp
    | some q =>
      simp only [cgroupInit] at hp
      by_cases hpq : p = q
      · subst hpq
        rw [Function.update_self] at hp
        exact (Option.some.inj hp).symm
      · rw [Function.update_of_ne hpq] at hp
        cases hp
  refine ⟨⟨fun hc hp => ?_, fun hp hc => ?_, fun hp => ?_⟩, fun p g hp => ?_, fun p g hp c hc => ?_,
    ⟨fun p q g g' pid hp hq hm => ?_, fun p g hp => ?_⟩⟩
  · rw [hgroup hc] at hp
    cases hp
  · rw [hgroup hp] at hc
    cases hc
  · rw [hgroup hp]
    exact List.nodup_nil
  · rw [hgroup hp]
    rfl
  · rw [hgroup hp] at hc
    cases hc
  · rw [hgroup hp] at hm
    cases hm
  · rw [hgroup hp]
    exact List.nodup_nil

theorem step_sound {c : Call} (h : Sound s) (hok : Fine s c) (hst : step s c = some t) : Sound t := by
  cases c with
  | create parent name alloc => exact create_sound h hok hst
  | destroy cgrp => exact destroy_sound h hok hst
  | attach cgrp pid => exact attach_sound h hok hst
  | detach cgrp pid => exact detach_sound h hst
  | setLimit p limit => exact setLimit_sound h hst
  | charge cgrp pages => exact charge_sound h hok hst
  | unaccount cgrp pages => exact unaccount_sound h hst

theorem sound_of_reach {alloc : Option ℕ} (h : Reach step Fine (.init alloc) s) : Sound s :=
  h.invariant (init_sound alloc) fun _ _ _ hs hok hst => step_sound hs hok hst

/-- What a charge of a live group does: it changes nothing, or leaves every group from `p` upwards within its limit. -/
theorem charge_limits (h : Sound s) (hp : s.cgroups.groups p = some g) (pages : UInt64) :
    cgroupMemCharge s.cgroups (some p) pages = some (-1, s.cgroups) ∨
      ∃ v, cgroupMemCharge s.cgroups (some p) pages = some (0, v) ∧
        ∀ q gq, Ancestor v p q → v.groups q = some gq → gq.memUsagePages ≤ gq.memLimitPages := by
  classical
  rcases cgroupMemCharge_spec h.linked hp pages with ⟨-, heq⟩ | ⟨v, hno, heq, htree, -, hspec⟩
  · exact .inl heq
  refine .inr ⟨v, heq, fun q gq ha hq => ?_⟩
  have ha := htree.ancestor.mpr ha
  rw [hspec q, if_pos ha] at hq
  obtain ⟨g₀, hg₀, rfl⟩ := Option.map_eq_some_iff.mp hq
  have hacc : g₀.refuses pages = false := by
    by_contra href
    exact hno ⟨q, g₀, ha, hg₀, by simpa using href⟩
  change g₀.memUsagePages + pages ≤ g₀.memLimitPages
  by_cases hmax : g₀.memLimitPages = memLimitMax
  · rw [hmax, UInt64.le_iff_toNat_le]
    have hlt := (g₀.memUsagePages + pages).toNat_lt
    simp only [memLimitMax, UInt64.reduceToNat]
    omega
  · simpa [Group.refuses, hmax] using hacc

/-- In a run whose calls meet the condition every usage is the own charges and the children's, a charge is refused and
changes nothing or keeps to the limits, names of siblings differ and a pid is in one group. -/
theorem cgroups_sound (alloc : Option ℕ) (s : Sys) (h : Reach step Fine (.init alloc) s) :
    Balanced s.own s.cgroups ∧ NamesUnique s.cgroups ∧ OneGroup s.cgroups ∧
      ∀ p g pages, s.cgroups.groups p = some g →
        cgroupMemCharge s.cgroups (some p) pages = some (-1, s.cgroups) ∨
          ∃ v, cgroupMemCharge s.cgroups (some p) pages = some (0, v) ∧
            ∀ q gq, Ancestor v p q → v.groups q = some gq → gq.memUsagePages ≤ gq.memLimitPages := by
  have hs := sound_of_reach h
  exact ⟨hs.balanced, hs.names, hs.pids, fun p g pages hp => charge_limits hs hp pages⟩

/-- A group under the root is charged. -/
theorem cgroups_sound_charge :
    ∃ s, run step (.init (some 1)) [.create (some 1) (some [97]) (some 2), .charge (some 2) 5] = some s ∧
      Balanced s.own s.cgroups ∧ NamesUnique s.cgroups ∧ OneGroup s.cgroups := by
  obtain ⟨s₁, h₁⟩ : ∃ s₁, step (.init (some 1)) (.create (some 1) (some [97]) (some 2)) = some s₁ := ⟨_, rfl⟩
  obtain ⟨s, h₂⟩ : ∃ s, step s₁ (.charge (some 2) 5) = some s := by
    obtain rfl := Option.some.inj h₁
    exact ⟨_, rfl⟩
  have hcreate : Fine (.init (some 1)) (.create (some 1) (some [97]) (some 2)) := by
    intro p hp n _ g hg c hc
    obtain rfl := Option.some.inj hp
    obtain rfl : newGroup none 0 [47] = g := Option.some.inj hg
    cases hc
  have hcharge : Fine s₁ (.charge (some 2) 5) := by
    intro p _
    refine .inr fun q gq ha hq => ?_
    have hzero : gq.memUsagePages = 0 := by
      obtain rfl := Option.some.inj h₁
      by_cases h1 : q = 1
      · subst h1
        obtain rfl := Option.some.inj hq
        rfl
      · by_cases h2 : q = 2
        · subst h2
          obtain rfl := Option.some.inj hq
          rfl
        · simp [Sys.init, cgroupInit, State.set, h1, h2] at hq
    rw [hzero]
    decide
  have hrun : run step (.init (some 1)) [.create (some 1) (some [97]) (some 2), .charge (some 2) 5] = some s := by
    rw [run_cons h₁, run_cons h₂, run_nil]
  obtain ⟨hbal, hnames, hpids, -⟩ := cgroups_sound (some 1) s ((Reach.start.step _ hcreate h₁).step _ hcharge h₂)
  exact ⟨s, hrun, hbal, hnames, hpids⟩

/-- A group that is destroyed leaves its charges with the root. -/
theorem destroyed_charges_stay :
    ∃ s, run step (.init (some 1)) [.create (some 1) (some [97]) (some 2), .charge (some 2) 5, .destroy (some 2)] =
      some s ∧ ¬ Balanced s.own s.cgroups := by
  obtain ⟨s, hs⟩ : ∃ s, run step (.init (some 1))
      [.create (some 1) (some [97]) (some 2), .charge (some 2) 5, .destroy (some 2)] = some s := ⟨_, rfl⟩
  have heval : (run step (.init (some 1))
      [.create (some 1) (some [97]) (some 2), .charge (some 2) 5, .destroy (some 2)]).map (fun s =>
        (s.own 1, (s.cgroups.groups 1).map fun g => (g.memUsagePages, g.children))) = some (0, some (5, [])) := by
    decide
  rw [hs, Option.map_some, Option.some.injEq, Prod.mk.injEq] at heval
  obtain ⟨g, hg, hroot⟩ := Option.map_eq_some_iff.mp heval.2
  obtain ⟨husage, hchildren⟩ := Prod.mk.inj hroot
  refine ⟨s, hs, fun hbal => ?_⟩
  have hsum := hbal 1 g hg
  rw [heval.1, husage, hchildren] at hsum
  cases hsum

end Cgroup
