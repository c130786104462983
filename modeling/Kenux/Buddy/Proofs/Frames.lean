import Kenux.Buddy.Proofs.Zones

/-!
# What no operation changes

In any state, well formed or not: the zones stay where they are, the pages keep the zone they name, a page
that is handed out is marked as used and otherwise as before, and a page that is freed heads a list of the
zone it is freed into.
-/

namespace Buddy

open Blocks

/-- The zone lies where it did, and the pages name the zones they did. -/
structure Steady (s s' : State) : Prop where
  frame : s'.zone.frame = s.zone.frame
  zoneIdx : ∀ q, (s'.heap q).zoneIdx = (s.heap q).zoneIdx

/-- Nothing but links has changed. -/
structure Relinked (s s' : State) : Prop where
  frame : s'.zone.frame = s.zone.frame
  data : ∀ q, s'.data q = s.data q

section

variable {s s' s'' : State} {p q k : ℕ}

theorem Steady.refl : Steady s s := ⟨rfl, fun _ => rfl⟩

theorem Steady.trans (h : Steady s s') (h' : Steady s' s'') : Steady s s'' :=
  ⟨h'.frame.trans h.frame, fun q => (h'.zoneIdx q).trans (h.zoneIdx q)⟩

theorem Relinked.refl : Relinked s s := ⟨rfl, fun _ => rfl⟩

theorem Relinked.trans (h : Relinked s s') (h' : Relinked s' s'') : Relinked s s'' :=
  ⟨h'.frame.trans h.frame, fun q => (h'.data q).trans (h.data q)⟩

theorem Relinked.steady (h : Relinked s s') : Steady s s' :=
  ⟨h.frame, fun q => congrArg (fun d : ℕ × UInt32 × UInt32 × ℤ => d.2.2.2) (h.data q)⟩

theorem Relinked.listAdd : Relinked s (listAdd s k p) :=
  ⟨by rw [listAdd_zone]; rfl, fun _ => listAdd_data⟩

theorem Relinked.listPop : Relinked s (listPop s k).2 := by
  cases hp : s.zone.freeList k with
  | none =>
    have hsame : (Buddy.listPop s k).2 = s := by
      unfold Buddy.listPop
      rw [hp]
    rw [hsame]
    exact .refl
  | some p => exact ⟨by rw [listPop_zone hp]; rfl, fun _ => listPop_data hp⟩

theorem Relinked.popUsable (fuel : ℕ) : ∀ s : State, Relinked s (popUsable fuel s k).2 := by
  induction fuel with
  | zero => exact fun s => .refl
  | succ fuel ih =>
    intro s
    have hpop : Relinked s (Buddy.listPop s k).2 := .listPop
    unfold Buddy.popUsable
    generalize Buddy.listPop s k = r at hpop ⊢
    obtain ⟨_ | p, t⟩ := r
    · exact hpop
    · dsimp only at hpop ⊢
      split_ifs
      · exact hpop.trans (ih t)
      · exact hpop

theorem Steady.modify {f : Page → Page} (hf : ∀ x, (f x).zoneIdx = x.zoneIdx) : Steady s (s.modify p f) := by
  refine ⟨rfl, fun q => ?_⟩
  rw [modify_heap]
  split_ifs with h
  · rw [hf, h]
  · rfl

/-! ## Allocating -/

theorem Steady.splitOnce : Steady s (splitOnce s p k) := by
  unfold Buddy.splitOnce
  cases splitBuddy s p k with
  | none => exact .refl
  | some b => exact (Steady.modify (by intro; rfl)).trans Relinked.listAdd.steady

/-- The page that is split keeps its data. -/
theorem splitOnce_data : (splitOnce s p k).data p = s.data p := by
  unfold splitOnce
  cases hb : splitBuddy s p k with
  | none => rfl
  | some b =>
    have hne : p ≠ b := by
      obtain ⟨rfl, -⟩ := pfnToPage_eq_some hb
      exact (buddyPfn_ne p k).symm
    dsimp only
    rw [listAdd_data, modify_data, if_neg hne]

theorem splitLoop_steady (order current : ℕ) : ∀ s : State,
    Steady s (splitLoop p order current s) ∧ (splitLoop p order current s).data p = s.data p := by
  induction current with
  | zero => exact fun s => ⟨.refl, rfl⟩
  | succ current ih =>
    intro s
    unfold splitLoop
    split_ifs
    · obtain ⟨hsteady, hdata⟩ := ih (splitOnce s p current)
      exact ⟨Steady.splitOnce.trans hsteady, hdata.trans splitOnce_data⟩
    · exact ⟨.refl, rfl⟩

/-- A page that is handed out. -/
structure Taken (s s' : State) (p order : ℕ) : Prop where
  order_le : order ≤ maxOrder
  order : (s'.heap p).order = order
  flags : (s'.heap p).flags = (s.heap p).flags ||| pageFlagUsed

/-- What an allocation that may fail leaves. -/
structure Tried (s s' : State) (r : Option ℕ) (order : ℕ) : Prop where
  steady : Steady s s'
  failed : r = none → ∀ q, s'.data q = s.data q
  taken : ∀ p, r = some p → Taken s s' p order

theorem Relinked.tried (h : Relinked s s') {order : ℕ} : Tried s s' none order :=
  ⟨h.steady, fun _ => h.data, fun p hp => by cases hp⟩

theorem buddyAllocPages_tried (s : State) (order : ℕ) :
    Tried s (buddyAllocPages s order).2 (buddyAllocPages s order).1 order := by
  unfold buddyAllocPages
  split_ifs with hle
  · exact Relinked.refl.tried
  cases findOrder s order with
  | none => exact Relinked.refl.tried
  | some c =>
    have hpop : Relinked s (popUsable (s.zone.span + 1) s c).2 := .popUsable _ s
    dsimp only
    generalize popUsable (s.zone.span + 1) s c = r at hpop ⊢
    obtain ⟨_ | p, t⟩ := r
    · exact hpop.tried
    · dsimp only at hpop ⊢
      generalize hmark : t.modify p (fun x => { x with flags := x.flags ||| pageFlagUsed, refcount := 1 }) = u
      have hu : Steady t u ∧ (u.heap p).flags = (t.heap p).flags ||| pageFlagUsed := by
        subst hmark
        exact ⟨Steady.modify (by intro; rfl), by rw [modify_heap, if_pos rfl]⟩
      obtain ⟨hsplit, hdata⟩ := splitLoop_steady (p := p) order c u
      generalize splitLoop p order c u = v at hsplit hdata ⊢
      have htake : Steady v (v.modify p ({ · with order := order })) := Steady.modify (by intro; rfl)
      have hall := (hpop.steady.trans hu.1).trans (hsplit.trans htake)
      refine ⟨⟨hall.frame, hall.zoneIdx⟩, fun hc => absurd hc (Option.some_ne_none _), fun q hq => ?_⟩
      obtain rfl := Option.some.inj hq
      have hheap : (takePage v p order).heap p = { v.heap p with order := order } := Function.update_self ..
      refine ⟨Nat.not_lt.mp hle, by rw [hheap], ?_⟩
      rw [hheap]
      exact (flags_of_data hdata).trans (hu.2.trans (by rw [flags_of_data (hpop.data p)]))

/-! ## Freeing -/

/-- The block is part of a free one that heads its list. -/
def Zone.Heads (zone : Zone) (p k : ℕ) : Prop :=
  ∃ p' k', zone.freeList k' = some p' ∧ p' ≤ p ∧ p + 2 ^ k ≤ p' + 2 ^ k'

theorem mergeLoop_steady (fuel : ℕ) : ∀ (p k : ℕ) (s : State), Steady s (mergeLoop fuel p k s) ∧
    (mergeLoop fuel p k s).zone.Heads p k ∧ (mergeLoop fuel p k s).zone.freePages = s.zone.freePages := by
  have hfinish : ∀ (p k : ℕ) (s : State), Steady s (listAdd (s.modify p ({ · with order := k })) k p) ∧
      (listAdd (s.modify p ({ · with order := k })) k p).zone.Heads p k ∧
      (listAdd (s.modify p ({ · with order := k })) k p).zone.freePages = s.zone.freePages := by
    intro p k s
    refine ⟨(Steady.modify (by intro; rfl)).trans Relinked.listAdd.steady, ⟨p, k, ?_, le_rfl, le_rfl⟩, ?_⟩
    · rw [listAdd_zone]
      exact Function.update_self ..
    · rw [listAdd_zone]
      rfl
  induction fuel with
  | zero => exact hfinish
  | succ fuel ih =>
    intro p k s
    unfold mergeLoop
    cases hb : mergeableBuddy s p k with
    | none => exact hfinish p k s
    | some b =>
      obtain ⟨rfl, -⟩ := mergeableBuddy_some hb
      have hunlink : Relinked s ((listDel s (buddyPfn p k)).dropCount k 1) := by
        refine ⟨?_, fun _ => listDel_data⟩
        rw [dropCount_zone, listDel_zone]
        rfl
      have hfree : ((listDel s (buddyPfn p k)).dropCount k 1).zone.freePages = s.zone.freePages := by
        rw [dropCount_zone, listDel_zone]
      obtain ⟨hsteady, ⟨p', k', hhead, hlo, hhi⟩, hcount⟩ :=
        ih (if buddyPfn p k < p then buddyPfn p k else p) (k + 1) ((listDel s (buddyPfn p k)).dropCount k 1)
      refine ⟨hunlink.steady.trans hsteady, ⟨p', k', hhead, ?_⟩, hcount.trans hfree⟩
      have hadd : buddyPfn p k = p + 2 ^ k ∨ buddyPfn p k + 2 ^ k = p := xor_adjacent p k
      rw [pow_succ] at hhi
      generalize 2 ^ k = n at hadd hhi ⊢
      generalize 2 ^ k' = n' at hhi ⊢
      split_ifs at hlo hhi with hlt
      · omega
      · omega

/-- Merging leaves the flags alone. -/
theorem mergeLoop_flags (fuel : ℕ) : ∀ (p k : ℕ) (s : State), ((mergeLoop fuel p k s).heap q).flags = (s.heap q).flags := by
  have hdata : ∀ {s s' : State}, s'.data q = s.data q → (s'.heap q).flags = (s.heap q).flags := fun h => flags_of_data h
  have hfinish : ∀ (p k : ℕ) (s : State),
      ((listAdd (s.modify p ({ · with order := k })) k p).heap q).flags = (s.heap q).flags := by
    intro p k s
    rw [hdata listAdd_data, modify_heap]
    split_ifs with hq
    · rw [hq]
    · rfl
  induction fuel with
  | zero => exact hfinish
  | succ fuel ih =>
    intro p k s
    unfold mergeLoop
    cases mergeableBuddy s p k with
    | none => exact hfinish p k s
    | some b => exact (ih _ _ _).trans (hdata listDel_data)

/-- Only the page that is freed stops being used. -/
theorem buddyFreePages_used : ((s.heap p).used = true → ((buddyFreePages s p).heap p).used = false) ∧
    (q ≠ p → ((buddyFreePages s p).heap q).used = (s.heap q).used) := by
  have hrel : ∀ q, ((releasePage s p).heap q).flags =
      if q = p then (s.heap p).flags &&& ~~~pageFlagUsed else (s.heap q).flags := by
    intro q
    show (Function.update s.heap p _ q).flags = _
    by_cases hq : q = p
    · rw [hq, Function.update_self, if_pos rfl]
    · rw [Function.update_of_ne hq, if_neg hq]
  unfold buddyFreePages
  split_ifs with hused
  · refine ⟨fun _ => ?_, fun hq => ?_⟩
    · refine (flags_release (x := s.heap p) ?_).1
      rw [mergeLoop_flags, hrel, if_pos rfl]
    · unfold Page.used
      rw [mergeLoop_flags, hrel, if_neg hq]
  · exact ⟨fun h => absurd h hused, fun _ => rfl⟩

/-- A used page that is freed heads a list, and its pages are counted as free. -/
theorem buddyFreePages_steady : Steady s (buddyFreePages s p) ∧ ((s.heap p).used = true →
    (buddyFreePages s p).zone.Heads p (s.heap p).order ∧
      (buddyFreePages s p).zone.freePages = s.zone.freePages + pageCount (s.heap p).order) := by
  unfold buddyFreePages
  split_ifs with hused
  · have hmod : Steady s (s.modify p fun x => { x with flags := x.flags &&& ~~~pageFlagUsed, refcount := 0 }) :=
      Steady.modify (by intro; rfl)
    have hrel : Steady s (releasePage s p) := ⟨hmod.frame, hmod.zoneIdx⟩
    obtain ⟨hsteady, hheads, hcount⟩ := mergeLoop_steady (maxOrder - (s.heap p).order) p (s.heap p).order (releasePage s p)
    exact ⟨hrel.trans hsteady, fun _ => ⟨hheads, hcount⟩⟩
  · exact ⟨.refl, fun h => absurd h hused⟩

end

/-! ## The system -/

structure SteadySystem (sys sys' : System) : Prop where
  initialized : sys'.initialized = sys.initialized
  frame : ∀ i, (sys'.zones i).map Zone.frame = (sys.zones i).map Zone.frame
  zoneIdx : ∀ q, (sys'.heap q).zoneIdx = (sys.heap q).zoneIdx

section

variable {sys sys' sys'' : System} {i j : ZoneIdx} {z : Zone} {s : State} {p order : ℕ}

theorem SteadySystem.refl : SteadySystem sys sys := ⟨rfl, fun _ => rfl, fun _ => rfl⟩

theorem SteadySystem.trans (h : SteadySystem sys sys') (h' : SteadySystem sys' sys'') : SteadySystem sys sys'' :=
  ⟨h'.initialized.trans h.initialized, fun i => (h'.frame i).trans (h.frame i),
    fun q => (h'.zoneIdx q).trans (h.zoneIdx q)⟩

theorem Steady.put (h : Steady ⟨sys.heap, z⟩ s) (hz : sys.zones i = some z) : SteadySystem sys (sys.put i s) := by
  refine ⟨rfl, fun j => ?_, h.zoneIdx⟩
  rw [put_zones]
  split_ifs with hji
  · rw [hji, hz]
    exact congrArg some h.frame
  · rfl

/-- A zone afterwards lies where one was before. -/
theorem SteadySystem.zone_of (h : SteadySystem sys sys') {w : Zone} (hw : sys'.zones i = some w) :
    ∃ z, sys.zones i = some z ∧ w.frame = z.frame := by
  have hframe := h.frame i
  rw [hw] at hframe
  obtain ⟨z, hz, heq⟩ := Option.map_eq_some_iff.mp hframe.symm
  exact ⟨z, hz, heq.symm⟩

theorem Laid.steady (hl : Laid sys) (h : SteadySystem sys sys') : Laid sys' := by
  refine ⟨fun i j z w hij hz hw p hp => ?_, fun i z hz p hp => ?_⟩
  · obtain ⟨z', hz', hframe⟩ := h.zone_of hz
    obtain ⟨w', hw', hframe'⟩ := h.zone_of hw
    rw [inZone_congr hframe] at hp
    rw [inZone_congr hframe']
    exact hl.apart i j z' w' hij hz' hw' p hp
  · obtain ⟨z', hz', hframe⟩ := h.zone_of hz
    rw [inZone_congr hframe] at hp
    exact (h.zoneIdx p).trans (hl.zoneIdx i z' hz' p hp)

/-- The page of an allocation that does not fail is marked as used and has the order asked for. -/
structure TakenFrom (sys sys' : System) (p order : ℕ) : Prop where
  order_le : order ≤ maxOrder
  order : (sys'.heap p).order = order
  flags : (sys'.heap p).flags = (sys.heap p).flags ||| pageFlagUsed

theorem tryZones_steady (order : ℕ) (is : List ZoneIdx) : ∀ sys : System,
    SteadySystem sys (tryZones order is sys).2 ∧ ∀ i p, (tryZones order is sys).1 = some (i, p) →
      (tryZones order is sys).2.zones i ≠ none ∧ TakenFrom sys (tryZones order is sys).2 p order := by
  induction is with
  | nil => exact fun sys => ⟨.refl, fun i p h => by cases h⟩
  | cons i is ih =>
    intro sys
    unfold tryZones
    cases hz : sys.zones i with
    | none => exact ih sys
    | some z =>
      have htried := buddyAllocPages_tried ⟨sys.heap, z⟩ order
      dsimp only
      generalize buddyAllocPages ⟨sys.heap, z⟩ order = r at htried ⊢
      obtain ⟨_ | p, s⟩ := r
      · obtain ⟨hsteady, htaken⟩ := ih (sys.put i s)
        refine ⟨(htried.steady.put hz).trans hsteady, fun j q hq => ?_⟩
        obtain ⟨hzone, ht⟩ := htaken j q hq
        refine ⟨hzone, ht.order_le, ht.order, ht.flags.trans ?_⟩
        have hdata : (s.heap q).data = (sys.heap q).data := htried.failed rfl q
        show (s.heap q).flags ||| _ = _
        rw [flags_of_data hdata]
      · refine ⟨htried.steady.put hz, fun j q hq => ?_⟩
        obtain ⟨rfl, rfl⟩ := Prod.mk.inj (Option.some.inj hq)
        obtain ⟨hle, horder, hflags⟩ := htried.taken p rfl
        refine ⟨?_, hle, horder, hflags⟩
        show (sys.put i s).zones i ≠ none
        rw [put_zones, if_pos rfl]
        exact Option.some_ne_none _

theorem allocPages_steady (sys : System) (order : ℕ) : SteadySystem sys (allocPages sys order).2 ∧
    ∀ i p, (allocPages sys order).1 = some (i, p) →
      (allocPages sys order).2.zones i ≠ none ∧ TakenFrom sys (allocPages sys order).2 p order := by
  unfold allocPages allocPagesZone
  split_ifs
  · exact tryZones_steady order _ sys
  · exact ⟨.refl, fun i p h => by cases h⟩

theorem freePages_steady (sys : System) (p : ℕ) : SteadySystem sys (freePages sys p) := by
  unfold freePages
  split_ifs
  · have hzone : ∀ i z, (zoneOfIdx sys p).or (zoneOfPfn sys p) = some (i, z) → sys.zones i = some z := by
      intro i z h
      rcases Option.or_eq_some_iff.mp h with h | ⟨-, h⟩
      · obtain ⟨j, -, h⟩ := Option.bind_eq_some_iff.mp h
        obtain ⟨w, hw, heq⟩ := Option.map_eq_some_iff.mp h
        obtain ⟨rfl, rfl⟩ := Prod.mk.inj heq
        exact hw
      · obtain ⟨j, -, h⟩ := List.exists_of_findSome?_eq_some h
        obtain ⟨w, hw, heq⟩ := Option.map_eq_some_iff.mp h
        obtain ⟨rfl, rfl⟩ := Prod.mk.inj heq
        exact (Option.filter_eq_some_iff.mp hw).1
    cases h : (zoneOfIdx sys p).or (zoneOfPfn sys p) with
    | none => exact .refl
    | some a => exact (buddyFreePages_steady).1.put (hzone a.1 a.2 h)
  · exact .refl

theorem freePagesVirt_steady (sys : System) (virt : UInt64) : SteadySystem sys (freePagesVirt sys virt) := by
  unfold freePagesVirt
  split_ifs
  · exact .refl
  · cases zoneOfPfn sys (virt.toNat / 4096) with
    | none => exact .refl
    | some a =>
      dsimp only
      cases virtToPage a.2 virt with
      | none => exact .refl
      | some p => exact freePages_steady sys p

end

end Buddy
