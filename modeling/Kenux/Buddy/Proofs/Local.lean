import Kenux.Buddy.Proofs.Runs

/-!
# A zone's operations stay in the zone

Whether or not its lists are well formed: if the links of the pages of a zone lead to pages of the
zone, no operation writes to a page of another zone, and the links still do afterwards.
-/

namespace Buddy

def InZone (z : Zone) (p : ℕ) : Prop := z.basePfn ≤ p ∧ p < z.endPfn

/-- The heads of the lists are pages of the zone, and the links of its pages do not leave it. -/
structure Closed (s : State) : Prop where
  heads : ∀ k p, s.zone.freeList k = some p → InZone s.zone p
  next : ∀ p, InZone s.zone p → ∀ q, s.next p = some q → InZone s.zone q
  prev : ∀ p, InZone s.zone p → ∀ q, s.prev p = some q → InZone s.zone q

/-- Only pages of the zone are written to, and not to their `zone_idx`. -/
structure Local (s s' : State) : Prop where
  frame : s'.zone.frame = s.zone.frame
  outside : ∀ q, ¬ InZone s.zone q → s'.heap q = s.heap q
  zoneIdx : ∀ q, (s'.heap q).zoneIdx = (s.heap q).zoneIdx
  closed : Closed s'

section

variable {s s' s'' : State} {o v : Option ℕ} {p k : ℕ}

theorem inZone_congr {z z' : Zone} (h : z'.frame = z.frame) : InZone z' = InZone z := by
  obtain ⟨-, hb, he⟩ := frame_eq h
  funext p
  unfold InZone
  rw [hb, he]

theorem Local.refl (h : Closed s) : Local s s := ⟨rfl, fun _ _ => rfl, fun _ => rfl, h⟩

theorem Local.trans (h : Local s s') (h' : Local s' s'') : Local s s'' where
  frame := h'.frame.trans h.frame
  outside q hq := (h'.outside q (by rwa [inZone_congr h.frame])).trans (h.outside q hq)
  zoneIdx q := (h'.zoneIdx q).trans (h.zoneIdx q)
  closed := h'.closed

theorem Local.inZone (h : Local s s') : InZone s'.zone = InZone s.zone := inZone_congr h.frame

/-- A page that a list or a link leads to is a page of the zone. -/
theorem Local.of_inZone (h : Local s s') (hp : InZone s.zone p) : InZone s'.zone p := by
  rwa [h.inZone]

theorem Local.modify (h : Closed s) (hp : InZone s.zone p) {f : Page → Page}
    (hn : ∀ q, (f (s.heap p)).next = some q → InZone s.zone q)
    (hv : ∀ q, (f (s.heap p)).prev = some q → InZone s.zone q)
    (hz : (f (s.heap p)).zoneIdx = (s.heap p).zoneIdx) : Local s (s.modify p f) where
  frame := rfl
  outside q hq := by
    rw [modify_heap, if_neg]
    rintro rfl
    exact hq hp
  zoneIdx q := by
    rw [modify_heap]
    split_ifs with h
    · rw [hz, h]
    · rfl
  closed := by
    refine ⟨h.heads, fun q hq r hr => ?_, fun q hq r hr => ?_⟩
    · rw [modify_next] at hr
      split_ifs at hr
      · exact hn r hr
      · exact h.next q hq r hr
    · rw [modify_prev] at hr
      split_ifs at hr
      · exact hv r hr
      · exact h.prev q hq r hr

/-- A write to the other fields of a page. -/
theorem Local.data (h : Closed s) (hp : InZone s.zone p) {f : Page → Page}
    (hf : ∀ x, (f x).next = x.next ∧ (f x).prev = x.prev ∧ (f x).zoneIdx = x.zoneIdx) :
    Local s (s.modify p f) := by
  obtain ⟨hn, hv, hz⟩ := hf (s.heap p)
  exact .modify h hp (fun q hq => h.next p hp q (hn.symm.trans hq))
    (fun q hq => h.prev p hp q (hv.symm.trans hq)) hz

theorem Local.setNext (h : Closed s) (ho : ∀ q, o = some q → InZone s.zone q)
    (hv : ∀ q, v = some q → InZone s.zone q) : Local s (s.setNext o v) := by
  cases o with
  | none => exact .refl h
  | some p =>
    exact .modify (f := ({ · with next := v })) h (ho p rfl) hv (h.prev p (ho p rfl)) rfl

theorem Local.setPrev (h : Closed s) (ho : ∀ q, o = some q → InZone s.zone q)
    (hv : ∀ q, v = some q → InZone s.zone q) : Local s (s.setPrev o v) := by
  cases o with
  | none => exact .refl h
  | some p =>
    exact .modify (f := ({ · with prev := v })) h (ho p rfl) (h.next p (ho p rfl)) hv rfl

theorem Local.setList {c : UInt64} (h : Closed s) (ho : ∀ q, o = some q → InZone s.zone q) :
    Local s (s.setList k o c) where
  frame := rfl
  outside _ _ := rfl
  zoneIdx _ := rfl
  closed := by
    refine ⟨fun j q hq => ?_, h.next, h.prev⟩
    change Function.update s.zone.freeList k o j = some q at hq
    by_cases hjk : j = k
    · subst hjk
      rw [Function.update_self] at hq
      exact ho q hq
    · rw [Function.update_of_ne hjk] at hq
      exact h.heads j q hq

/-- A walk along the links stays in the zone. -/
theorem Closed.reaches (h : Closed s) (ho : ∀ q, o = some q → InZone s.zone q)
    (hr : DList.Reaches s.next o p) : InZone s.zone p := by
  induction hr with
  | here => exact ho _ rfl
  | next _ ih => exact ih fun q hq => h.next _ (ho _ rfl) q hq

/-! ## Lists -/

theorem Local.listDel (h : Closed s) (hp : InZone s.zone p) : Local s (Buddy.listDel s p) := by
  unfold Buddy.listDel
  have h₁ := Local.setNext h (h.prev p hp) (h.next p hp)
  have hp₁ := h₁.of_inZone hp
  have h₂ := Local.setPrev h₁.closed (h₁.closed.next p hp₁) (h₁.closed.prev p hp₁)
  exact (h₁.trans h₂).trans (.modify h₂.closed (h₂.of_inZone hp₁) (by simp) (by simp) rfl)

theorem Local.listAdd (h : Closed s) (hp : InZone s.zone p) : Local s (Buddy.listAdd s k p) := by
  unfold Buddy.listAdd
  have h₁ := Local.modify (f := ({ · with next := s.zone.freeList k, prev := none })) h hp
    (h.heads k) (by simp) rfl
  have h₂ := Local.setPrev (v := some p) h₁.closed (h₁.closed.heads k) fun q hq =>
    Option.some.inj hq ▸ h₁.of_inZone hp
  refine (h₁.trans h₂).trans (.setList h₂.closed fun q hq => ?_)
  exact Option.some.inj hq ▸ h₂.of_inZone (h₁.of_inZone hp)

theorem Local.listPop (h : Closed s) : Local s (Buddy.listPop s k).2 := by
  unfold Buddy.listPop
  cases hp : s.zone.freeList k with
  | none => exact .refl h
  | some p =>
    have hin := h.heads k p hp
    have h₁ := Local.setPrev (v := none) h (h.next p hin) (by simp)
    have h₂ := Local.modify (f := ({ · with next := none, prev := none })) h₁.closed
      (h₁.of_inZone hin) (by simp) (by simp) rfl
    refine (h₁.trans h₂).trans (.setList h₂.closed fun q hq => ?_)
    rw [(h₁.trans h₂).inZone]
    exact h.next p hin q hq

theorem listPop_inZone (h : Closed s) (hp : (listPop s k).1 = some p) : InZone s.zone p := by
  unfold listPop at hp
  cases hq : s.zone.freeList k with
  | none =>
    rw [hq] at hp
    exact absurd hp (by simp)
  | some q =>
    rw [hq] at hp
    exact Option.some.inj hp ▸ h.heads k q hq

/-- The counters of a zone do not matter. -/
theorem Local.counters (h : Closed s) {z : Zone} (hl : z.freeList = s.zone.freeList)
    (hf : z.frame = s.zone.frame) : Local s ⟨s.heap, z⟩ where
  frame := hf
  outside _ _ := rfl
  zoneIdx _ := rfl
  closed := by
    refine ⟨fun k p hp => ?_, fun p hp q hq => ?_, fun p hp q hq => ?_⟩
    · rw [inZone_congr hf]
      exact h.heads k p (congrFun hl k ▸ hp)
    · rw [inZone_congr hf] at hp ⊢
      exact h.next p hp q hq
    · rw [inZone_congr hf] at hp ⊢
      exact h.prev p hp q hq

/-! ## Allocating -/

theorem popUsable_local (fuel : ℕ) : ∀ s : State, Closed s →
    Local s (popUsable fuel s k).2 ∧ ∀ p, (popUsable fuel s k).1 = some p → InZone s.zone p := by
  induction fuel with
  | zero => exact fun s h => ⟨.refl h, by simp [popUsable]⟩
  | succ fuel ih =>
    intro s h
    have hloc := Local.listPop (k := k) h
    have hin := fun p => listPop_inZone (k := k) (p := p) h
    unfold popUsable
    generalize Buddy.listPop s k = r at hloc hin ⊢
    obtain ⟨_ | p, t⟩ := r
    · exact ⟨hloc, by simp⟩
    · dsimp only at hloc ⊢
      split_ifs
      · obtain ⟨h', hin'⟩ := ih t hloc.closed
        exact ⟨hloc.trans h', fun q hq => hloc.inZone ▸ hin' q hq⟩
      · exact ⟨hloc, hin⟩

theorem splitOnce_local (h : Closed s) : Local s (splitOnce s p k) := by
  unfold splitOnce
  cases hb : splitBuddy s p k with
  | none => exact .refl h
  | some b =>
    obtain ⟨rfl, hin⟩ := pfnToPage_eq_some hb
    have h₁ := Local.data (f := ({ · with order := k, flags := 0, refcount := 0 })) h hin
      fun x => ⟨rfl, rfl, rfl⟩
    exact h₁.trans (.listAdd h₁.closed (h₁.of_inZone hin))

theorem splitLoop_local (order current : ℕ) : ∀ s : State, Closed s →
    Local s (splitLoop p order current s) := by
  induction current with
  | zero => exact fun s h => .refl h
  | succ current ih =>
    intro s h
    unfold splitLoop
    split_ifs
    · have h₁ := splitOnce_local (p := p) (k := current) h
      exact h₁.trans (ih _ h₁.closed)
    · exact .refl h

theorem buddyAllocPages_local (h : Closed s) (order : ℕ) :
    Local s (buddyAllocPages s order).2 ∧
      ∀ p, (buddyAllocPages s order).1 = some p → InZone s.zone p := by
  unfold buddyAllocPages
  split_ifs
  · exact ⟨.refl h, by simp⟩
  cases findOrder s order with
  | none => exact ⟨.refl h, by simp⟩
  | some c =>
    obtain ⟨hloc, hin⟩ := popUsable_local (k := c) (s.zone.span + 1) s h
    dsimp only
    generalize popUsable (s.zone.span + 1) s c = r at hloc hin ⊢
    obtain ⟨_ | p, t⟩ := r
    · exact ⟨hloc, by simp⟩
    · dsimp only at hloc hin ⊢
      have hp := hloc.of_inZone (hin p rfl)
      have h₁ := Local.data
        (f := fun x => { x with flags := x.flags ||| pageFlagUsed, refcount := 1 }) hloc.closed hp
        fun x => ⟨rfl, rfl, rfl⟩
      have h₂ := splitLoop_local (p := p) order c _ h₁.closed
      have hp₂ := h₂.of_inZone (h₁.of_inZone hp)
      have h₃ := Local.data (f := ({ · with order := order })) h₂.closed hp₂
        fun x => ⟨rfl, rfl, rfl⟩
      exact ⟨(((hloc.trans h₁).trans h₂).trans h₃).trans (.counters h₃.closed rfl rfl), hin⟩

/-! ## Freeing -/

theorem mergeLoop_local (fuel : ℕ) : ∀ (p k : ℕ) (s : State), Closed s → InZone s.zone p →
    Local s (mergeLoop fuel p k s) := by
  have hfinish : ∀ (p k : ℕ) (s : State), Closed s → InZone s.zone p →
      Local s (Buddy.listAdd (s.modify p ({ · with order := k })) k p) := by
    intro p k s h hp
    have h₁ := Local.data (f := ({ · with order := k })) h hp fun x => ⟨rfl, rfl, rfl⟩
    exact h₁.trans (.listAdd h₁.closed (h₁.of_inZone hp))
  induction fuel with
  | zero => exact hfinish
  | succ fuel ih =>
    intro p k s h hp
    unfold mergeLoop
    cases hb : mergeableBuddy s p k with
    | none => exact hfinish p k s h hp
    | some b =>
      unfold mergeableBuddy at hb
      obtain ⟨hb, -⟩ := Option.filter_eq_some_iff.mp hb
      obtain ⟨rfl, hin⟩ := pfnToPage_eq_some hb
      have h₁ := Local.listDel h hin
      have h₂ := h₁.trans (.setList (k := k)
        (c := (Buddy.listDel s (buddyPfn p k)).zone.freeCount k - 1) h₁.closed (h₁.closed.heads k))
      refine h₂.trans (ih _ _ _ h₂.closed ?_)
      split_ifs
      · exact h₂.of_inZone hin
      · exact h₂.of_inZone hp

theorem buddyFreePages_local (h : Closed s) (hp : InZone s.zone p) :
    Local s (buddyFreePages s p) := by
  unfold buddyFreePages
  split_ifs
  · have h₁ := Local.data
      (f := fun x => { x with flags := x.flags &&& ~~~pageFlagUsed, refcount := 0 }) h hp
      fun x => ⟨rfl, rfl, rfl⟩
    have h₂ : Local s (releasePage s p) := h₁.trans (.counters h₁.closed rfl rfl)
    exact h₂.trans (mergeLoop_local _ _ _ _ h₂.closed (h₂.of_inZone hp))
  · exact .refl h

/-! ## `buddy_init` -/

theorem carve_local (fuel : ℕ) : ∀ (start free : ℕ) (s : State), Closed s →
    s.zone.basePfn ≤ start → start + free ≤ s.zone.endPfn → Local s (carve fuel start free s) := by
  induction fuel with
  | zero => exact fun _ _ _ h _ _ => .refl h
  | succ fuel ih =>
    intro start free s h hlo hhi
    unfold carve
    split_ifs with h0
    · have hin : InZone s.zone start := ⟨hlo, by omega⟩
      have hfit := (fitOrder_spec h0 maxOrder).2
      dsimp only
      generalize fitOrder free maxOrder = k at hfit ⊢
      have h₁ := Local.data (f := ({ · with order := k })) h hin fun x => ⟨rfl, rfl, rfl⟩
      have h₂ := h₁.trans (.listAdd (k := k) h₁.closed (h₁.of_inZone hin))
      have hpos : 0 < 2 ^ k := Nat.two_pow_pos k
      obtain ⟨-, hb, he⟩ := frame_eq h₂.frame
      exact h₂.trans (ih _ _ _ h₂.closed (by omega) (by omega))
    · exact .refl h

/-- The zone that `buddy_init` leaves: its pages lead to each other and name zone 0. -/
theorem buddyInit_closed (heap : Heap) (baseAddr : UInt64) {sizeBytes : UInt64}
    (hs : 4096 ≤ sizeBytes.toNat) :
    Closed (buddyInit heap baseAddr sizeBytes).2 ∧
      (buddyInit heap baseAddr sizeBytes).2.zone.frame =
        (baseAddr, baseAddr.toNat / 4096, zoneHi baseAddr sizeBytes) ∧
      (∀ q, ¬ InZone (buddyInit heap baseAddr sizeBytes).2.zone q →
        (buddyInit heap baseAddr sizeBytes).2.heap q = heap q) ∧
      ∀ q, InZone (buddyInit heap baseAddr sizeBytes).2.zone q →
        ((buddyInit heap baseAddr sizeBytes).2.heap q).zoneIdx = 0 := by
  unfold buddyInit zoneHi
  have htot : 0 < sizeBytes.toNat / 4096 := by omega
  dsimp only
  generalize baseAddr.toNat / 4096 = base
  generalize sizeBytes.toNat / 4096 = total at *
  have hle := arrayPages_le htot
  rw [if_neg (by omega)]
  dsimp only
  generalize hstart : (⟨fun p => if base ≤ p ∧ p < base + total then _ else heap p, _⟩ : State) = s
  have hin : ∀ q, base ≤ q ∧ q < base + total →
      (s.heap q).next = none ∧ (s.heap q).prev = none ∧ (s.heap q).zoneIdx = 0 := by
    intro q hq
    subst hstart
    dsimp only
    rw [if_pos hq]
    exact ⟨rfl, rfl, rfl⟩
  have hout : ∀ q, ¬ (base ≤ q ∧ q < base + total) → s.heap q = heap q := by
    intro q hq
    subst hstart
    exact if_neg hq
  have hframe : s.zone.frame = (baseAddr, base, base + total) := by
    subst hstart
    rfl
  have hzone : ∀ q, InZone s.zone q ↔ base ≤ q ∧ q < base + total := by
    intro q
    subst hstart
    rfl
  have hclosed : Closed s := by
    refine ⟨fun k q hq => ?_, fun p hp q hq => ?_, fun p hp q hq => ?_⟩
    · subst hstart
      exact absurd hq (by simp)
    · have := (hin p ((hzone p).mp hp)).1.symm.trans hq
      exact absurd this (by simp)
    · have := (hin p ((hzone p).mp hp)).2.1.symm.trans hq
      exact absurd this (by simp)
  have hloc : Local s (carve total (base + arrayPages total) (total - arrayPages total) s) := by
    obtain ⟨-, hbounds⟩ := Prod.mk.inj hframe
    obtain ⟨hb, he⟩ := Prod.mk.inj hbounds
    exact carve_local _ _ _ s hclosed (by omega) (by omega)
  generalize carve total (base + arrayPages total) (total - arrayPages total) s = t at hloc ⊢
  generalize ((List.range (maxOrder + 1)).map fun i => t.zone.freeCount i * pageCount i).sum = n
  have hend := hloc.trans (.counters (z := { t.zone with freePages := n, managedPages := n })
    hloc.closed rfl rfl)
  refine ⟨hend.closed, hend.frame.trans hframe, fun q hq => ?_, fun q hq => ?_⟩
  · rw [hend.inZone] at hq
    exact (hend.outside q hq).trans (hout q fun h => hq ((hzone q).mpr h))
  · rw [hend.inZone] at hq
    exact (hend.zoneIdx q).trans (hin q ((hzone q).mp hq)).2.2

end

end Buddy
