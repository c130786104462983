import Kenux.Buddy.Proofs.Zone
import Kenux.Buddy.Zones
import Kenux.Lib.Word

/-!
# The operations on one zone

What allocating, freeing and defragmenting do to the blocks of a zone when the calls meet the
conditions. Each loop is followed round by round; the block in hand is the first of the held ones.
-/

namespace Buddy

open DList Blocks

/-- The used and managed pages. -/
def Zone.counters (z : Zone) : UInt64 × UInt64 := (z.usedPages, z.managedPages)

/-- Where the zone and its page array lie. -/
def Zone.frame (z : Zone) : UInt64 × ℕ × ℕ := (z.pageArray, z.basePfn, z.endPfn)

theorem frame_eq {z z' : Zone} (h : z'.frame = z.frame) :
    z'.pageArray = z.pageArray ∧ z'.basePfn = z.basePfn ∧ z'.endPfn = z.endPfn := by
  unfold Zone.frame at h
  simpa using h

/-- The counters and the data of the pages that start held blocks stay. -/
structure Keeps (s s' : State) (E : List Block) : Prop where
  counters : s'.zone.counters = s.zone.counters
  data : ∀ b ∈ E, s'.data b.1 = s.data b.1

section

variable {s s' s'' : State} {L L' : ℕ → List ℕ} {E : List Block} {base lo hi m p q k : ℕ}

theorem Keeps.refl : Keeps s s E := ⟨rfl, fun _ _ => rfl⟩

theorem Keeps.trans (h : Keeps s s' E) (h' : Keeps s' s'' E) : Keeps s s'' E :=
  ⟨h'.counters.trans h.counters, fun b hb => (h'.data b hb).trans (h.data b hb)⟩

theorem Keeps.tail {b : Block} (h : Keeps s s' (b :: E)) : Keeps s s' E :=
  ⟨h.counters, fun c hc => h.data c (by simp [hc])⟩

theorem Keeps.listAdd : Keeps s (listAdd s k p) E :=
  ⟨by rw [listAdd_zone]; rfl, fun _ _ => listAdd_data⟩

theorem Keeps.listPop (h : s.zone.freeList k = some p) : Keeps s (listPop s k).2 E :=
  ⟨by rw [listPop_zone h]; rfl, fun _ _ => listPop_data h⟩

theorem Keeps.unlink : Keeps s ((listDel s p).dropCount k 1) E :=
  ⟨by rw [dropCount_zone, listDel_zone]; rfl, fun _ _ => listDel_data⟩

/-- A page that starts no block of `E` is written to. -/
theorem Keeps.modify {f : Page → Page} (h : ∀ b ∈ E, b.1 ≠ p) : Keeps s (s.modify p f) E :=
  ⟨rfl, fun b hb => by rw [modify_data, if_neg (h b hb)]⟩

/-- The blocks held besides the first start elsewhere. -/
theorem Core.held_ne {b : Block} (h : Core s L (b :: E) base lo hi m) : ∀ c ∈ E, c.1 ≠ b.1 := by
  intro c hc
  exact Ne.symm (h.tiling.disj (List.mem_append_left _ hc)).ne

/-! ## Flags -/

theorem flags_zero {x : Page} (h : x.flags = 0) : x.used = false ∧ x.reserved = false := by
  unfold Page.used Page.reserved
  simp [h]

theorem flags_take {x y : Page} (h : y.flags = x.flags ||| pageFlagUsed) :
    y.used = true ∧ y.reserved = x.reserved := by
  have h1 : pageFlagUsed &&& pageFlagUsed ≠ 0 := by decide
  have h2 : pageFlagUsed &&& pageFlagReserved = 0 := by decide
  unfold Page.used Page.reserved
  rw [h, Word.or_and_32, Word.or_and_32, h2, UInt32.or_zero]
  refine ⟨?_, rfl⟩
  rw [decide_eq_true_eq]
  exact fun hc => h1 (UInt32.or_eq_zero_iff.mp hc).2

theorem flags_release {x y : Page} (h : y.flags = x.flags &&& ~~~pageFlagUsed) :
    y.used = false ∧ y.reserved = x.reserved := by
  have h1 : ~~~pageFlagUsed &&& pageFlagUsed = 0 := UInt32.not_and_self
  have h2 : ~~~pageFlagUsed &&& pageFlagReserved = pageFlagReserved := by decide
  unfold Page.used Page.reserved
  rw [h, UInt32.and_assoc, UInt32.and_assoc, h1, h2]
  simp

/-! ## Splitting -/

theorem pfnToPage_eq_some {z : Zone} {pfn q : ℕ} (h : pfnToPage z pfn = some q) :
    q = pfn ∧ z.basePfn ≤ pfn ∧ pfn < z.endPfn := by
  unfold pfnToPage at h
  split_ifs at h with hout
  obtain rfl := Option.some.inj h
  omega

/-- Only the first page of a zone can be `NULL`. -/
theorem pfnToPage_of_lt {z : Zone} {pfn : ℕ} (hlo : z.basePfn < pfn) (hhi : pfn < z.endPfn) :
    pfnToPage z pfn = some pfn := by
  unfold pfnToPage
  rw [if_neg (by omega), if_neg (by omega)]

/-- One round of the split loop: the upper half goes to its list, or is lost. -/
theorem splitOnce_spec (h : Core s L ((p, k + 1) :: E) base lo hi m) (hk : k ≤ maxOrder)
    (hok : SplitOk s.zone p k) :
    ∃ L' m', Core (splitOnce s p k) L' ((p, k) :: E) base lo hi m' ∧ m' ≤ m ∧
      (buddyPfn p k = p + 2 ^ k → m' = m) ∧ Keeps s (splitOnce s p k) ((p, k) :: E) := by
  have hsplit := h.split
  have hin := hsplit.tiling.inside (p + 2 ^ k, k) (by simp)
  have hpos : 0 < 2 ^ k := Nat.two_pow_pos k
  simp only [size] at hin
  by_cases hup : buddyPfn p k = p + 2 ^ k
  · have hsome : splitBuddy s p k = some (p + 2 ^ k) := by
      have hbase := h.base_le
      have hlow := (h.tiling.inside (p, k + 1) (by simp)).1
      unfold splitBuddy
      rw [hup]
      exact pfnToPage_of_lt (by rw [h.base_eq]; dsimp only at hlow; omega)
        (by rw [h.end_eq]; omega)
    have hheld := hsplit.perm (List.Perm.swap _ _ _)
    have hne := hheld.held_ne
    have hmod := hheld.modify (b := (p + 2 ^ k, k)) (by simp)
      ({ · with order := k, flags := 0, refcount := 0 })
    have hpush := hmod.push hk (by rw [modify_heap, if_pos rfl]; exact ⟨rfl, flags_zero rfl⟩)
    unfold splitOnce
    rw [hsome]
    exact ⟨_, m, hpush, le_rfl, fun _ => rfl, (Keeps.modify hne).trans Keeps.listAdd⟩
  · have hnone : splitBuddy s p k = none := hok.resolve_left hup
    have hlost := (hsplit.perm (List.Perm.swap _ _ _)).drop
    unfold splitOnce
    rw [hnone]
    exact ⟨L, _, hlost, Nat.sub_le _ _, fun hc => absurd hc hup, Keeps.refl⟩

theorem splitOnce_frame : (splitOnce s p k).zone.frame = s.zone.frame := by
  unfold splitOnce
  cases splitBuddy s p k with
  | none => rfl
  | some b =>
    dsimp only
    rw [listAdd_zone]
    rfl

theorem pfnToPage_congr {z z' : Zone} (h : z'.frame = z.frame) : pfnToPage z' = pfnToPage z := by
  obtain ⟨harr, hb, he⟩ := frame_eq h
  funext pfn
  unfold pfnToPage
  rw [harr, hb, he]

theorem splitOk_congr {z z' : Zone} (hz : z'.frame = z.frame) (h : SplitOk z p k) :
    SplitOk z' p k := by
  unfold SplitOk at h ⊢
  rw [pfnToPage_congr hz]
  exact h

/-- The split loop leaves a block of the order asked for in hand. -/
theorem splitLoop_spec (order current : ℕ) : ∀ (s : State) (L : ℕ → List ℕ) (m : ℕ),
    order ≤ current → current ≤ maxOrder → Core s L ((p, current) :: E) base lo hi m →
    (∀ k, order ≤ k → k < current → SplitOk s.zone p k) →
    ∃ L' m', Core (splitLoop p order current s) L' ((p, order) :: E) base lo hi m' ∧ m' ≤ m ∧
      ((∀ k, order ≤ k → k < current → buddyPfn p k = p + 2 ^ k) → m' = m) ∧
      Keeps s (splitLoop p order current s) ((p, order) :: E) := by
  induction current with
  | zero =>
    intro s L m ho _ h _
    obtain rfl := Nat.le_zero.mp ho
    exact ⟨L, m, h, le_rfl, fun _ => rfl, Keeps.refl⟩
  | succ current ih =>
    intro s L m ho hc h hok
    unfold splitLoop
    by_cases hlt : current + 1 > order
    · rw [if_pos hlt]
      obtain ⟨L₁, m₁, h₁, hm₁, he₁, hk₁⟩ := splitOnce_spec h (by omega)
        (hok current (by omega) (by omega))
      have hz := splitOnce_frame (s := s) (p := p) (k := current)
      obtain ⟨L₂, m₂, h₂, hm₂, he₂, hk₂⟩ := ih _ L₁ m₁ (by omega) (by omega) h₁
        fun k hk1 hk2 => splitOk_congr hz (hok k hk1 (by omega))
      refine ⟨L₂, m₂, h₂, hm₂.trans hm₁, fun hup => ?_, ?_⟩
      · rw [he₂ fun k hk1 hk2 => hup k hk1 (by omega), he₁ (hup current (by omega) (by omega))]
      · exact ⟨hk₂.counters.trans hk₁.counters, fun b hb => (hk₂.data b hb).trans (by
          rcases List.mem_cons.mp hb with rfl | hb
          · exact hk₁.data (p, current) (by simp)
          · exact hk₁.data b (by simp [hb]))⟩
    · rw [if_neg hlt]
      obtain rfl : order = current + 1 := by omega
      exact ⟨L, m, h, le_rfl, fun _ => rfl, Keeps.refl⟩

/-! ## Allocating -/

theorem findOrder_some {order c : ℕ} (h : findOrder s order = some c) :
    order ≤ c ∧ c ≤ maxOrder ∧ ∃ p, s.zone.freeList c = some p := by
  unfold findOrder at h
  have hmem := List.mem_of_find?_eq_some h
  have hsome := List.find?_some h
  rw [List.mem_range'_1] at hmem
  exact ⟨by omega, by omega, Option.isSome_iff_exists.mp hsome⟩

theorem findOrder_none {order : ℕ} (h : findOrder s order = none) :
    buddyAllocPages s order = (none, s) := by
  unfold buddyAllocPages
  rw [h]
  split_ifs <;> rfl

/-- A page on a free list is not reserved, so the first one is taken. -/
theorem popUsable_eq {l : List ℕ} (h : Core s L E base lo hi m) (hk : k ≤ maxOrder)
    (hl : L k = p :: l) (fuel : ℕ) : popUsable (fuel + 1) s k = (some p, (listPop s k).2) := by
  have hhead : s.zone.freeList k = some p := by rw [(h.lists k hk).head_eq, hl]; rfl
  have hfst := listPop_fst hhead
  have hres : ((listPop s k).2.heap p).reserved = false :=
    (reserved_of_data (listPop_data hhead)).trans (h.data k hk p (by simp [hl])).2.2
  unfold popUsable
  generalize listPop s k = r at hfst hres ⊢
  obtain ⟨o, t⟩ := r
  obtain rfl : o = some p := hfst
  dsimp only at hres ⊢
  rw [hres]
  rfl

/-- The state after an allocation that returned `p`. -/
structure Allocated (s s' : State) (E : List Block) (p order : ℕ) : Prop where
  order_le : order ≤ maxOrder
  used : (s'.heap p).used = true
  reserved : (s'.heap p).reserved = false
  order_eq : (s'.heap p).order = order
  usedPages : s'.zone.usedPages = s.zone.usedPages + pageCount order
  managedPages : s'.zone.managedPages = s.zone.managedPages
  data : ∀ b ∈ E, s'.data b.1 = s.data b.1

theorem buddyAllocPages_spec {order : ℕ} (h : Core s L E base lo hi m)
    (hok : AllocSplits s order (SplitOk s.zone)) :
    findOrder s order = none ∨
      ∃ p s' L' m', buddyAllocPages s order = (some p, s') ∧
        Core s' L' ((p, order) :: E) base lo hi m' ∧ Allocated s s' E p order ∧ m' ≤ m ∧
        (AllocSplits s order (fun page k => buddyPfn page k = page + 2 ^ k) → m' = m) := by
  cases hf : findOrder s order with
  | none => exact Or.inl rfl
  | some c =>
    obtain ⟨hoc, hc, p, hhead⟩ := findOrder_some hf
    unfold buddyAllocPages
    rw [if_neg (by omega), hf]
    obtain ⟨l, hl⟩ : ∃ l, L c = p :: l := by
      have heq := (h.lists c hc).head_eq.symm.trans hhead
      cases hL : L c with
      | nil => simp [hL] at heq
      | cons x l => exact ⟨l, by simp [hL] at heq; rw [heq]⟩
    have hpop := h.pop hc hl
    have hkpop := Keeps.listPop (E := E) hhead
    have hdata := h.data c hc p (by simp [hl])
    have hdp : (listPop s c).2.data p = s.data p := listPop_data hhead
    dsimp only
    rw [popUsable_eq h hc hl]
    have hframe : (listPop s c).2.zone.frame = s.zone.frame := by
      rw [listPop_zone hhead]
      rfl
    dsimp only
    generalize (listPop s c).2 = s₁ at hpop hkpop hdp hframe ⊢
    have hframe₂ : (s₁.modify p fun x =>
      { x with flags := x.flags ||| pageFlagUsed, refcount := 1 }).zone.frame = s.zone.frame := hframe
    have hflags := flags_take (x := s₁.heap p)
      (y := { s₁.heap p with flags := (s₁.heap p).flags ||| pageFlagUsed, refcount := 1 }) rfl
    have hmod := hpop.modify (b := (p, c)) (by simp)
      fun x => { x with flags := x.flags ||| pageFlagUsed, refcount := 1 }
    have hkmod : Keeps s₁ (s₁.modify p fun x =>
      { x with flags := x.flags ||| pageFlagUsed, refcount := 1 }) E := Keeps.modify hpop.held_ne
    have hdmod : ((s₁.modify p fun x =>
        { x with flags := x.flags ||| pageFlagUsed, refcount := 1 }).heap p) =
        { s₁.heap p with flags := (s₁.heap p).flags ||| pageFlagUsed, refcount := 1 } := by
      rw [modify_heap, if_pos rfl]
    dsimp only at hmod
    generalize (s₁.modify p fun x =>
      { x with flags := x.flags ||| pageFlagUsed, refcount := 1 }) = s₂ at hmod hkmod hdmod hframe₂ ⊢
    have hzone : ∀ k, order ≤ k → k < c → SplitOk s₂.zone p k := fun k hk1 hk2 =>
      splitOk_congr hframe₂ (hok c p hf hhead k hk1 hk2)
    obtain ⟨L₃, m₃, h₃, hm₃, he₃, hk₃⟩ := splitLoop_spec order c s₂ _ m hoc hc hmod hzone
    generalize splitLoop p order c s₂ = s₃ at h₃ hk₃ ⊢
    have hd₃ : (s₃.heap p).data = (s₂.heap p).data := hk₃.data (p, order) (by simp)
    have hk := (hkpop.trans hkmod).trans hk₃.tail
    have hcounters := hk.counters
    unfold Zone.counters at hcounters
    obtain ⟨hused, hmanaged⟩ := Prod.mk.inj hcounters
    have htake : ((takePage s₃ p order).heap p) = { s₃.heap p with order := order } := by
      change (s₃.modify p ({ · with order := order })).heap p = _
      rw [modify_heap, if_pos rfl]
    refine Or.inr ⟨p, takePage s₃ p order, L₃, m₃, rfl, ?_, ?_, hm₃, fun hup => ?_⟩
    · exact (h₃.modify (b := (p, order)) (by simp) ({ · with order := order })).congr rfl rfl rfl rfl
        fun _ _ _ _ => rfl
    · refine ⟨by omega, ?_, ?_, ?_, ?_, hmanaged, fun b hb => ?_⟩
      · rw [htake]
        exact (used_of_data hd₃).trans (by rw [hdmod]; exact hflags.1)
      · rw [htake]
        refine (reserved_of_data hd₃).trans ?_
        rw [hdmod, hflags.2, reserved_of_data hdp]
        exact hdata.2.2
      · rw [htake]
      · change s₃.zone.usedPages + _ = _
        rw [hused]
      · refine Eq.trans ?_ (hk.data b hb)
        change (s₃.modify p ({ · with order := order })).data b.1 = _
        rw [modify_data, if_neg (h₃.held_ne b hb)]
    · exact he₃ fun k hk1 hk2 => hup c p hf hhead k hk1 hk2

/-! ## Merging -/

theorem mergeableBuddy_some {b : ℕ} (h : mergeableBuddy s p k = some b) :
    b = buddyPfn p k ∧ (s.heap b).used = false ∧ (s.heap b).order = k ∧
      inFreelist s k b = true := by
  unfold mergeableBuddy at h
  rw [Option.filter_eq_some_iff] at h
  obtain ⟨h1, h2⟩ := h
  simp only [Bool.and_eq_true, Bool.not_eq_true', decide_eq_true_eq] at h2
  exact ⟨(pfnToPage_eq_some h1).1, h2.1.1, h2.1.2, h2.2⟩

/-- A block and its buddy are joined, whichever of them is lower. -/
theorem Core.join (h : Core s L ((p, k) :: (buddyPfn p k, k) :: E) base lo hi m) :
    Core s L ((if buddyPfn p k < p then buddyPfn p k else p, k + 1) :: E) base lo hi m := by
  have hpos : 0 < 2 ^ k := Nat.two_pow_pos k
  unfold buddyPfn at *
  rcases xor_adjacent p k with hup | hdown
  · rw [if_neg (by omega)]
    rw [hup] at h
    exact h.merge
  · rw [if_pos (by omega)]
    refine Core.merge (p := p ^^^ 2 ^ k) ?_
    rw [hdown]
    exact h.perm (List.Perm.swap _ _ _)

theorem buddyPfn_ne (p k : ℕ) : buddyPfn p k ≠ p := by
  have hpos : 0 < 2 ^ k := Nat.two_pow_pos k
  unfold buddyPfn
  rcases xor_adjacent p k with h | h <;> omega

/-- The block in hand goes to its list. -/
theorem Core.finish (h : Core s L ((p, k) :: E) base lo hi m) (hk : k ≤ maxOrder)
    (hu : (s.heap p).used = false) (hr : (s.heap p).reserved = false) :
    ∃ L', Core (Buddy.listAdd (s.modify p ({ · with order := k })) k p) L' E base lo hi m ∧
      Keeps s (Buddy.listAdd (s.modify p ({ · with order := k })) k p) E := by
  have hmod := h.modify (b := (p, k)) (by simp) ({ · with order := k })
  refine ⟨_, hmod.push hk ?_, (Keeps.modify h.held_ne).trans Keeps.listAdd⟩
  rw [modify_heap, if_pos rfl]
  exact ⟨rfl, hu, hr⟩

/-- The buddies that can be merged depend on the pages of their list only. -/
theorem Core.mergeableBuddy_congr {E' : List Block} {m' : ℕ} (h : Core s L E base lo hi m)
    (h' : Core s' L' E' base lo hi m') (hk : k ≤ maxOrder) (hL : L' k = L k)
    (hz : s'.zone.frame = s.zone.frame) (hd : ∀ b ∈ L k, s'.data b = s.data b) :
    mergeableBuddy s' p k = mergeableBuddy s p k := by
  unfold mergeableBuddy
  rw [pfnToPage_congr hz]
  refine congrArg (fun f => (pfnToPage s.zone (buddyPfn p k)).filter f) (funext fun b => ?_)
  have hin : inFreelist s' k b = inFreelist s k b := by
    rw [Bool.eq_iff_iff, h'.inFreelist_iff hk, h.inFreelist_iff hk, hL]
  rw [hin]
  by_cases hb : b ∈ L k
  · have hdata : (s'.heap b).data = (s.heap b).data := hd b hb
    rw [used_of_data hdata, order_of_data hdata]
  · rw [Bool.eq_false_iff.mpr (mt (h.inFreelist_iff hk).mp hb), Bool.and_false, Bool.and_false]

theorem mergeOk_congr (hf : ∀ j, k ≤ j → j ≤ maxOrder → s'.zone.freeList j = s.zone.freeList j)
    (hm : ∀ j, k ≤ j → j ≤ maxOrder → ∀ q, mergeableBuddy s' q j = mergeableBuddy s q j)
    (fuel : ℕ) : ∀ p j, k ≤ j → j + fuel = maxOrder → MergeOk s fuel p j → MergeOk s' fuel p j := by
  induction fuel with
  | zero => exact fun _ _ _ _ _ => trivial
  | succ fuel ih =>
    intro p j hkj hj h b hb
    rw [hm j hkj (by omega)] at hb
    obtain ⟨hhead, hrest⟩ := h b hb
    rw [hf j hkj (by omega)]
    exact ⟨hhead, ih _ _ (by omega) (by omega) hrest⟩

theorem mergeLoop_spec (fuel : ℕ) : ∀ (p k : ℕ) (s : State) (L : ℕ → List ℕ),
    k + fuel = maxOrder → Core s L ((p, k) :: E) base lo hi m →
    (s.heap p).used = false → (s.heap p).reserved = false → MergeOk s fuel p k →
    ∃ L', Core (mergeLoop fuel p k s) L' E base lo hi m ∧ Keeps s (mergeLoop fuel p k s) E := by
  induction fuel with
  | zero =>
    intro p k s L hk h hu hr _
    exact h.finish (by omega) hu hr
  | succ fuel ih =>
    intro p k s L hk h hu hr hok
    unfold mergeLoop
    cases hb : mergeableBuddy s p k with
    | none => exact h.finish (by omega) hu hr
    | some b =>
      obtain ⟨hhead, hok⟩ := hok b hb
      obtain ⟨rfl, hbu, -, hin⟩ := mergeableBuddy_some hb
      have hmem := (h.inFreelist_iff (by omega)).mp hin
      have hbr := (h.data k (by omega) _ hmem).2.2
      obtain ⟨l, -, hun⟩ := h.unlink (by omega) hmem hhead
      have hkeep : Keeps s ((listDel s (buddyPfn p k)).dropCount k 1) ((p, k) :: E) := Keeps.unlink
      have hdb : ((listDel s (buddyPfn p k)).dropCount k 1).data (buddyPfn p k) =
        s.data (buddyPfn p k) := listDel_data
      have hdp := hkeep.data (p, k) (by simp)
      have hjoin := (hun.perm (List.Perm.swap _ _ _)).join
      have hzone : ((listDel s (buddyPfn p k)).dropCount k 1).zone =
          { s.zone with
            freeCount := Function.update s.zone.freeCount k (s.zone.freeCount k - 1) } := by
        rw [dropCount_zone, listDel_zone]
      -- the lists of higher orders have not changed
      have hrest := mergeOk_congr (k := k + 1) (fun j _ _ => by rw [hzone])
        (fun j hkj hj q => h.mergeableBuddy_congr hun hj (Function.update_of_ne (by omega) _ _)
          (by rw [hzone]; rfl) fun _ _ => listDel_data) fuel _ _ le_rfl (by omega) hok
      dsimp only
      obtain ⟨L', h', hk'⟩ := ih _ _ _ _ (by omega) hjoin
        (by split_ifs; exacts [(used_of_data hdb).trans hbu, (used_of_data hdp).trans hu])
        (by split_ifs; exacts [(reserved_of_data hdb).trans hbr, (reserved_of_data hdp).trans hr])
        hrest
      exact ⟨L', h', hkeep.tail.trans hk'⟩

theorem releasePage_core {o : ℕ} (h : Core s L ((p, o) :: E) base lo hi m) :
    Core (releasePage s p) L ((p, o) :: E) base lo hi m :=
  (h.modify (b := (p, o)) (by simp)
    fun x => { x with flags := x.flags &&& ~~~pageFlagUsed, refcount := 0 }).congr rfl rfl rfl rfl
      fun _ _ _ _ => rfl

/-- What freeing a live block does; `b` is no longer held. -/
structure Freed (s s' : State) (E : List Block) (b : Block) : Prop where
  usedPages : s'.zone.usedPages = s.zone.usedPages - pageCount b.2
  managedPages : s'.zone.managedPages = s.zone.managedPages
  data : ∀ c ∈ E, s'.data c.1 = s.data c.1

theorem buddyFreePages_spec {b : Block} (h : Core s L (b :: E) base lo hi m)
    (hb : b.2 ≤ maxOrder) (hu : (s.heap b.1).used = true) (hr : (s.heap b.1).reserved = false)
    (ho : (s.heap b.1).order = b.2) (hok : FreeOk s b.1) :
    ∃ L', Core (buddyFreePages s b.1) L' E base lo hi m ∧
      Freed s (buddyFreePages s b.1) E b := by
  obtain ⟨p, o⟩ := b
  dsimp only at hb hu hr ho hok ⊢
  have hrel : (releasePage s p).heap p =
      { s.heap p with flags := (s.heap p).flags &&& ~~~pageFlagUsed, refcount := 0 } := by
    change (s.modify p fun x =>
      { x with flags := x.flags &&& ~~~pageFlagUsed, refcount := 0 }).heap p = _
    rw [modify_heap, if_pos rfl]
  obtain ⟨hf1, hf2⟩ := flags_release (x := s.heap p) (y := (releasePage s p).heap p)
    (by rw [hrel])
  unfold FreeOk at hok
  unfold buddyFreePages
  rw [if_pos hu]
  rw [ho] at hok ⊢
  have hrelease := releasePage_core h
  have hmerge : MergeOk (releasePage s p) (maxOrder - o) p o := by
    have hlists : ∀ j, o ≤ j → j ≤ maxOrder →
        (releasePage s p).zone.freeList j = s.zone.freeList j := fun _ _ _ => rfl
    refine mergeOk_congr hlists (fun j _ hj q => ?_) _ _ _ le_rfl (by omega) hok
    refine h.mergeableBuddy_congr hrelease hj rfl rfl fun b hb => ?_
    change (s.modify p fun x =>
      { x with flags := x.flags &&& ~~~pageFlagUsed, refcount := 0 }).data b = _
    rw [modify_data, if_neg]
    rintro rfl
    exact h.held_not_mem (b := (b, o)) (by simp) hj hb
  obtain ⟨L', h', hk⟩ := mergeLoop_spec (maxOrder - o) p o (releasePage s p) L (by omega)
    hrelease hf1 (hf2.trans hr) hmerge
  obtain ⟨hused, hmanaged⟩ := Prod.mk.inj hk.counters
  refine ⟨L', h', ?_, hmanaged, fun c hc => (hk.data c hc).trans ?_⟩
  · rw [hused]
    change s.zone.usedPages - pageCount (s.heap p).order = _
    rw [ho]
  · change (s.modify p fun x =>
      { x with flags := x.flags &&& ~~~pageFlagUsed, refcount := 0 }).data c.1 = _
    rw [modify_data, if_neg (h.held_ne c hc)]

/-! ## Defragmenting -/

theorem listDel_setList {o : Option ℕ} {c : UInt64} :
    listDel (s.setList k o c) p = (listDel s p).setList k o c := by
  have hnext : ∀ (t : State) (a v : Option ℕ),
      (t.setList k o c).setNext a v = (t.setNext a v).setList k o c := by
    intro t a v
    cases a <;> rfl
  have hprev : ∀ (t : State) (a v : Option ℕ),
      (t.setList k o c).setPrev a v = (t.setPrev a v).setList k o c := by
    intro t a v
    cases a <;> rfl
  unfold listDel
  simp only [setList_next, setList_prev, hnext, hprev]
  rfl

theorem setList_setList {o o' : Option ℕ} {c c' : UInt64} :
    (s.setList k o c).setList k o' c' = s.setList k o' c' := by
  unfold State.setList
  simp only [Function.update_idem]

/-- The two pages leave the list one after the other. -/
theorem defrag_unlink : (listDel (listDel s p) q).dropCount k 2 =
    (listDel ((listDel s p).dropCount k 1) q).dropCount k 1 := by
  have hc : ∀ c : UInt64, c - 1 - 1 = c - 2 := by
    intro c
    grind
  unfold State.dropCount
  simp only [listDel_setList, listDel_zone, setList_setList]
  unfold State.setList
  simp only [Function.update_self, hc, listDel_zone]

theorem defragMerge_spec {b : ℕ} (h : Core s L E base lo hi m) (hk : k < maxOrder)
    (hb : mergeableBuddy s p k = some b) (hp : inFreelist s k p = true)
    (hhp : s.zone.freeList k ≠ some p) (hhb : s.zone.freeList k ≠ some b) :
    ∃ L', Core (defragMerge s k p b) L' E base lo hi m ∧ Keeps s (defragMerge s k p b) E := by
  obtain ⟨rfl, hbu, -, hin⟩ := mergeableBuddy_some hb
  have hpmem := (h.inFreelist_iff hk.le).mp hp
  have hbmem := (h.inFreelist_iff hk.le).mp hin
  obtain ⟨-, hpu, hpr⟩ := h.data k hk.le _ hpmem
  have hbr := (h.data k hk.le _ hbmem).2.2
  obtain ⟨l, hperm, h₁⟩ := h.unlink hk.le hpmem hhp
  have hbl : buddyPfn p k ∈ Function.update L k l k := by
    rw [Function.update_self]
    exact (List.mem_cons.mp (hperm.mem_iff.mp hbmem)).resolve_left (buddyPfn_ne p k)
  have hhb₁ : ((listDel s p).dropCount k 1).zone.freeList k ≠ some (buddyPfn p k) := by
    rw [dropCount_zone, listDel_zone]
    exact hhb
  obtain ⟨l', -, h₂⟩ := h₁.unlink hk.le hbl hhb₁
  have hkeep : ∀ F : List Block, Keeps s ((listDel (listDel s p) (buddyPfn p k)).dropCount k 2) F := by
    intro F
    rw [defrag_unlink]
    exact Keeps.unlink.trans Keeps.unlink
  rw [← defrag_unlink] at h₂
  have hdp := (hkeep [(p, k)]).data (p, k) (by simp)
  have hdb := (hkeep [(buddyPfn p k, k)]).data (buddyPfn p k, k) (by simp)
  have hjoin := (h₂.perm (List.Perm.swap _ _ _)).join
  have hmin : (if buddyPfn p k < p then buddyPfn p k else p) =
      if p < buddyPfn p k then p else buddyPfn p k := by
    split_ifs <;> omega
  rw [hmin] at hjoin
  unfold defragMerge
  dsimp only
  obtain ⟨L', h', hk'⟩ := hjoin.finish (by omega)
    (by split_ifs; exacts [(used_of_data hdp).trans hpu, (used_of_data hdb).trans hbu])
    (by split_ifs; exacts [(reserved_of_data hdp).trans hpr, (reserved_of_data hdb).trans hbr])
  exact ⟨L', h', (hkeep E).trans hk'⟩

theorem defragList_spec (hk : k < maxOrder) (fuel : ℕ) : ∀ (cur : Option ℕ) (n : ℤ) (s : State)
    (L : ℕ → List ℕ), Core s L E base lo hi m → DefragListOk k fuel cur (n, s) →
    ∃ L', Core (defragList k fuel cur (n, s)).2 L' E base lo hi m ∧
      Keeps s (defragList k fuel cur (n, s)).2 E := by
  induction fuel with
  | zero => exact fun cur n s L h _ => ⟨L, h, Keeps.refl⟩
  | succ fuel ih =>
    intro cur n s L h hok
    cases cur with
    | none => exact ⟨L, h, Keeps.refl⟩
    | some p =>
      unfold DefragListOk at hok
      unfold defragList
      cases hb : mergeableBuddy s p k with
      | none =>
        rw [hb] at hok
        exact ih _ n s L h hok
      | some b =>
        rw [hb] at hok
        obtain ⟨hhp, hhb, hin, hok⟩ := hok
        obtain ⟨L₁, h₁, hk₁⟩ := defragMerge_spec h hk hb hin hhp hhb
        obtain ⟨L₂, h₂, hk₂⟩ := ih _ _ _ L₁ h₁ hok
        exact ⟨L₂, h₂, hk₁.trans hk₂⟩

theorem defragOrders_succ (rounds : ℕ) (s : State) (n : ℕ) : defragOrders rounds s (n + 1) =
    defragList n rounds ((defragOrders rounds s n).2.zone.freeList n) (defragOrders rounds s n) := by
  unfold defragOrders
  rw [List.range_succ, List.foldl_append]
  rfl

theorem buddyDefragment_spec {rounds : ℕ} (h : Core s L E base lo hi m)
    (hok : DefragOk rounds s) :
    ∃ L', Core (buddyDefragment rounds s).2 L' E base lo hi m ∧
      Keeps s (buddyDefragment rounds s).2 E := by
  have key : ∀ n ≤ maxOrder, ∃ L', Core (defragOrders rounds s n).2 L' E base lo hi m ∧
      Keeps s (defragOrders rounds s n).2 E := by
    intro n
    induction n with
    | zero => exact fun _ => ⟨L, h, Keeps.refl⟩
    | succ n ih =>
      intro hn
      obtain ⟨L₁, h₁, hk₁⟩ := ih (by omega)
      rw [defragOrders_succ]
      obtain ⟨L₂, h₂, hk₂⟩ := defragList_spec hn _ _ _ _ L₁ h₁ (hok n hn)
      exact ⟨L₂, h₂, hk₁.trans hk₂⟩
  exact key maxOrder le_rfl

end

end Buddy
