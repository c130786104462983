import Kenux.Buddy.Proofs.Operations

/-!
# Runs on one zone

`buddy_init` cuts the pages after the page array into blocks, and every call that meets its
condition keeps the blocks disjoint and the lists well formed.
-/

namespace Buddy

open DList Blocks Run

/-! ## `buddy_init` -/

section Init

variable {s : State} {L : ℕ → List ℕ} {E : List Block} {base lo hi m p k : ℕ}

theorem fitOrder_spec {free : ℕ} (hf : 0 < free) (n : ℕ) :
    fitOrder free n ≤ n ∧ 2 ^ fitOrder free n ≤ free := by
  induction n with
  | zero => exact ⟨le_rfl, hf⟩
  | succ n ih =>
    unfold fitOrder
    split_ifs with h
    · exact ⟨ih.1.trans (Nat.le_succ n), ih.2⟩
    · exact ⟨le_rfl, by omega⟩

/-- A block clear of all others is held. -/
theorem Core.add (h : Core s L E base lo hi m) (hin : lo ≤ p ∧ p + 2 ^ k ≤ hi)
    (hd : ∀ c ∈ E ++ freeBlocks L, Disj (p, k) c) :
    Core s L ((p, k) :: E) base lo hi (2 ^ k + m) :=
  { h with
    tiling := h.tiling.cons hin hd
    mass := by
      rw [List.cons_append, total_cons, h.mass]
      rfl }

theorem carve_spec (fuel : ℕ) : ∀ (start free : ℕ) (s : State) (L : ℕ → List ℕ),
    free ≤ fuel → lo ≤ start → start + free = hi →
    Core s L [] base lo hi (start - lo) → (∀ b ∈ freeBlocks L, b.1 + size b ≤ start) →
    (∀ q, start ≤ q → q < hi → (s.heap q).flags = 0) →
    ∃ L', Core (carve fuel start free s) L' [] base lo hi (hi - lo) ∧
      (carve fuel start free s).zone.counters = s.zone.counters := by
  induction fuel with
  | zero =>
    intro start free s L hf hlo hhi h _ _
    obtain rfl : start = hi := by omega
    exact ⟨L, h, rfl⟩
  | succ fuel ih =>
    intro start free s L hf hlo hhi h hbelow hflags
    unfold carve
    by_cases h0 : free > 0
    · rw [if_pos h0]
      obtain ⟨hk, hfit⟩ := fitOrder_spec h0 maxOrder
      dsimp only
      generalize fitOrder free maxOrder = k at hk hfit ⊢
      have hpos : 0 < 2 ^ k := Nat.two_pow_pos k
      have hadd := h.add (p := start) (k := k) ⟨hlo, by omega⟩ fun c hc => Or.inr (hbelow c hc)
      obtain ⟨hu, hr⟩ := flags_zero (hflags start le_rfl (by omega))
      have hmod := hadd.modify (b := (start, k)) (by simp) ({ · with order := k })
      have hpush := hmod.push hk (by rw [modify_heap, if_pos rfl]; exact ⟨rfl, hu, hr⟩)
      have hdata : ∀ q, start + 2 ^ k ≤ q →
          ((Buddy.listAdd (s.modify start ({ · with order := k })) k start).heap q).data =
            (s.heap q).data := by
        intro q hq
        refine (listAdd_data (q := q)).trans ?_
        rw [modify_data, if_neg (by omega)]
        rfl
      obtain ⟨L', h', hz⟩ := ih (start + 2 ^ k) (free - 2 ^ k)
        (Buddy.listAdd (s.modify start ({ · with order := k })) k start) _ (by omega) (by omega)
        (by omega) (by
          have : start + 2 ^ k - lo = 2 ^ k + (start - lo) := by omega
          rw [this]
          exact hpush)
        (fun b hb => by
          obtain ⟨hb1, hb2⟩ := mem_freeBlocks.mp hb
          have hold : b.1 ∈ L b.2 → b.1 + size b ≤ start := fun hm =>
            hbelow b (mem_freeBlocks.mpr ⟨hb1, hm⟩)
          by_cases hbk : b.2 = k
          · rw [hbk, Function.update_self] at hb2
            rcases List.mem_cons.mp hb2 with hb2 | hb2
            · unfold size
              rw [hb2, hbk]
            · have := hold (hbk ▸ hb2)
              omega
          · rw [Function.update_of_ne hbk] at hb2
            have := hold hb2
            omega)
        (fun q hq1 hq2 => (flags_of_data (hdata q hq1)).trans (hflags q (by omega) hq2))
      refine ⟨L', h', hz.trans ?_⟩
      rw [listAdd_zone]
      rfl
    · rw [if_neg h0]
      obtain rfl : start = hi := by omega
      exact ⟨L, h, rfl⟩

theorem total_freeBlocks (L : ℕ → List ℕ) :
    total (freeBlocks L) = ((List.range (maxOrder + 1)).map fun k => (L k).length * 2 ^ k).sum := by
  unfold freeBlocks
  generalize List.range (maxOrder + 1) = ks
  induction ks with
  | nil => rfl
  | cons k ks ih =>
    have hone : ∀ l : List ℕ, total (l.map fun p => (p, k)) = l.length * 2 ^ k := by
      intro l
      induction l with
      | nil => exact (Nat.zero_mul _).symm
      | cons p l ihl =>
        rw [List.map_cons, total_cons, ihl, List.length_cons, Nat.succ_mul, Nat.add_comm]
        rfl
    rw [List.flatMap_cons, total_append, hone, ih, List.map_cons, List.sum_cons]

theorem pageCount_toNat (hk : k ≤ maxOrder) : (pageCount k).toNat = 2 ^ k := by
  have : 2 ^ k < 2 ^ 64 := Nat.pow_lt_pow_right (by omega) (by unfold maxOrder at hk; omega)
  exact UInt64.toNat_ofNat_of_lt' this

/-- The sum over the counts does not wrap. -/
theorem sum_counts (h : Core s L E base lo hi m) :
    ((List.range (maxOrder + 1)).map fun i => s.zone.freeCount i * pageCount i).sum.toNat =
      total (freeBlocks L) := by
  have key : ∀ ks : List ℕ, (∀ k ∈ ks, k ≤ maxOrder) →
      (ks.map fun k => (L k).length * 2 ^ k).sum < 2 ^ 64 →
      (ks.map fun i => s.zone.freeCount i * pageCount i).sum.toNat =
        (ks.map fun k => (L k).length * 2 ^ k).sum := by
    intro ks
    induction ks with
    | nil => exact fun _ _ => rfl
    | cons k ks ih =>
      intro hks hlt
      rw [List.map_cons, List.sum_cons] at hlt ⊢
      have hrest := ih (fun j hj => hks j (by simp [hj])) (by omega)
      have hmul : (s.zone.freeCount k * pageCount k).toNat = (L k).length * 2 ^ k := by
        rw [UInt64.toNat_mul, h.count k (hks k (by simp)), pageCount_toNat (hks k (by simp)),
          Nat.mod_eq_of_lt (by omega)]
      rw [List.map_cons, List.sum_cons, Word.toNat_add_lt (by omega), hmul, hrest]
  have htot := h.tiling.total_le
  have hsmall := h.small
  rw [total_append, total_freeBlocks] at htot
  rw [total_freeBlocks]
  exact key _ (fun k hk => by rw [List.mem_range] at hk; omega) (by omega)

theorem arrayPages_le {total : ℕ} (h : 0 < total) : arrayPages total ≤ total := by
  unfold arrayPages sizeofPage
  omega

/-- The first page after the page array, and the end of the zone. -/
def zoneLo (baseAddr sizeBytes : UInt64) : ℕ :=
  baseAddr.toNat / 4096 + arrayPages (sizeBytes.toNat / 4096)

def zoneHi (baseAddr sizeBytes : UInt64) : ℕ := baseAddr.toNat / 4096 + sizeBytes.toNat / 4096

theorem buddyInit_spec (heap : Heap) (baseAddr : UInt64) {sizeBytes : UInt64}
    (hs : 4096 ≤ sizeBytes.toNat) :
    ∃ L, Core (buddyInit heap baseAddr sizeBytes).2 L [] (baseAddr.toNat / 4096)
        (zoneLo baseAddr sizeBytes) (zoneHi baseAddr sizeBytes)
        (zoneHi baseAddr sizeBytes - zoneLo baseAddr sizeBytes) ∧
      (buddyInit heap baseAddr sizeBytes).2.zone.usedPages = 0 ∧
      (buddyInit heap baseAddr sizeBytes).2.zone.managedPages.toNat =
        zoneHi baseAddr sizeBytes - zoneLo baseAddr sizeBytes := by
  have hb := baseAddr.toNat_lt
  have hsz := sizeBytes.toNat_lt
  unfold buddyInit zoneLo zoneHi
  have hbase : baseAddr.toNat / 4096 < 2 ^ 52 := by omega
  have htot : 0 < sizeBytes.toNat / 4096 := by omega
  have htot' : sizeBytes.toNat / 4096 < 2 ^ 52 := by omega
  dsimp only
  generalize baseAddr.toNat / 4096 = base at *
  generalize sizeBytes.toNat / 4096 = total at *
  have hle := arrayPages_le htot
  rw [if_neg (by omega)]
  dsimp only
  have hempty : freeBlocks (fun _ => []) = [] := rfl
  have hstart : Core
      { heap := fun p =>
          if base ≤ p ∧ p < base + total then
            { next := none, prev := none, order := 0,
              flags := if p < base + arrayPages total then pageFlagReserved else 0,
              refcount := 0, zoneIdx := 0 }
          else heap p
        zone :=
          { freeList := fun _ => none, freeCount := fun _ => 0, pageArray := baseAddr,
            totalPages := total, usedPages := 0, reservedPages := arrayPages total, freePages := 0,
            managedPages := 0, basePfn := base, endPfn := base + total, zoneType := 0 } }
      (fun _ => []) [] base (base + arrayPages total) (base + total)
      (base + arrayPages total - (base + arrayPages total)) :=
    { base_eq := rfl
      end_eq := rfl
      base_le := Nat.le_add_right _ _
      small := by omega
      lists := fun _ _ => IsDList.nil
      count := fun _ _ => rfl
      data := fun _ _ _ hp => absurd hp (by simp)
      tiling := Tiling.nil
      mass := by rw [hempty, Nat.sub_self]; rfl }
  obtain ⟨L, h, hz⟩ := carve_spec total (base + arrayPages total) (total - arrayPages total) _ _
    (Nat.sub_le _ _) le_rfl (by omega) hstart (by simp [hempty]) fun q hq1 hq2 => by
      dsimp only
      rw [if_pos (by omega), if_neg (by omega)]
  have hsum := sum_counts h
  have hmass := h.mass
  rw [List.nil_append] at hmass
  exact ⟨L, h.congr rfl rfl rfl rfl fun _ _ _ _ => rfl, congrArg (·.1) hz, hsum.trans hmass⟩

end Init

/-! ## Runs -/

/-- The blocks of a zone tile a part of it with its live allocations, which are used pages and are
all that `used_pages` counts. -/
structure ZoneOk (s : State) (live : List Block) (base lo hi m : ℕ) : Prop where
  core : ∃ L, Core s L live base lo hi m
  livePages : ∀ b ∈ live, b.2 ≤ maxOrder ∧ (s.heap b.1).used = true ∧
    (s.heap b.1).reserved = false ∧ (s.heap b.1).order = b.2
  used : s.zone.usedPages.toNat = total live

section Steps

variable {s s' : State} {live : List Block} {base lo hi m p order : ℕ}

/-- The data of live pages says the same after a step that keeps it. -/
theorem live_of_data {b : Block} (hd : s'.data b.1 = s.data b.1)
    (h : b.2 ≤ maxOrder ∧ (s.heap b.1).used = true ∧ (s.heap b.1).reserved = false ∧
      (s.heap b.1).order = b.2) :
    b.2 ≤ maxOrder ∧ (s'.heap b.1).used = true ∧ (s'.heap b.1).reserved = false ∧
      (s'.heap b.1).order = b.2 :=
  ⟨h.1, (used_of_data hd).trans h.2.1, (reserved_of_data hd).trans h.2.2.1,
    (order_of_data hd).trans h.2.2.2⟩

/-- An allocation finds no block, or returns one that is now live. -/
theorem ZoneOk.alloc (h : ZoneOk s live base lo hi m)
    (hok : AllocSplits s order (SplitOk s.zone)) :
    findOrder s order = none ∨
      ∃ p s' m', buddyAllocPages s order = (some p, s') ∧
        ZoneOk s' ((p, order) :: live) base lo hi m' ∧ Allocated s s' live p order ∧ m' ≤ m ∧
        (AllocSplits s order (fun page k => buddyPfn page k = page + 2 ^ k) → m' = m) := by
  obtain ⟨L, hc⟩ := h.core
  rcases buddyAllocPages_spec hc hok with hn | ⟨p, s', L', m', hr, hc', ha, hm, hup⟩
  · exact Or.inl hn
  · refine Or.inr ⟨p, s', m', hr, ⟨⟨L', hc'⟩, fun b hb => ?_, ?_⟩, ha, hm, hup⟩
    · rcases List.mem_cons.mp hb with rfl | hb
      · exact ⟨ha.order_le, ha.used, ha.reserved, ha.order_eq⟩
      · exact live_of_data (ha.data b hb) (h.livePages b hb)
    · have htot := hc'.tiling.total_le
      have hsmall := hc'.small
      rw [total_append, total_cons] at htot
      have hcount := pageCount_toNat ha.order_le
      rw [total_cons, ha.usedPages, Word.toNat_add_lt, h.used, hcount]
      · exact Nat.add_comm _ _
      · rw [h.used, hcount]
        simp only [size] at htot
        omega

/-- A live block is freed. -/
theorem ZoneOk.free (h : ZoneOk s live base lo hi m) {b : Block} (hb : b ∈ live)
    (hok : FreeOk s b.1) :
    ZoneOk (buddyFreePages s b.1) (live.erase b) base lo hi m ∧
      Freed s (buddyFreePages s b.1) (live.erase b) b := by
  obtain ⟨L, hc⟩ := h.core
  obtain ⟨h1, h2, h3, h4⟩ := h.livePages b hb
  have hperm := List.perm_cons_erase hb
  obtain ⟨L', hc', hf⟩ := buddyFreePages_spec (hc.perm hperm) h1 h2 h3 h4 hok
  refine ⟨⟨⟨L', hc'⟩, fun c hmem => ?_, ?_⟩, hf⟩
  · exact live_of_data (hf.data c hmem) (h.livePages c (List.mem_of_mem_erase hmem))
  · have htot : total live = 2 ^ b.2 + total (live.erase b) := by
      rw [total_perm hperm, total_cons]
      rfl
    have hcount := pageCount_toNat h1
    rw [hf.usedPages, UInt64.toNat_sub_of_le, h.used, hcount]
    · omega
    · rw [UInt64.le_iff_toNat_le, h.used, hcount]
      omega

theorem ZoneOk.defragment {rounds : ℕ} (h : ZoneOk s live base lo hi m)
    (hok : DefragOk rounds s) :
    ZoneOk (buddyDefragment rounds s).2 live base lo hi m ∧
      (buddyDefragment rounds s).2.zone.managedPages = s.zone.managedPages := by
  obtain ⟨L, hc⟩ := h.core
  obtain ⟨L', hc', hk⟩ := buddyDefragment_spec hc hok
  obtain ⟨hused, hmanaged⟩ := Prod.mk.inj hk.counters
  refine ⟨⟨⟨L', hc'⟩, fun b hb => live_of_data (hk.data b hb) (h.livePages b hb), ?_⟩, hmanaged⟩
  rw [hused]
  exact h.used

theorem buddyInit_zoneOk (heap : Heap) (baseAddr : UInt64) {sizeBytes : UInt64}
    (hs : 4096 ≤ sizeBytes.toNat) :
    ZoneOk (buddyInit heap baseAddr sizeBytes).2 [] (baseAddr.toNat / 4096)
      (zoneLo baseAddr sizeBytes) (zoneHi baseAddr sizeBytes)
      (zoneHi baseAddr sizeBytes - zoneLo baseAddr sizeBytes) := by
  obtain ⟨L, h, hu, -⟩ := buddyInit_spec heap baseAddr hs
  exact ⟨⟨L, h⟩, by simp, by rw [hu]; rfl⟩

theorem Core.onList_iff {L : ℕ → List ℕ} (h : Core s L live base lo hi m) {k : ℕ} :
    OnList s k p ↔ k ≤ maxOrder ∧ p ∈ L k :=
  and_congr_right fun hk => (h.lists k hk).reaches_iff

theorem ZoneOk.blocksDisjoint (h : ZoneOk s live base lo hi m) : BlocksDisjoint (s, live) lo hi := by
  obtain ⟨L, hc⟩ := h.core
  have hmem : ∀ {k p}, OnList s k p → (p, k) ∈ freeBlocks L := fun ho =>
    mem_freeBlocks.mpr (hc.onList_iff.mp ho)
  obtain ⟨hlive, -, hcross⟩ := List.pairwise_append.mp hc.tiling.sep
  refine ⟨hlive, fun k p j q hp hq hne => ?_, fun b hb k p hp => hcross b hb _ (hmem hp),
    fun b hb => hc.tiling.inside b ?_⟩
  · exact hc.block_disj (List.mem_append_right _ (hmem hp)) (List.mem_append_right _ (hmem hq)) hne
  · rcases hb with hb | hb
    · exact List.mem_append_left _ hb
    · exact List.mem_append_right _ (hmem hb)

theorem ZoneOk.listsOk (h : ZoneOk s live base lo hi m)
    (hm : s.zone.managedPages.toNat = m) : ListsOk s := by
  obtain ⟨L, hc⟩ := h.core
  refine ⟨fun k hk => ⟨L k, hc.lists k hk, hc.count k hk⟩, fun k j p hp hq => ?_, ?_⟩
  · obtain ⟨hk, hp⟩ := hc.onList_iff.mp hp
    obtain ⟨hj, hq⟩ := hc.onList_iff.mp hq
    exact hc.order_unique hk hj hp hq
  · have hsum : (List.range (maxOrder + 1)).map (fun k => (s.zone.freeCount k).toNat * 2 ^ k) =
        (List.range (maxOrder + 1)).map fun k => (L k).length * 2 ^ k := by
      refine List.map_congr_left fun k hk => ?_
      rw [hc.count k (by rw [List.mem_range] at hk; omega)]
    rw [hsum, ← total_freeBlocks, h.used, ← total_append, hc.mass, hm]

end Steps

theorem BuddyLosesNone.ok {x : State × List Block} {op : BuddyOp} (h : BuddyLosesNone x op) :
    BuddyOk x op := by
  cases op with
  | alloc order => exact fun c p hf hp k hk1 hk2 => Or.inl (h c p hf hp k hk1 hk2)
  | free b => exact h
  | defragment rounds => exact h

/-- Every allowed call keeps the zone in order, and none that loses no page changes the number of
pages. -/
theorem ZoneOk.step {x y : State × List Block} {op : BuddyOp} {base lo hi m : ℕ}
    (h : ZoneOk x.1 x.2 base lo hi m) (hok : BuddyOk x op) (hst : buddyStep x op = some y) :
    ∃ m', ZoneOk y.1 y.2 base lo hi m' ∧ (BuddyLosesNone x op → m' = m) ∧
      y.1.zone.managedPages = x.1.zone.managedPages := by
  obtain ⟨s, live⟩ := x
  cases op with
  | alloc order =>
    unfold buddyStep at hst
    dsimp only at hst
    rcases h.alloc hok with hn | ⟨p, s', m', hr, h', ha, -, hup⟩
    · rw [findOrder_none hn] at hst
      obtain rfl := Option.some.inj hst
      exact ⟨m, h, fun _ => rfl, rfl⟩
    · rw [hr] at hst
      obtain rfl := Option.some.inj hst
      exact ⟨m', h', hup, ha.managedPages⟩
  | free b =>
    unfold buddyStep at hst
    dsimp only at hst
    split_ifs at hst with hb
    obtain rfl := Option.some.inj hst
    obtain ⟨h', hf⟩ := h.free hb hok
    exact ⟨m, h', fun _ => rfl, hf.managedPages⟩
  | defragment rounds =>
    obtain ⟨h', hmanaged⟩ := h.defragment hok
    unfold buddyStep at hst
    dsimp only at h' hmanaged hst ⊢
    generalize (buddyDefragment rounds s).2 = s' at h' hmanaged hst
    obtain rfl := Option.some.inj hst
    exact ⟨m, h', fun _ => rfl, hmanaged⟩

/-- Over every run whose splits take the upper half of a block or find no page, and in which no first
page of a list is unlinked, the live and the free blocks are disjoint and clear of the page array. -/
theorem buddy_blocks_disjoint (heap : Heap) {baseAddr sizeBytes : UInt64}
    (hs : 4096 ≤ sizeBytes.toNat) {x : State × List Block}
    (h : Reach buddyStep BuddyOk ((buddyInit heap baseAddr sizeBytes).2, []) x) :
    BlocksDisjoint x (zoneLo baseAddr sizeBytes) (zoneHi baseAddr sizeBytes) := by
  have hinv : ∃ m, ZoneOk x.1 x.2 (baseAddr.toNat / 4096) (zoneLo baseAddr sizeBytes)
      (zoneHi baseAddr sizeBytes) m := by
    refine Reach.invariant (I := fun x : State × List Block => ∃ m, ZoneOk x.1 x.2
      (baseAddr.toNat / 4096) (zoneLo baseAddr sizeBytes) (zoneHi baseAddr sizeBytes) m)
      ⟨_, buddyInit_zoneOk heap _ hs⟩ ?_ h
    rintro x op y ⟨m, hx⟩ hok hst
    obtain ⟨m', hy, -, -⟩ := hx.step hok hst
    exact ⟨m', hy⟩
  obtain ⟨m, hz⟩ := hinv
  exact hz.blocksDisjoint

/-- Memory before the allocator is set up. -/
def blankHeap : Heap := fun _ => ⟨none, none, 0, 0, 0, 0⟩

/-- A zone of two pages after a page array of one page, at the given base. -/
def smallZone (baseAddr : UInt64) : State := (buddyInit blankHeap baseAddr 0x3000).2

/-- In the zone at `0xFF000` the block of two pages starts at the even page 256. -/
theorem smallZone_splits : AllocSplits (smallZone 0xFF000) 0 fun page k =>
    buddyPfn page k = page + 2 ^ k := by
  intro c p hf hp k _ hk
  have hc : findOrder (smallZone 0xFF000) 0 = some 1 := by decide +kernel
  obtain rfl : c = 1 := Option.some.inj (hf.symm.trans hc)
  have h256 : (smallZone 0xFF000).zone.freeList 1 = some 256 := by decide +kernel
  obtain rfl : p = 256 := Option.some.inj (hp.symm.trans h256)
  obtain rfl : k = 0 := by omega
  decide

theorem buddyStep_alloc {s : State} {live : List Block} {order p : ℕ}
    (h : (buddyAllocPages s order).1 = some p) :
    buddyStep (s, live) (.alloc order) = some ((buddyAllocPages s order).2, (p, order) :: live) := by
  unfold buddyStep
  dsimp only
  generalize buddyAllocPages s order = r at h ⊢
  obtain ⟨o, t⟩ := r
  obtain rfl : o = some p := h
  rfl

theorem buddyStep_free {s : State} {live : List Block} {b : Block} (h : b ∈ live) :
    buddyStep (s, live) (.free b) = some (buddyFreePages s b.1, live.erase b) := if_pos h

theorem buddy_blocks_disjoint_one_page :
    BlocksDisjoint ((buddyAllocPages (smallZone 0xFF000) 0).2, [(256, 0)])
      (zoneLo 0xFF000 0x3000) (zoneHi 0xFF000 0x3000) :=
  buddy_blocks_disjoint blankHeap (by decide) (.step (.alloc 0) .start
    (fun c p hf hp k hk1 hk2 => Or.inl (smallZone_splits c p hf hp k hk1 hk2))
    (buddyStep_alloc (by decide +kernel)))

/-- The calls that allocate up to the largest order or free a live block. -/
def AllocOrFree : BuddyOp → Prop
  | .alloc order => order ≤ maxOrder
  | .free _ => True
  | .defragment _ => False

/-- The block of two pages at page 257 is split: the page 256 of the page array gets on a free list. -/
theorem buddy_split_takes_page_array :
    ¬ ∀ (heap : Heap) (baseAddr sizeBytes : UInt64) (x : State × List Block),
      baseAddr.toNat % 4096 = 0 → 4096 ≤ sizeBytes.toNat →
      Reach buddyStep (fun _ op => AllocOrFree op) ((buddyInit heap baseAddr sizeBytes).2, []) x →
      BlocksDisjoint x (zoneLo baseAddr sizeBytes) (zoneHi baseAddr sizeBytes) := by
  intro h
  have hpage : (buddyAllocPages (smallZone 0x100000) 0).1 = some 257 := by decide +kernel
  have hlist : (buddyAllocPages (smallZone 0x100000) 0).2.zone.freeList 0 = some 256 := by
    decide +kernel
  have hlo : zoneLo 0x100000 0x3000 = 257 := by decide +kernel
  have hdisj := h blankHeap 0x100000 0x3000 _ (by decide) (by decide)
    (.step (.alloc 0) .start (Nat.zero_le _) (buddyStep_alloc (s := smallZone 0x100000) hpage))
  generalize (buddyAllocPages (smallZone 0x100000) 0).2 = s at hlist hdisj
  have hon : OnList s 0 256 := ⟨Nat.zero_le _, by rw [hlist]; exact .here 256⟩
  have hin := (hdisj.inside (256, 0) (Or.inr hon)).1
  rw [hlo] at hin
  omega

/-- Over every run whose splits take the upper half of a block and in which no first page of a list is
unlinked, the lists are well formed and no page is lost. -/
theorem buddy_lists_ok (heap : Heap) {baseAddr sizeBytes : UInt64}
    (hs : 4096 ≤ sizeBytes.toNat) {x : State × List Block}
    (h : Reach buddyStep BuddyLosesNone ((buddyInit heap baseAddr sizeBytes).2, []) x) :
    ListsOk x.1 := by
  have hinv : ZoneOk x.1 x.2 (baseAddr.toNat / 4096) (zoneLo baseAddr sizeBytes)
      (zoneHi baseAddr sizeBytes) (zoneHi baseAddr sizeBytes - zoneLo baseAddr sizeBytes) ∧
      x.1.zone.managedPages.toNat = zoneHi baseAddr sizeBytes - zoneLo baseAddr sizeBytes := by
    refine Reach.invariant (I := fun x : State × List Block => ZoneOk x.1 x.2
      (baseAddr.toNat / 4096) (zoneLo baseAddr sizeBytes) (zoneHi baseAddr sizeBytes)
      (zoneHi baseAddr sizeBytes - zoneLo baseAddr sizeBytes) ∧ x.1.zone.managedPages.toNat =
        zoneHi baseAddr sizeBytes - zoneLo baseAddr sizeBytes) ?_ ?_ h
    · obtain ⟨-, -, -, hm⟩ := buddyInit_spec heap baseAddr hs
      exact ⟨buddyInit_zoneOk heap _ hs, hm⟩
    · rintro x op y ⟨hx, hm⟩ hok hst
      obtain ⟨m', hy, hsame, hmanaged⟩ := hx.step hok.ok hst
      rw [hsame hok] at hy
      exact ⟨hy, by rw [hmanaged, hm]⟩
  exact hinv.1.listsOk hinv.2

theorem buddy_lists_ok_one_page : ListsOk (buddyAllocPages (smallZone 0xFF000) 0).2 := by
  have hpage : (buddyAllocPages (smallZone 0xFF000) 0).1 = some 256 := by decide +kernel
  have hrun : Reach buddyStep BuddyLosesNone (smallZone 0xFF000, [])
      ((buddyAllocPages (smallZone 0xFF000) 0).2, [(256, 0)]) :=
    .step (.alloc 0) .start smallZone_splits (buddyStep_alloc hpage)
  generalize (buddyAllocPages (smallZone 0xFF000) 0).2 = s at hrun
  exact buddy_lists_ok blankHeap (by decide) hrun

/-- Page 256 is freed while its buddy 257 is first on its list: the list still starts with 257, but
`free_count` says that it is empty. -/
theorem buddy_merge_keeps_head :
    ¬ ∀ (heap : Heap) (baseAddr sizeBytes : UInt64) (x : State × List Block),
      baseAddr.toNat % 4096 = 0 → 4096 ≤ sizeBytes.toNat →
      Reach buddyStep (fun _ _ => True) ((buddyInit heap baseAddr sizeBytes).2, []) x →
      ListsOk x.1 := by
  intro h
  have hpage : (buddyAllocPages (smallZone 0xFF000) 0).1 = some 256 := by decide +kernel
  have hhead : (buddyFreePages (buddyAllocPages (smallZone 0xFF000) 0).2 256).zone.freeList 0 =
      some 257 := by
    decide +kernel
  have hzero : ((buddyFreePages (buddyAllocPages (smallZone 0xFF000) 0).2 256).zone.freeCount
      0).toNat = 0 := by
    decide +kernel
  have hlists := h blankHeap 0xFF000 0x3000 _ (by decide) (by decide)
    (.step (.free (256, 0)) (.step (.alloc 0) .start trivial
      (buddyStep_alloc (s := smallZone 0xFF000) hpage)) trivial
      (buddyStep_free (List.mem_cons_self ..)))
  dsimp only at hlists
  generalize buddyFreePages (buddyAllocPages (smallZone 0xFF000) 0).2 256 = s at hhead hzero hlists
  obtain ⟨l, hl, hcount⟩ := hlists.lists 0 (Nat.zero_le _)
  have hnil : l = [] := List.length_eq_zero_iff.mp (by rw [← hcount, hzero])
  have hnone := hl.head_eq
  rw [hnil, hhead] at hnone
  exact absurd hnone (by simp)

end Buddy
