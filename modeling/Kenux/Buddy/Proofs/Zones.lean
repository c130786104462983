import Kenux.Buddy.Proofs.Local

/-!
# Runs on all zones

The zones lie apart, and an operation on one stays in it. As long as every page is freed into the
zone it is from, the pages on the lists of a zone are its own; if the calls also meet the conditions
of `buddy_blocks_disjoint`, every zone counts its used pages right.
-/

namespace Buddy

open DList Blocks Run

/-- The zones lie apart, and every page names zone 0. -/
structure Laid (sys : System) : Prop where
  apart : ∀ i j z w, i ≠ j → sys.zones i = some z → sys.zones j = some w →
    ∀ p, InZone z p → ¬ InZone w p
  zoneIdx : ∀ i z, sys.zones i = some z → ∀ p, InZone z p → (sys.heap p).zoneIdx = 0

/-- The links of the pages of a zone lead to its pages. -/
structure SystemInv (sys : System) : Prop extends Laid sys where
  closed : ∀ i z, sys.zones i = some z → Closed ⟨sys.heap, z⟩

/-- A page is one of zone `i`. -/
def Owned (sys : System) (i : ZoneIdx) (p : ℕ) : Prop := ∃ z, sys.zones i = some z ∧ InZone z p

/-- The blocks of a zone are in order, and its first page is reserved. -/
def InOrder (s : State) (bs : List Block) : Prop :=
  ∃ base lo hi m, base < lo ∧ ZoneOk s bs base lo hi m

def AllOk (sys : System) (live : List (ZoneIdx × Block)) : Prop :=
  ∀ i z, sys.zones i = some z → InOrder ⟨sys.heap, z⟩ (liveIn live i)

/-- What every operation keeps. -/
structure SystemStep (sys sys' : System) : Prop where
  inv : SystemInv sys'
  owned : ∀ i p, Owned sys i p → Owned sys' i p
  initialized : sys'.initialized = sys.initialized

section

variable {sys sys' sys'' : System} {i j : ZoneIdx} {z w : Zone} {s : State} {p : ℕ}
variable {live : List (ZoneIdx × Block)}

theorem SystemStep.refl (h : SystemInv sys) : SystemStep sys sys := ⟨h, fun _ _ h => h, rfl⟩

theorem SystemStep.trans (h : SystemStep sys sys') (h' : SystemStep sys' sys'') :
    SystemStep sys sys'' :=
  ⟨h'.inv, fun i p hp => h'.owned i p (h.owned i p hp), h'.initialized.trans h.initialized⟩

/-! ## One zone -/

theorem Closed.congr {heap heap' : Heap} (h : Closed ⟨heap, z⟩)
    (hp : ∀ p, InZone z p → heap' p = heap p) : Closed ⟨heap', z⟩ where
  heads := h.heads
  next p hin q hq := h.next p hin q ((congrArg Page.next (hp p hin)).symm.trans hq)
  prev p hin q hq := h.prev p hin q ((congrArg Page.prev (hp p hin)).symm.trans hq)

/-- Only the pages of a zone matter to its blocks. -/
theorem ZoneOk.congr {heap heap' : Heap} {bs : List Block} {base lo hi m : ℕ}
    (h : ZoneOk ⟨heap, z⟩ bs base lo hi m) (hp : ∀ p, InZone z p → heap' p = heap p) :
    ZoneOk ⟨heap', z⟩ bs base lo hi m := by
  obtain ⟨L, hc⟩ := h.core
  have hin : ∀ b ∈ bs ++ freeBlocks L, InZone z b.1 := by
    intro b hb
    have hbase := hc.base_eq
    have hend := hc.end_eq
    have hle := hc.base_le
    have hpos := size_pos b
    obtain ⟨h1, h2⟩ := hc.tiling.inside b hb
    dsimp only at hbase hend
    exact ⟨by omega, by omega⟩
  refine ⟨⟨L, hc.congr rfl rfl rfl rfl fun k hk p hmem => ?_⟩, fun b hb => ?_, h.used⟩
  · exact hp p (hin (p, k) (List.mem_append_right _ (mem_freeBlocks.mpr ⟨hk, hmem⟩)))
  · dsimp only
    rw [hp b.1 (hin b (List.mem_append_left _ hb))]
    exact h.livePages b hb

theorem ZoneOk.perm {bs bs' : List Block} {base lo hi m : ℕ} (h : ZoneOk s bs base lo hi m)
    (hp : bs.Perm bs') : ZoneOk s bs' base lo hi m := by
  obtain ⟨L, hc⟩ := h.core
  exact ⟨⟨L, hc.perm hp⟩, fun b hb => h.livePages b (hp.mem_iff.mpr hb),
    h.used.trans (total_perm hp)⟩

/-- The first page of a live block is not the first of the zone. -/
theorem InOrder.live_gt {bs : List Block} (h : InOrder s bs) {b : Block} (hb : b ∈ bs) :
    s.zone.basePfn < b.1 := by
  obtain ⟨base, lo, hi, m, hlt, h⟩ := h
  obtain ⟨L, hc⟩ := h.core
  have := (hc.tiling.inside b (List.mem_append_left _ hb)).1
  rw [hc.base_eq]
  omega

/-! ## An operation on one of the zones -/

theorem put_zones : (sys.put i s).zones j = if j = i then some s.zone else sys.zones j := by
  unfold System.put
  exact Function.update_apply ..

theorem put_self (h : sys.zones i = some z) : sys.put i ⟨sys.heap, z⟩ = sys := by
  unfold System.put
  rw [← h, Function.update_eq_self]

/-- The pages of the other zones stay. -/
theorem SystemInv.heap_eq (h : SystemInv sys) (hz : sys.zones i = some z)
    (hloc : Local ⟨sys.heap, z⟩ s) (hij : j ≠ i) (hw : sys.zones j = some w) (hp : InZone w p) :
    s.heap p = sys.heap p :=
  hloc.outside p (h.apart j i w z hij hw hz p hp)

theorem SystemInv.put (h : SystemInv sys) (hz : sys.zones i = some z)
    (hloc : Local ⟨sys.heap, z⟩ s) : SystemStep sys (sys.put i s) := by
  -- a zone afterwards lies where it was before
  have hzone : ∀ {j w}, (sys.put i s).zones j = some w →
      (j = i ∧ w = s.zone ∧ InZone w = InZone z) ∨ (j ≠ i ∧ sys.zones j = some w) := by
    intro j w hw
    rw [put_zones] at hw
    split_ifs at hw with hji
    · obtain rfl := Option.some.inj hw
      exact Or.inl ⟨hji, rfl, hloc.inZone⟩
    · exact Or.inr ⟨hji, hw⟩
  have hback : ∀ {j w}, (sys.put i s).zones j = some w →
      ∃ v, sys.zones j = some v ∧ InZone w = InZone v := by
    intro j w hw
    rcases hzone hw with ⟨rfl, rfl, hin⟩ | ⟨-, hw⟩
    · exact ⟨z, hz, hin⟩
    · exact ⟨w, hw, rfl⟩
  refine ⟨⟨⟨fun j k w v hjk hw hv p hp => ?_, fun j w hw p hp => ?_⟩, fun j w hw => ?_⟩,
    fun j p ⟨w, hw, hp⟩ => ?_, rfl⟩
  · obtain ⟨w', hw', hin⟩ := hback hw
    obtain ⟨v', hv', hin'⟩ := hback hv
    rw [hin] at hp
    rw [hin']
    exact h.apart j k w' v' hjk hw' hv' p hp
  · obtain ⟨w', hw', hin⟩ := hback hw
    rw [hin] at hp
    exact (hloc.zoneIdx p).trans (h.zoneIdx j w' hw' p hp)
  · rcases hzone hw with ⟨rfl, rfl, -⟩ | ⟨hji, hw⟩
    · exact hloc.closed
    · exact (h.closed j w hw).congr fun p hp => h.heap_eq hz hloc hji hw hp
  · by_cases hji : j = i
    · subst hji
      obtain rfl := Option.some.inj (hz.symm.trans hw)
      exact ⟨s.zone, by rw [put_zones, if_pos rfl], hloc.of_inZone hp⟩
    · exact ⟨w, by rw [put_zones, if_neg hji, hw], hp⟩

/-- If an operation keeps the blocks of its zone in order, those of all zones are. -/
theorem AllOk.put {live' : List (ZoneIdx × Block)} (h : SystemInv sys) (ha : AllOk sys live)
    (hz : sys.zones i = some z) (hloc : Local ⟨sys.heap, z⟩ s)
    (hs : InOrder s (liveIn live' i))
    (hlive : ∀ j, j ≠ i → (liveIn live j).Perm (liveIn live' j)) : AllOk (sys.put i s) live' := by
  intro j w hw
  rw [put_zones] at hw
  split_ifs at hw with hji
  · obtain rfl := Option.some.inj hw
    subst hji
    exact hs
  · obtain ⟨base, lo, hi, m, hlt, hok⟩ := ha j w hw
    exact ⟨base, lo, hi, m, hlt,
      (hok.congr fun p hp => h.heap_eq hz hloc hji hw hp).perm (hlive j hji)⟩

/-! ## Live blocks -/

theorem liveIn_cons (a : ZoneIdx × Block) :
    liveIn (a :: live) j = if a.1 = j then a.2 :: liveIn live j else liveIn live j := by
  unfold liveIn
  rw [List.filterMap_cons]
  split_ifs <;> rfl

theorem mem_liveIn {b : Block} : b ∈ liveIn live i ↔ (i, b) ∈ live := by
  unfold liveIn
  rw [List.mem_filterMap]
  constructor
  · rintro ⟨⟨j, c⟩, hmem, h⟩
    split_ifs at h with hj
    obtain rfl := Option.some.inj h
    dsimp only at hj
    rwa [← hj]
  · exact fun h => ⟨(i, b), h, if_pos rfl⟩

theorem liveIn_erase {a : ZoneIdx × Block} (h : a ∈ live) :
    (liveIn live j).Perm (if a.1 = j then a.2 :: liveIn (live.erase a) j
      else liveIn (live.erase a) j) := by
  rw [← liveIn_cons]
  exact (List.perm_cons_erase h).filterMap _

/-! ## Allocating -/

theorem tryZones_step (order : ℕ) (is : List ZoneIdx) : ∀ sys : System, SystemInv sys →
    SystemStep sys (tryZones order is sys).2 ∧
      ∀ i p, (tryZones order is sys).1 = some (i, p) → Owned (tryZones order is sys).2 i p := by
  induction is with
  | nil => exact fun sys h => ⟨.refl h, by simp [tryZones]⟩
  | cons i is ih =>
    intro sys h
    unfold tryZones
    cases hz : sys.zones i with
    | none => exact ih sys h
    | some z =>
      obtain ⟨hloc, hin⟩ := buddyAllocPages_local (h.closed i z hz) order
      dsimp only
      generalize buddyAllocPages ⟨sys.heap, z⟩ order = r at hloc hin ⊢
      obtain ⟨_ | p, s⟩ := r
      · have hput := h.put hz hloc
        obtain ⟨hstep, hown⟩ := ih _ hput.inv
        exact ⟨hput.trans hstep, hown⟩
      · refine ⟨h.put hz hloc, fun j q hq => ?_⟩
        obtain ⟨rfl, rfl⟩ := Prod.mk.inj (Option.some.inj hq)
        exact (h.put hz hloc).owned _ _ ⟨z, hz, hin _ rfl⟩

theorem tryZones_allOk (h : SystemInv sys) (ha : AllOk sys live) {order : ℕ} (is : List ZoneIdx)
    (hok : TryOk sys order is) : tryZones order is sys = (none, sys) ∨
      ∃ i p sys', tryZones order is sys = (some (i, p), sys') ∧
        AllOk sys' ((i, p, order) :: live) := by
  induction is with
  | nil => exact Or.inl rfl
  | cons i is ih =>
    unfold tryZones
    unfold TryOk at hok
    cases hz : sys.zones i with
    | none =>
      rw [hz] at hok
      exact ih hok
    | some z =>
      rw [hz] at hok
      dsimp only at hok ⊢
      have hskip : tryZones order is (sys.put i ⟨sys.heap, z⟩) = tryZones order is sys := by
        rw [put_self hz]
      rcases hok with ⟨hnone, hrest⟩ | ⟨hsome, hsplit⟩
      · rw [findOrder_none hnone]
        dsimp only
        rw [hskip]
        exact ih hrest
      · obtain ⟨hloc, -⟩ := buddyAllocPages_local (h.closed i z hz) order
        obtain ⟨base, lo, hi, m, hlt, hzok⟩ := ha i z hz
        rcases hzok.alloc hsplit with hn | ⟨p, s', m', hr, hzok', -, -, -⟩
        · exact absurd hn hsome
        · rw [hr] at hloc ⊢
          refine Or.inr ⟨i, p, _, rfl, ha.put h hz hloc ?_ fun j hj => ?_⟩
          · rw [liveIn_cons, if_pos rfl]
            exact ⟨base, lo, hi, m', hlt, hzok'⟩
          · rw [liveIn_cons, if_neg (Ne.symm hj)]

/-! ## Freeing -/

theorem contains_iff : z.contains p = true ↔ InZone z p := by
  unfold Zone.contains InZone
  rw [Bool.and_eq_true, decide_eq_true_eq, decide_eq_true_eq]

/-- The zones lie apart, so a page number is found in its own zone only. -/
theorem Laid.zoneOfPfn (h : Laid sys) (hz : sys.zones i = some z) (hp : InZone z p) :
    zoneOfPfn sys p = some (i, z) := by
  have hown : ((sys.zones i).filter (·.contains p)).map (i, ·) = some (i, z) := by
    rw [hz, Option.filter_some, if_pos (contains_iff.mpr hp)]
    rfl
  have hother : ∀ j, j ≠ i → ((sys.zones j).filter (·.contains p)).map (j, ·) = none := by
    intro j hj
    rw [Option.map_eq_none_iff, Option.filter_eq_none_iff]
    exact fun w hw hc => h.apart i j z w (Ne.symm hj) hz hw p hp (contains_iff.mp hc)
  unfold Buddy.zoneOfPfn
  simp only [List.findSome?_cons, List.findSome?_nil]
  have hi : ∀ i : ZoneIdx, i = zoneDma ∨ i = zoneDma32 ∨ i = zoneNormal := by decide
  rcases hi i with rfl | rfl | rfl
  · rw [hown]
  · rw [hother zoneDma (by decide), hown]
  · rw [hother zoneDma (by decide), hother zoneDma32 (by decide), hown]

theorem Laid.freePages (h : Laid sys) (hinit : sys.initialized = true)
    (hz : sys.zones i = some z) (hp : InZone z p) (hr : i = zoneDma ∨ sys.zones zoneDma = none) :
    freePages sys p = sys.put i (buddyFreePages ⟨sys.heap, z⟩ p) := by
  have hfind : (zoneOfIdx sys p).or (Buddy.zoneOfPfn sys p) = some (i, z) := by
    have hidx : zoneOfIdx sys p = (sys.zones zoneDma).map (zoneDma, ·) := by
      unfold zoneOfIdx
      rw [h.zoneIdx i z hz p hp]
      rfl
    rw [hidx]
    rcases hr with rfl | hr
    · rw [hz]
      rfl
    · rw [hr]
      exact h.zoneOfPfn hz hp
  unfold Buddy.freePages
  rw [if_pos hinit, hfind]

theorem SystemInv.freePages_step (h : SystemInv sys) (hinit : sys.initialized = true)
    (ho : Owned sys i p) (hr : i = zoneDma ∨ sys.zones zoneDma = none) :
    SystemStep sys (Buddy.freePages sys p) := by
  obtain ⟨z, hz, hp⟩ := ho
  rw [h.freePages hinit hz hp hr]
  exact h.put hz (buddyFreePages_local (h.closed i z hz) hp)

theorem pageToVirt_toNat (hp : p < 2 ^ 52) : (pageToVirt p).toNat = p * 4096 := by
  unfold pageToVirt
  rw [UInt64.toNat_mul, UInt64.toNat_ofNat_of_lt' (Nat.lt_trans hp (by decide))]
  exact Nat.mod_eq_of_lt (by change p * 4096 < _; omega)

/-- Freeing the address of a page frees the page, except for the first page of a zone at 0. -/
theorem Laid.freePagesVirt (h : Laid sys) (hinit : sys.initialized = true)
    (hz : sys.zones i = some z) (hp : InZone z p) (hsmall : p < 2 ^ 52) :
    freePagesVirt sys (pageToVirt p) = Buddy.freePages sys p ∨
      (freePagesVirt sys (pageToVirt p) = sys ∧ p = z.basePfn) := by
  have hnat := pageToVirt_toNat hsmall
  have hpfn : (pageToVirt p).toNat / 4096 = p := by
    rw [hnat]
    exact Nat.mul_div_cancel p (by omega)
  unfold Buddy.freePagesVirt
  by_cases h0 : pageToVirt p = 0
  · rw [h0] at hnat
    have hnat : 0 = p * 4096 := hnat
    have hlo := hp.1
    rw [if_pos (Or.inl h0)]
    exact Or.inr ⟨rfl, by omega⟩
  · rw [if_neg (by simp [h0, hinit]), hpfn, h.zoneOfPfn hz hp]
    unfold virtToPage
    rw [hpfn]
    dsimp only
    by_cases hb : p = z.basePfn
    · cases hpage : pfnToPage z p with
      | none => exact Or.inr ⟨rfl, hb⟩
      | some q =>
        obtain ⟨rfl, -⟩ := pfnToPage_eq_some hpage
        exact Or.inl rfl
    · have hlo := hp.1
      rw [pfnToPage_of_lt (by omega) hp.2]
      exact Or.inl rfl

theorem AllOk.freePages (h : SystemInv sys) (hinit : sys.initialized = true)
    (ha : AllOk sys live) {a : ZoneIdx × Block} (hmem : a ∈ live) (hz : sys.zones a.1 = some z)
    (hp : InZone z a.2.1) (hr : a.1 = zoneDma ∨ sys.zones zoneDma = none)
    (hok : FreeOk ⟨sys.heap, z⟩ a.2.1) :
    AllOk (Buddy.freePages sys a.2.1) (live.erase a) := by
  obtain ⟨i, b⟩ := a
  rw [h.freePages hinit hz hp hr]
  obtain ⟨base, lo, hi, m, hlt, hzok⟩ := ha i z hz
  have hbmem : b ∈ liveIn live i := mem_liveIn.mpr hmem
  obtain ⟨hfree, -⟩ := hzok.free hbmem hok
  refine ha.put h hz (buddyFreePages_local (h.closed i z hz) hp) ?_ fun j hj => ?_
  · refine ⟨base, lo, hi, m, hlt, hfree.perm ?_⟩
    have hperm := (liveIn_erase (j := i) hmem).erase b
    rw [if_pos rfl, List.erase_cons_head] at hperm
    exact hperm
  · have hperm := liveIn_erase (j := j) hmem
    rwa [if_neg (Ne.symm hj)] at hperm

/-! ## `buddy_global_init` -/

def Below (sys : System) (e : ℕ) : Prop := ∀ i z, sys.zones i = some z → z.endPfn * 4096 ≤ e

theorem Below.mono {e e' : ℕ} (h : Below sys e) (he : e ≤ e') : Below sys e' :=
  fun i z hz => (h i z hz).trans he

theorem initZone_spec (h : SystemInv sys) (ha : AllOk sys []) (i : ZoneIdx) (start size : UInt64)
    {e : ℕ} (hnone : sys.zones i = none) (hb : Below sys start.toNat) (he : Below sys e)
    (hend : size ≠ 0 → start.toNat + size.toNat ≤ e) :
    SystemInv (initZone sys i start size) ∧ AllOk (initZone sys i start size) [] ∧
      Below (initZone sys i start size) e ∧
      ∀ j, j ≠ i → (initZone sys i start size).zones j = sys.zones j := by
  unfold initZone
  split_ifs with hsize
  swap
  · exact ⟨h, ha, he, fun _ _ => rfl⟩
  have hpage : 4096 ≤ size.toNat := UInt64.le_iff_toNat_le.mp hsize.2
  have hsum := hend (by rintro rfl; exact absurd hpage (by decide))
  obtain ⟨hclosed, hframe, hout, hidx⟩ := buddyInit_closed sys.heap start hpage
  have hzok := buddyInit_zoneOk sys.heap start hpage
  generalize (buddyInit sys.heap start size).2 = s at hclosed hframe hout hidx hzok ⊢
  obtain ⟨-, hbounds⟩ := Prod.mk.inj hframe
  obtain ⟨hbase, hendz⟩ := Prod.mk.inj hbounds
  unfold zoneHi at hendz
  have hzone : ∀ j w, (sys.put i s).zones j = some w →
      (j = i ∧ w = s.zone) ∨ (j ≠ i ∧ sys.zones j = some w) := by
    intro j w hw
    rw [put_zones] at hw
    split_ifs at hw with hji
    · exact Or.inl ⟨hji, (Option.some.inj hw).symm⟩
    · exact Or.inr ⟨hji, hw⟩
  -- the zones there are lie below the new one
  have hapart : ∀ j w, sys.zones j = some w → ∀ p, InZone w p → ¬ InZone s.zone p := by
    intro j w hw p hp hp'
    have := hb j w hw
    have := hp.2
    have := hp'.1
    omega
  have hheap : ∀ j w, sys.zones j = some w → ∀ p, InZone w p → s.heap p = sys.heap p :=
    fun j w hw p hp => hout p (hapart j w hw p hp)
  refine ⟨⟨⟨fun j k w v hjk hw hv p hp => ?_, fun j w hw p hp => ?_⟩, fun j w hw => ?_⟩,
    fun j w hw => ?_, fun j w hw => ?_, fun j hj => ?_⟩
  · rcases hzone j w hw with ⟨hj, hw'⟩ | ⟨-, hw'⟩ <;>
      rcases hzone k v hv with ⟨hk, hv'⟩ | ⟨-, hv'⟩
    · exact absurd (hj.trans hk.symm) hjk
    · rw [hw'] at hp
      exact fun hp' => hapart k v hv' p hp' hp
    · rw [hv']
      exact hapart j w hw' p hp
    · exact h.apart j k w v hjk hw' hv' p hp
  · rcases hzone j w hw with ⟨rfl, rfl⟩ | ⟨-, hw⟩
    · exact hidx p hp
    · exact (congrArg Page.zoneIdx (hheap j w hw p hp)).trans (h.zoneIdx j w hw p hp)
  · rcases hzone j w hw with ⟨rfl, rfl⟩ | ⟨-, hw⟩
    · exact hclosed
    · exact (h.closed j w hw).congr (hheap j w hw)
  · rcases hzone j w hw with ⟨rfl, rfl⟩ | ⟨-, hw⟩
    · refine ⟨_, _, _, _, ?_, hzok⟩
      unfold zoneLo arrayPages sizeofPage
      omega
    · obtain ⟨base, lo, hi, m, hlt, hok⟩ := ha j w hw
      exact ⟨base, lo, hi, m, hlt, hok.congr (hheap j w hw)⟩
  · rcases hzone j w hw with ⟨rfl, rfl⟩ | ⟨-, hw⟩
    · omega
    · exact he j w hw
  · rw [put_zones, if_neg hj]

/-- A system without zones. -/
theorem noZones_spec (hnone : ∀ i, sys.zones i = none) : SystemInv sys ∧ AllOk sys [] ∧ ∀ e, Below sys e := by
  have hz : ∀ i z, sys.zones i ≠ some z := fun i z hz => by
    rw [hnone] at hz
    cases hz
  exact ⟨⟨⟨fun i _ z _ _ h => absurd h (hz i z), fun i z h => absurd h (hz i z)⟩, fun i z h => absurd h (hz i z)⟩,
    fun i z h => absurd h (hz i z), fun _ i z h => absurd h (hz i z)⟩

/-- The zone that is set up when there is no other; it may be without a page. -/
theorem onlyZone_spec (hnone : ∀ i, sys.zones i = none) (baseAddr totalSize : UInt64) :
    SystemInv (sys.put zoneNormal (buddyInit sys.heap baseAddr totalSize).2) ∧
      AllOk (sys.put zoneNormal (buddyInit sys.heap baseAddr totalSize).2) [] := by
  obtain ⟨hinv, hall, hbelow⟩ := noZones_spec hnone
  by_cases hsize : 4096 ≤ totalSize.toNat
  · have hinit : initZone sys zoneNormal baseAddr totalSize =
        sys.put zoneNormal (buddyInit sys.heap baseAddr totalSize).2 := by
      refine if_pos ⟨UInt64.lt_iff_toNat_lt.mpr ?_, UInt64.le_iff_toNat_le.mpr hsize⟩
      exact Nat.lt_of_lt_of_le (by decide) hsize
    obtain ⟨hinv', hall', -⟩ := initZone_spec hinv hall zoneNormal baseAddr totalSize
      (e := baseAddr.toNat + totalSize.toNat) (hnone _) (hbelow _) (hbelow _) fun _ => le_rfl
    rw [hinit] at hinv' hall'
    exact ⟨hinv', hall'⟩
  · have hzero : totalSize.toNat / 4096 = 0 := Nat.div_eq_of_lt (Nat.not_le.mp hsize)
    have hbase := baseAddr.toNat_lt
    unfold buddyInit
    rw [if_pos hzero]
    generalize hz : (⟨_, _, _, _, _, _, _, _, _, _, _⟩ : Zone) = zone
    have hempty : ∀ p, ¬InZone zone p := by
      rintro p ⟨hlo, hhi⟩
      subst hz
      dsimp only at hlo hhi
      omega
    have hheads : ∀ k, zone.freeList k = none := by
      intro k
      subst hz
      rfl
    have honly : ∀ j w, (sys.put zoneNormal ⟨sys.heap, zone⟩).zones j = some w → w = zone := by
      intro j w hw
      rw [put_zones] at hw
      split_ifs at hw
      · exact (Option.some.inj hw).symm
      · rw [hnone] at hw
        cases hw
    refine ⟨⟨⟨fun j k w v _ hw _ p hp => ?_, fun j w hw p hp => ?_⟩, fun j w hw => ?_⟩, fun j w hw => ?_⟩
    · exact absurd hp (honly j w hw ▸ hempty p)
    · exact absurd hp (honly j w hw ▸ hempty p)
    · obtain rfl := honly j w hw
      refine ⟨fun k p hp => ?_, fun p hp => absurd hp (hempty p), fun p hp => absurd hp (hempty p)⟩
      have hp : w.freeList k = some p := hp
      rw [hheads] at hp
      cases hp
    · obtain rfl := honly j w hw
      subst hz
      refine ⟨baseAddr.toNat / 4096, baseAddr.toNat / 4096 + 1, baseAddr.toNat / 4096, 0, Nat.lt_succ_self _, ?_⟩
      refine ⟨⟨fun _ => [], rfl, ?_, Nat.le_succ _, ?_, fun _ _ => IsDList.nil, fun _ _ => rfl,
        fun _ _ p hp => absurd hp List.not_mem_nil, Tiling.nil, rfl⟩, fun b hb => absurd hb List.not_mem_nil, rfl⟩
      · show baseAddr.toNat / 4096 + totalSize.toNat / 4096 = _
        rw [hzero, Nat.add_zero]
      · omega

/-- The system before `buddy_global_init`. -/
def bootSystem (heap : Heap) : System := ⟨heap, fun _ => none, false⟩

theorem buddyGlobalInit_spec (heap : Heap) (baseAddr totalSize : UInt64) :
    SystemInv (buddyGlobalInit (bootSystem heap) baseAddr totalSize) ∧
      AllOk (buddyGlobalInit (bootSystem heap) baseAddr totalSize) [] ∧
      (buddyGlobalInit (bootSystem heap) baseAddr totalSize).initialized = true := by
  obtain ⟨hempty, hok, hbelow⟩ := noZones_spec (show ∀ i, (bootSystem heap).zones i = none from fun _ => rfl)
  unfold buddyGlobalInit
  rw [if_neg (by simp [bootSystem])]
  dsimp only
  generalize hdma : (if zoneDmaEnd > totalSize then totalSize else zoneDmaEnd) = dmaEnd
  generalize hdma32 : (if zoneDma32End > totalSize then totalSize else zoneDma32End) = dma32End
  have hmin : ∀ a b : UInt64, (if a > b then b else a).toNat = min b.toNat a.toNat := by
    intro a b
    split_ifs with h
    · have := UInt64.lt_iff_toNat_lt.mp h
      omega
    · have := mt UInt64.lt_iff_toNat_lt.mpr h
      omega
  have hlt : zoneDmaEnd.toNat < zoneDma32End.toNat := by decide
  have h1 : dmaEnd.toNat = min totalSize.toNat zoneDmaEnd.toNat := by rw [← hdma, hmin]
  have h2 : dma32End.toNat = min totalSize.toNat zoneDma32End.toNat := by rw [← hdma32, hmin]
  have hsub : ∀ a b : UInt64, a.toNat ≤ b.toNat → a.toNat + (b - a).toNat ≤ b.toNat := by
    intro a b hab
    rw [UInt64.toNat_sub_of_le _ _ (UInt64.le_iff_toNat_le.mpr hab)]
    omega
  have hdmaSize : dmaEnd - (if baseAddr < dmaEnd then baseAddr else dmaEnd) ≠ 0 →
      baseAddr.toNat + (dmaEnd - (if baseAddr < dmaEnd then baseAddr else dmaEnd)).toNat ≤
        dmaEnd.toNat := by
    intro hne
    split_ifs at hne ⊢ with hlt
    · exact hsub _ _ (UInt64.lt_iff_toNat_lt.mp hlt).le
    · exact absurd (UInt64.sub_self _) hne
  generalize dmaEnd - (if baseAddr < dmaEnd then baseAddr else dmaEnd) = dmaSize at hdmaSize ⊢
  have hzones : ∀ i, (bootSystem heap).zones i = none := fun _ => rfl
  have hboot : (⟨(bootSystem heap).heap, fun _ => none, (bootSystem heap).initialized⟩ : System) =
      bootSystem heap := rfl
  rw [hboot]
  obtain ⟨hi₁, ha₁, hb₁, hz₁⟩ := initZone_spec hempty hok zoneDma baseAddr dmaSize (hzones _) (hbelow _) (hbelow _)
    hdmaSize
  generalize initZone (bootSystem heap) zoneDma baseAddr dmaSize = sys₁ at hi₁ ha₁ hb₁ hz₁ ⊢
  obtain ⟨hi₂, ha₂, hb₂, hz₂⟩ := initZone_spec hi₁ ha₁ zoneDma32 dmaEnd (dma32End - dmaEnd)
    ((hz₁ _ (by decide)).trans (hzones _)) hb₁ (hb₁.mono (by omega))
    (fun _ => hsub _ _ (by omega))
  generalize initZone sys₁ zoneDma32 dmaEnd (dma32End - dmaEnd) = sys₂ at hi₂ ha₂ hb₂ hz₂ ⊢
  obtain ⟨hi₃, ha₃, -, -⟩ := initZone_spec hi₂ ha₂ zoneNormal dma32End
    (totalSize - dma32End) ((hz₂ _ (by decide)).trans ((hz₁ _ (by decide)).trans (hzones _))) hb₂ (hb₂.mono (by omega))
    (fun _ => hsub _ _ (by omega))
  generalize initZone sys₂ zoneNormal dma32End (totalSize - dma32End) = sys₃ at hi₃ ha₃ ⊢
  split_ifs with hno
  · have hnone : ∀ i, sys₃.zones i = none := by
      have hcases : ∀ i : ZoneIdx, i = zoneDma ∨ i = zoneDma32 ∨ i = zoneNormal := by decide
      obtain ⟨h₁, h₂, h₃⟩ := hno
      intro i
      rcases hcases i with rfl | rfl | rfl
      · exact Option.isNone_iff_eq_none.mp h₁
      · exact Option.isNone_iff_eq_none.mp h₂
      · exact Option.isNone_iff_eq_none.mp h₃
    obtain ⟨hi₄, ha₄⟩ := onlyZone_spec hnone baseAddr totalSize
    exact ⟨⟨⟨hi₄.apart, hi₄.zoneIdx⟩, hi₄.closed⟩, ha₄, rfl⟩
  · exact ⟨⟨⟨hi₃.apart, hi₃.zoneIdx⟩, hi₃.closed⟩, ha₃, rfl⟩

end

/-! ## Runs -/

/-- The system is in order, and the live and the returned pages are those of their zones. -/
structure UsageInv (x : Usage) : Prop where
  system : SystemInv x.sys
  initialized : x.sys.initialized = true
  live : ∀ a ∈ x.live, Owned x.sys a.1 a.2.1
  returned : ∀ a ∈ x.returned, Owned x.sys a.1 a.2

section

variable {x y : Usage} {a : ZoneIdx × Block} {order : ℕ} {is : List ZoneIdx}

theorem UsageInv.allocated (h : UsageInv x) :
    UsageInv (x.allocated order (tryZones order is x.sys)) := by
  obtain ⟨hstep, hown⟩ := tryZones_step order is x.sys h.system
  generalize tryZones order is x.sys = r at hstep hown ⊢
  have hlive : ∀ b ∈ x.live, Owned r.2 b.1 b.2.1 := fun b hb => hstep.owned _ _ (h.live b hb)
  have hret : ∀ b ∈ x.returned, Owned r.2 b.1 b.2 := fun b hb => hstep.owned _ _ (h.returned b hb)
  have hinit := hstep.initialized.trans h.initialized
  obtain ⟨_ | ⟨i, p⟩, sys⟩ := r
  · exact ⟨hstep.inv, hinit, hlive, hret⟩
  · have hp := hown i p rfl
    exact ⟨hstep.inv, hinit, List.forall_mem_cons.mpr ⟨hp, hlive⟩,
      List.forall_mem_cons.mpr ⟨hp, hret⟩⟩

theorem UsageInv.freed {sys : System} (h : UsageInv x) (hstep : SystemStep x.sys sys)
    (hst : x.freed a sys = some y) : UsageInv y := by
  unfold Usage.freed at hst
  split_ifs at hst
  obtain rfl := Option.some.inj hst
  exact ⟨hstep.inv, hstep.initialized.trans h.initialized,
    fun b hb => hstep.owned _ _ (h.live b (List.mem_of_mem_erase hb)),
    fun b hb => hstep.owned _ _ (h.returned b hb)⟩

theorem AllOk.allocated (h : UsageInv x) (ha : AllOk x.sys x.live) (hok : TryOk x.sys order is) :
    AllOk (x.allocated order (tryZones order is x.sys)).sys
      (x.allocated order (tryZones order is x.sys)).live := by
  rcases tryZones_allOk h.system ha is hok with hn | ⟨i, p, sys, hr, ha'⟩
  · rw [hn]
    exact ha
  · rw [hr]
    exact ha'

theorem mem_of_freed {sys : System} (hst : x.freed a sys = some y) :
    a ∈ x.live ∧ y.sys = sys ∧ y.live = x.live.erase a := by
  unfold Usage.freed at hst
  split_ifs at hst with hmem
  obtain rfl := Option.some.inj hst
  exact ⟨hmem, rfl, rfl⟩

/-- Every call that frees into the right zone keeps the pages of the zones apart. -/
theorem UsageInv.step {op : ZonesOp} (h : UsageInv x) (hok : Routed x op)
    (hst : zonesStep x op = some y) : UsageInv y := by
  unfold zonesStep at hst
  cases op with
  | allocPagesZone order zoneHint =>
    obtain rfl := Option.some.inj hst
    unfold allocPagesZone
    rw [if_pos h.initialized]
    exact h.allocated
  | allocPages order =>
    obtain rfl := Option.some.inj hst
    unfold allocPages allocPagesZone
    rw [if_pos h.initialized, if_pos h.initialized]
    exact h.allocated
  | allocPagesDma order =>
    obtain rfl := Option.some.inj hst
    unfold allocPagesDma allocPagesZone
    rw [if_pos h.initialized]
    exact h.allocated
  | freePages a =>
    have hown := h.live a (mem_of_freed hst).1
    exact h.freed (h.system.freePages_step h.initialized hown hok) hst
  | freePagesVirt a =>
    have hown := h.live a (mem_of_freed hst).1
    have hfree := h.system.freePages_step h.initialized hown hok.2
    obtain ⟨z, hz, hp⟩ := hown
    refine h.freed ?_ hst
    rcases h.system.freePagesVirt h.initialized hz hp hok.1 with heq | ⟨heq, -⟩ <;> rw [heq]
    · exact hfree
    · exact .refl h.system

theorem AllOk.step {op : ZonesOp} (h : UsageInv x) (ha : AllOk x.sys x.live)
    (hok : ZonesOpOk x op) (hst : zonesStep x op = some y) : AllOk y.sys y.live := by
  unfold zonesStep at hst
  cases op with
  | allocPagesZone order zoneHint =>
    obtain rfl := Option.some.inj hst
    unfold allocPagesZone
    rw [if_pos h.initialized]
    exact AllOk.allocated h ha hok
  | allocPages order =>
    obtain rfl := Option.some.inj hst
    unfold allocPages allocPagesZone
    rw [if_pos h.initialized, if_pos h.initialized]
    exact AllOk.allocated h ha hok
  | allocPagesDma order =>
    obtain rfl := Option.some.inj hst
    unfold allocPagesDma allocPagesZone
    rw [if_pos h.initialized]
    exact AllOk.allocated h ha hok
  | freePages a =>
    obtain ⟨hmem, hsys, hlive⟩ := mem_of_freed hst
    obtain ⟨z, hz, hp⟩ := h.live a hmem
    rw [hsys, hlive]
    exact ha.freePages h.system h.initialized hmem hz hp hok.1 (hok.2 z hz)
  | freePagesVirt a =>
    obtain ⟨hmem, hsys, hlive⟩ := mem_of_freed hst
    obtain ⟨z, hz, hp⟩ := h.live a hmem
    have hgt := (ha a.1 z hz).live_gt (mem_liveIn.mpr hmem)
    rw [hsys, hlive]
    rcases h.system.freePagesVirt h.initialized hz hp hok.1 with heq | ⟨-, heq⟩
    · rw [heq]
      exact ha.freePages h.system h.initialized hmem hz hp hok.2.1 (hok.2.2 z hz)
    · exact absurd heq (Nat.ne_of_gt hgt)

theorem UsageInv.pagesInZones (h : UsageInv x) : PagesInZones x := by
  refine ⟨fun i z hz k p hon => ?_, fun a ha => ?_⟩
  · have hc := h.system.closed i z hz
    exact hc.reaches (hc.heads k) hon.2
  · obtain ⟨z, hz, hp⟩ := h.returned a ha
    exact ⟨z, hz, hp⟩

theorem AllOk.usedPagesOk (ha : AllOk x.sys x.live) : UsedPagesOk x := by
  intro i z hz
  obtain ⟨_, _, _, _, _, hok⟩ := ha i z hz
  exact hok.used

end

theorem ZonesOpOk.routed {x : Usage} {op : ZonesOp} (h : ZonesOpOk x op) : Routed x op := by
  cases op with
  | freePages a => exact h.1
  | freePagesVirt a => exact ⟨h.1, h.2.1⟩
  | _ => exact trivial

/-- The system after `buddy_global_init`, before any allocation. -/
def startUsage (heap : Heap) (baseAddr totalSize : UInt64) : Usage :=
  ⟨buddyGlobalInit (bootSystem heap) baseAddr totalSize, [], []⟩

/-- Over every run that frees pages of zone 0 only, or has no zone 0, the zones keep to their own
pages; if the calls also split and merge well, `used_pages` is right. -/
theorem zones_keep_their_pages (heap : Heap) (baseAddr totalSize : UInt64) :
    (∀ x, Reach zonesStep Routed (startUsage heap baseAddr totalSize) x → PagesInZones x) ∧
      ∀ x, Reach zonesStep ZonesOpOk (startUsage heap baseAddr totalSize) x →
        PagesInZones x ∧ UsedPagesOk x := by
  obtain ⟨hinv, hall, hinit⟩ := buddyGlobalInit_spec heap baseAddr totalSize
  have hstart : UsageInv (startUsage heap baseAddr totalSize) :=
    ⟨hinv, hinit, fun _ ha => absurd ha (by simp [startUsage]),
      fun _ ha => absurd ha (by simp [startUsage])⟩
  refine ⟨fun x hx => ?_, fun x hx => ?_⟩
  · exact (hx.invariant hstart fun _ _ _ h hok hst => h.step hok hst).pagesInZones
  · have h : UsageInv x ∧ AllOk x.sys x.live := by
      refine Reach.invariant (I := fun x => UsageInv x ∧ AllOk x.sys x.live) ⟨hstart, hall⟩ ?_ hx
      rintro y op z ⟨hy, ha⟩ hok hst
      exact ⟨hy.step hok.routed hst, AllOk.step hy ha hok hst⟩
    exact ⟨h.1.pagesInZones, h.2.usedPagesOk⟩

theorem zones_keep_their_pages_dma_page :
    let x := startUsage blankHeap 0xFFE000 0x1000000
    PagesInZones (x.allocated 0 (allocPagesDma x.sys 0)) ∧
      UsedPagesOk (x.allocated 0 (allocPagesDma x.sys 0)) := by
  refine (zones_keep_their_pages blankHeap 0xFFE000 0x1000000).2 _
    (.step (.allocPagesDma 0) .start ?_ rfl)
  have hfind : ((startUsage blankHeap 0xFFE000 0x1000000).sys.zones zoneDma).map
      (fun z => findOrder ⟨(startUsage blankHeap 0xFFE000 0x1000000).sys.heap, z⟩ 0) =
        some (some 0) := by
    decide +kernel
  have horder : tryOrder 0 = [zoneDma, zoneNormal, zoneDma32] := by decide
  unfold ZonesOpOk
  dsimp only
  rw [horder]
  generalize (startUsage blankHeap 0xFFE000 0x1000000).sys = sys at hfind ⊢
  unfold TryOk
  cases hz : sys.zones zoneDma with
  | none => simp [hz] at hfind
  | some z =>
    rw [hz] at hfind
    have hfind : findOrder ⟨sys.heap, z⟩ 0 = some 0 := Option.some.inj hfind
    refine Or.inr ⟨by rw [hfind]; simp, fun c p hf _ k _ hk => ?_⟩
    obtain rfl := Option.some.inj (hf.symm.trans hfind)
    exact absurd hk (Nat.not_lt_zero k)

theorem zonesStep_freePages {x : Usage} {a : ZoneIdx × Block} (h : a ∈ x.live) :
    zonesStep x (.freePages a) =
      some { x with sys := freePages x.sys a.2.1, live := x.live.erase a } := if_pos h

/-- The page 4097 above 16 MiB is freed into the DMA zone, which ends at page 4096. -/
theorem free_pages_into_dma :
    ¬ ∀ (heap : Heap) (baseAddr totalSize : UInt64) (x : Usage),
      Reach zonesStep (fun _ _ => True) (startUsage heap baseAddr totalSize) x →
      PagesInZones x ∧ UsedPagesOk x := by
  intro h
  have hmem : (zoneDma32, 4097, 0) ∈ ((startUsage blankHeap 0xFFF000 0x1002000).allocated 0
      (allocPages (startUsage blankHeap 0xFFF000 0x1002000).sys 0)).live := by
    decide +kernel
  have hdma : ((freePages ((startUsage blankHeap 0xFFF000 0x1002000).allocated 0
      (allocPages (startUsage blankHeap 0xFFF000 0x1002000).sys 0)).sys 4097).zones zoneDma).map
        (fun z => (z.freeList 0, z.endPfn)) = some (some 4097, 4096) := by
    decide +kernel
  have hx := h blankHeap 0xFFF000 0x1002000
  generalize startUsage blankHeap 0xFFF000 0x1002000 = x at hmem hdma hx
  have halloc : zonesStep x (.allocPages 0) = some (x.allocated 0 (allocPages x.sys 0)) := rfl
  generalize x.allocated 0 (allocPages x.sys 0) = y at hmem hdma halloc
  have hrun := hx _ (.step (.freePages (zoneDma32, 4097, 0))
    (.step (.allocPages 0) .start trivial halloc) trivial (zonesStep_freePages hmem))
  obtain ⟨z, hz, hpair⟩ := Option.map_eq_some_iff.mp hdma
  obtain ⟨hhead, hend⟩ := Prod.mk.inj hpair
  have hon : OnList ⟨(freePages y.sys 4097).heap, z⟩ 0 4097 := by
    refine ⟨Nat.zero_le _, ?_⟩
    dsimp only
    rw [hhead]
    exact .here 4097
  have hlt := (hrun.1.onList zoneDma z hz 0 4097 hon).2
  omega

end Buddy
