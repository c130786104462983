import Kenux.Buddy.Proofs.Lists
import Kenux.Lib.Blocks

/-!
# The blocks of a zone

`Core` says that the free lists of a zone are well formed and that the blocks on them, together with
some blocks `E` held outside, tile a part of the zone. A block taken from a list becomes held, and a
held block may be halved, joined with a neighbour, lost, or put on a list. What the operations of the
allocator do to the zone is composed of these steps.
-/

namespace Buddy

open DList Blocks
open Function (update_self update_of_ne update_idem update_eq_self)

/-- The blocks on the free lists. -/
def freeBlocks (L : ℕ → List ℕ) : List Block :=
  (List.range (maxOrder + 1)).flatMap fun k => (L k).map fun p => (p, k)

theorem mem_freeBlocks {L : ℕ → List ℕ} {b : Block} :
    b ∈ freeBlocks L ↔ b.2 ≤ maxOrder ∧ b.1 ∈ L b.2 := by
  unfold freeBlocks
  simp only [List.mem_flatMap, List.mem_range, List.mem_map]
  constructor
  · rintro ⟨k, hk, p, hp, rfl⟩
    exact ⟨by omega, hp⟩
  · rintro ⟨hk, hp⟩
    exact ⟨b.2, by omega, b.1, hp, rfl⟩

/-- A page taken off its list takes its block off the blocks. -/
theorem freeBlocks_perm {L : ℕ → List ℕ} {c p : ℕ} {l : List ℕ} (hc : c ≤ maxOrder)
    (h : (L c).Perm (p :: l)) :
    (freeBlocks L).Perm ((p, c) :: freeBlocks (Function.update L c l)) := by
  have key : ∀ ks : List ℕ, ks.Nodup → c ∈ ks →
      (ks.flatMap fun k => (L k).map fun p => (p, k)).Perm
        ((p, c) :: ks.flatMap fun k => (Function.update L c l k).map fun p => (p, k)) := by
    intro ks
    induction ks with
    | nil => exact fun _ hmem => absurd hmem (by simp)
    | cons k ks ih =>
      intro hnd hmem
      obtain ⟨hk, hnd⟩ := List.nodup_cons.mp hnd
      simp only [List.flatMap_cons]
      by_cases hck : c = k
      · subst hck
        have hrest : (ks.flatMap fun k => (Function.update L c l k).map fun p => (p, k)) =
            ks.flatMap fun k => (L k).map fun p => (p, k) := by
          refine List.flatMap_congr fun k hk' => ?_
          rw [update_of_ne (by rintro rfl; exact hk hk')]
        rw [hrest, update_self]
        exact (h.map fun p => (p, c)).append_right _
      · rw [update_of_ne (Ne.symm hck)]
        refine ((ih hnd ?_).append_left _).trans List.perm_middle
        exact (List.mem_cons.mp hmem).resolve_left hck
  exact key _ List.nodup_range (List.mem_range.mpr (by omega))

/-- The free lists are well formed, their blocks and the blocks `E` tile a part of `[lo, hi)`, and
cover `m` pages. -/
structure Core (s : State) (L : ℕ → List ℕ) (E : List Block) (base lo hi m : ℕ) : Prop where
  base_eq : s.zone.basePfn = base
  end_eq : s.zone.endPfn = hi
  base_le : base ≤ lo
  small : hi < 2 ^ 64
  lists : ∀ k ≤ maxOrder, IsDList s.next s.prev (s.zone.freeList k) (L k)
  count : ∀ k ≤ maxOrder, (s.zone.freeCount k).toNat = (L k).length
  data : ∀ k ≤ maxOrder, ∀ p ∈ L k,
    (s.heap p).order = k ∧ (s.heap p).used = false ∧ (s.heap p).reserved = false
  tiling : Tiling lo hi (E ++ freeBlocks L)
  mass : total (E ++ freeBlocks L) = m

section

variable {s s' : State} {L L' : ℕ → List ℕ} {E E' : List Block} {base lo hi m p q k : ℕ}

theorem Core.block_disj (h : Core s L E base lo hi m) {b c : Block} (hb : b ∈ E ++ freeBlocks L)
    (hc : c ∈ E ++ freeBlocks L) (hne : b ≠ c) : Disj b c :=
  h.tiling.sep.forall hb hc hne

/-- A page is on one list at most. -/
theorem Core.order_unique (h : Core s L E base lo hi m) {j : ℕ} (hk : k ≤ maxOrder)
    (hj : j ≤ maxOrder) (hp : p ∈ L k) (hp' : p ∈ L j) : k = j := by
  by_contra hne
  have hd := h.block_disj (b := (p, k)) (c := (p, j))
    (List.mem_append_right _ (mem_freeBlocks.mpr ⟨hk, hp⟩))
    (List.mem_append_right _ (mem_freeBlocks.mpr ⟨hj, hp'⟩)) (by simpa using hne)
  exact hd.ne rfl

/-- The first page of a held block is on no list. -/
theorem Core.held_not_mem (h : Core s L E base lo hi m) {b : Block} (hb : b ∈ E)
    (hk : k ≤ maxOrder) : b.1 ∉ L k := by
  intro hp
  have hsep := List.pairwise_append.mp h.tiling.sep
  exact (hsep.2.2 b hb (b.1, k) (mem_freeBlocks.mpr ⟨hk, hp⟩)).ne rfl

theorem Core.length_lt (h : Core s L E base lo hi m) (hk : k ≤ maxOrder) :
    (L k).length + E.length ≤ hi - lo := by
  have hsum : (L k).length ≤ (freeBlocks L).length := by
    have hsub : ((L k).map fun p => (p, k)).Sublist (freeBlocks L) := by
      refine List.sublist_flatten_of_mem ?_
      exact List.mem_map_of_mem (List.mem_range.mpr (by omega))
    simpa using hsub.length_le
  have hle := length_le_total (E ++ freeBlocks L)
  have htot := h.tiling.total_le
  rw [List.length_append] at hle
  omega

theorem Core.inFreelist_iff (h : Core s L E base lo hi m) (hk : k ≤ maxOrder) :
    inFreelist s k q = true ↔ q ∈ L k := by
  refine (h.lists k hk).find_iff ?_
  have := h.length_lt hk
  have := h.base_le
  unfold Zone.span
  rw [h.base_eq, h.end_eq]
  omega

/-! ## Steps -/

/-- Only what `Core` looks at has to stay. -/
theorem Core.congr (h : Core s L E base lo hi m)
    (hlist : s'.zone.freeList = s.zone.freeList) (hcount : s'.zone.freeCount = s.zone.freeCount)
    (hbase : s'.zone.basePfn = s.zone.basePfn) (hend : s'.zone.endPfn = s.zone.endPfn)
    (hpage : ∀ k ≤ maxOrder, ∀ p ∈ L k, s'.heap p = s.heap p) : Core s' L E base lo hi m where
  base_eq := hbase.trans h.base_eq
  end_eq := hend.trans h.end_eq
  base_le := h.base_le
  small := h.small
  lists k hk := by
    rw [hlist]
    refine (h.lists k hk).congr (fun y hy => ?_) fun y hy => ?_
    · unfold State.next
      rw [hpage k hk y hy]
    · unfold State.prev
      rw [hpage k hk y hy]
  count k hk := by
    rw [hcount]
    exact h.count k hk
  data k hk p hp := by
    rw [hpage k hk p hp]
    exact h.data k hk p hp
  tiling := h.tiling
  mass := h.mass

/-- A page that starts a held block may be written to. -/
theorem Core.modify (h : Core s L E base lo hi m) {b : Block} (hb : b ∈ E) (f : Page → Page) :
    Core (s.modify b.1 f) L E base lo hi m := by
  refine h.congr rfl rfl rfl rfl fun k hk p hp => ?_
  rw [modify_heap, if_neg]
  rintro rfl
  exact h.held_not_mem hb hk hp

theorem Core.perm (h : Core s L E base lo hi m) (hp : E.Perm E') : Core s L E' base lo hi m :=
  { h with
    tiling := h.tiling.perm (hp.append_right _)
    mass := (total_perm (hp.symm.append_right _)).trans h.mass }

theorem Core.split (h : Core s L ((p, k + 1) :: E) base lo hi m) :
    Core s L ((p, k) :: (p + 2 ^ k, k) :: E) base lo hi m :=
  { h with
    tiling := h.tiling.split
    mass := total_split.trans h.mass }

theorem Core.merge (h : Core s L ((p, k) :: (p + 2 ^ k, k) :: E) base lo hi m) :
    Core s L ((p, k + 1) :: E) base lo hi m :=
  { h with
    tiling := h.tiling.merge
    mass := total_split.symm.trans h.mass }

theorem Core.drop {b : Block} (h : Core s L (b :: E) base lo hi m) :
    Core s L E base lo hi (m - size b) :=
  { h with
    tiling := h.tiling.tail
    mass := by
      have := h.mass
      rw [List.cons_append, total_cons] at this
      omega }

/-- What `free_count` loses when a page leaves a list. -/
theorem count_sub {c : UInt64} {n : ℕ} (h : c.toNat = n + 1) : (c - 1).toNat = n := by
  rw [UInt64.toNat_sub_of_le _ _ (by rw [UInt64.le_iff_toNat_le, h]; exact Nat.le_add_left _ _), h]
  rfl

theorem count_add {c : UInt64} {n : ℕ} (h : c.toNat = n) (hn : n + 1 < 2 ^ 64) :
    (c + 1).toNat = n + 1 := by
  rw [UInt64.toNat_add, h]
  exact Nat.mod_eq_of_lt hn

theorem Core.pop {l : List ℕ} (h : Core s L E base lo hi m) (hk : k ≤ maxOrder)
    (hl : L k = p :: l) :
    Core (listPop s k).2 (Function.update L k l) ((p, k) :: E) base lo hi m := by
  have hlist := h.lists k hk
  rw [hl] at hlist
  have hhead : s.zone.freeList k = some p := hlist.head_eq
  have hnext : s.next p = l.head? := hlist.linked.2.1
  have hzone := listPop_zone hhead
  have hperm : (E ++ freeBlocks L).Perm
      ((p, k) :: E ++ freeBlocks (Function.update L k l)) :=
    ((freeBlocks_perm hk (by rw [hl])).append_left E).trans List.perm_middle
  have hmem : ∀ j, ∀ y ∈ Function.update L k l j, y ∈ L j := by
    intro j y hy
    by_cases hj : j = k
    · subst hj
      rw [update_self] at hy
      rw [hl]
      exact List.mem_cons_of_mem _ hy
    · rwa [update_of_ne hj] at hy
  refine ⟨?_, ?_, h.base_le, h.small, fun j hj => ?_, fun j hj => ?_, fun j hj y hy => ?_,
    h.tiling.perm hperm, (total_perm hperm).symm.trans h.mass⟩
  · rw [hzone]
    exact h.base_eq
  · rw [hzone]
    exact h.end_eq
  · rw [hzone]
    change IsDList _ _ (Function.update s.zone.freeList k (s.next p) j) _
    by_cases hjk : j = k
    · subst hjk
      rw [update_self, update_self]
      have hp : p ∉ l := (List.nodup_cons.mp hlist.nodup).1
      refine hlist.pop (fun y hy => ?_) fun y hy => ?_
      · rw [listPop_next hhead, if_neg (by rintro rfl; exact hp hy)]
      · rw [listPop_prev hhead, if_neg (by rintro rfl; exact hp hy)]
    · rw [update_of_ne hjk, update_of_ne hjk]
      have hother : ∀ y ∈ L j, y ∉ L k := fun y hy hy' => hjk (h.order_unique hj hk hy hy')
      refine (h.lists j hj).congr (fun y hy => ?_) fun y hy => ?_
      · rw [listPop_next hhead, if_neg]
        rintro rfl
        exact hother y hy (by simp [hl])
      · rw [listPop_prev hhead, if_neg, if_neg]
        · rw [hnext]
          intro hc
          exact hother y hy (by simp [hl, List.mem_of_mem_head? hc])
        · rintro rfl
          exact hother y hy (by simp [hl])
  · rw [hzone]
    change (Function.update s.zone.freeCount k _ j).toNat = _
    by_cases hjk : j = k
    · subst hjk
      rw [update_self, update_self]
      exact count_sub (by rw [h.count j hj, hl]; rfl)
    · rw [update_of_ne hjk, update_of_ne hjk]
      exact h.count j hj
  · have hd : (listPop s k).2.data y = s.data y := listPop_data hhead
    obtain ⟨h1, h2, h3⟩ := h.data j hj y (hmem j y hy)
    exact ⟨(order_of_data hd).trans h1, (used_of_data hd).trans h2, (reserved_of_data hd).trans h3⟩

theorem Core.push (h : Core s L ((p, k) :: E) base lo hi m) (hk : k ≤ maxOrder)
    (hd : (s.heap p).order = k ∧ (s.heap p).used = false ∧ (s.heap p).reserved = false) :
    Core (listAdd s k p) (Function.update L k (p :: L k)) E base lo hi m := by
  have hp : ∀ j ≤ maxOrder, p ∉ L j := fun j hj => h.held_not_mem (b := (p, k)) (by simp) hj
  have hheadMem : ∀ y, s.zone.freeList k = some y → y ∈ L k := fun y hy =>
    List.mem_of_mem_head? ((h.lists k hk).head_eq.symm.trans hy)
  have hhead : s.zone.freeList k ≠ some p := fun hc => hp k hk (hheadMem p hc)
  have hzone := listAdd_zone (s := s) (k := k) (p := p)
  have hperm : ((p, k) :: E ++ freeBlocks L).Perm
      (E ++ freeBlocks (Function.update L k (p :: L k))) := by
    have hback := freeBlocks_perm (L := Function.update L k (p :: L k)) (c := k) (p := p) (l := L k)
      hk (by rw [update_self])
    rw [update_idem, update_eq_self] at hback
    exact List.perm_middle.symm.trans (hback.symm.append_left E)
  refine ⟨?_, ?_, h.base_le, h.small, fun j hj => ?_, fun j hj => ?_, fun j hj y hy => ?_,
    h.tiling.perm hperm, (total_perm hperm).symm.trans h.mass⟩
  · rw [hzone]
    exact h.base_eq
  · rw [hzone]
    exact h.end_eq
  · rw [hzone]
    change IsDList _ _ (Function.update s.zone.freeList k (some p) j) _
    by_cases hjk : j = k
    · subst hjk
      rw [update_self, update_self]
      refine (h.lists j hj).push (hp j hj) ?_ ?_ (fun y hy => ?_) fun y hy => ?_
      · rw [listAdd_next, if_pos rfl]
      · rw [listAdd_prev hhead, if_pos rfl]
      · rw [listAdd_next, if_neg (by rintro rfl; exact hp j hj hy)]
      · rw [listAdd_prev hhead, if_neg (by rintro rfl; exact hp j hj hy)]
    · rw [update_of_ne hjk, update_of_ne hjk]
      refine (h.lists j hj).congr (fun y hy => ?_) fun y hy => ?_
      · rw [listAdd_next, if_neg (by rintro rfl; exact hp j hj hy)]
      · rw [listAdd_prev hhead, if_neg (by rintro rfl; exact hp j hj hy), if_neg]
        exact fun hc => hjk (h.order_unique hj hk hy (hheadMem y hc))
  · rw [hzone]
    change (Function.update s.zone.freeCount k _ j).toNat = _
    by_cases hjk : j = k
    · subst hjk
      rw [update_self, update_self]
      have hlen := h.length_lt hj
      have hsmall := h.small
      rw [List.length_cons] at hlen
      exact count_add (h.count j hj) (by omega)
    · rw [update_of_ne hjk, update_of_ne hjk]
      exact h.count j hj
  · have hdata : (listAdd s k p).data y = s.data y := listAdd_data
    have hy' : (s.heap y).order = j ∧ (s.heap y).used = false ∧ (s.heap y).reserved = false := by
      by_cases hjk : j = k
      · subst hjk
        rw [update_self] at hy
        rcases List.mem_cons.mp hy with rfl | hy
        · exact hd
        · exact h.data j hj y hy
      · rw [update_of_ne hjk] at hy
        exact h.data j hj y hy
    exact ⟨(order_of_data hdata).trans hy'.1, (used_of_data hdata).trans hy'.2.1,
      (reserved_of_data hdata).trans hy'.2.2⟩

theorem dropCount_zone {n : UInt64} : (s.dropCount k n).zone =
    { s.zone with freeCount := Function.update s.zone.freeCount k (s.zone.freeCount k - n) } := by
  unfold State.dropCount State.setList
  simp only [update_eq_self]

/-- A page that is not the first of its list is unlinked. -/
theorem Core.unlink (h : Core s L E base lo hi m) (hk : k ≤ maxOrder) (hq : q ∈ L k)
    (hhead : s.zone.freeList k ≠ some q) :
    ∃ l, (L k).Perm (q :: l) ∧
      Core ((listDel s q).dropCount k 1) (Function.update L k l) ((q, k) :: E) base lo hi m := by
  obtain ⟨l₁, l₂, hl⟩ := List.append_of_mem hq
  have hlist := h.lists k hk
  rw [hl] at hlist
  have hne : l₁ ≠ [] := by
    rintro rfl
    exact hhead hlist.head_eq
  obtain ⟨hnext, hprev⟩ := hlist.linked.neighbours
  have hlperm : (L k).Perm (q :: (l₁ ++ l₂)) := by
    rw [hl]
    exact List.perm_middle
  have hmemq : ∀ y ∈ l₁ ++ l₂, y ∈ L k := fun y hy => hlperm.mem_iff.mpr (List.mem_cons_of_mem q hy)
  have hnotq : ∀ y ∈ l₁ ++ l₂, y ≠ q := by
    rintro y hy rfl
    have hnd := hlperm.nodup_iff.mp (h.lists k hk).nodup
    exact (List.nodup_cons.mp hnd).1 hy
  have hself : s.prev q ≠ some q := by
    rw [hprev, Option.or_none]
    intro hc
    exact hnotq q (List.mem_append_left _ (List.mem_of_getLast? hc)) rfl
  -- the neighbours are on the same list
  have hnextMem : ∀ y, s.next q = some y → y ∈ L k := fun y hy =>
    hmemq y (List.mem_append_right _ (List.mem_of_mem_head? (hnext.symm.trans hy)))
  have hprevMem : ∀ y, s.prev q = some y → y ∈ L k := by
    intro y hy
    rw [hprev, Option.or_none] at hy
    exact hmemq y (List.mem_append_left _ (List.mem_of_getLast? hy))
  have hzone : ((listDel s q).dropCount k 1).zone =
      { s.zone with freeCount := Function.update s.zone.freeCount k (s.zone.freeCount k - 1) } := by
    rw [dropCount_zone, listDel_zone]
  have hperm : (E ++ freeBlocks L).Perm
      ((q, k) :: E ++ freeBlocks (Function.update L k (l₁ ++ l₂))) :=
    ((freeBlocks_perm hk hlperm).append_left E).trans List.perm_middle
  have hmem : ∀ j, ∀ y ∈ Function.update L k (l₁ ++ l₂) j, y ∈ L j := by
    intro j y hy
    by_cases hj : j = k
    · subst hj
      rw [update_self] at hy
      exact hmemq y hy
    · rwa [update_of_ne hj] at hy
  refine ⟨l₁ ++ l₂, hlperm, ?_, ?_, h.base_le, h.small, fun j hj => ?_, fun j hj => ?_,
    fun j hj y hy => ?_, h.tiling.perm hperm, (total_perm hperm).symm.trans h.mass⟩
  · rw [hzone]
    exact h.base_eq
  · rw [hzone]
    exact h.end_eq
  · rw [hzone]
    change IsDList (listDel s q).next (listDel s q).prev (s.zone.freeList j) _
    by_cases hjk : j = k
    · subst hjk
      rw [update_self]
      refine hlist.unlink hne (fun y hy => ?_) fun y hy => ?_
      · rw [listDel_next, if_neg (hnotq y hy)]
      · rw [listDel_prev hself, if_neg (hnotq y hy)]
    · rw [update_of_ne hjk]
      have hother : ∀ y ∈ L j, y ∉ L k := fun y hy hy' => hjk (h.order_unique hj hk hy hy')
      refine (h.lists j hj).congr (fun y hy => ?_) fun y hy => ?_
      · rw [listDel_next, if_neg, if_neg]
        · exact fun hc => hother y hy (hprevMem y hc)
        · rintro rfl
          exact hother y hy hq
      · rw [listDel_prev hself, if_neg, if_neg]
        · exact fun hc => hother y hy (hnextMem y hc)
        · rintro rfl
          exact hother y hy hq
  · rw [hzone]
    change (Function.update s.zone.freeCount k _ j).toNat = _
    by_cases hjk : j = k
    · subst hjk
      rw [update_self, update_self]
      exact count_sub (by rw [h.count j hj, hlperm.length_eq]; rfl)
    · rw [update_of_ne hjk, update_of_ne hjk]
      exact h.count j hj
  · have hd : ((listDel s q).dropCount k 1).data y = s.data y := listDel_data
    obtain ⟨h1, h2, h3⟩ := h.data j hj y (hmem j y hy)
    exact ⟨(order_of_data hd).trans h1, (used_of_data hd).trans h2, (reserved_of_data hd).trans h3⟩

end

end Buddy
