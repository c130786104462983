import Kenux.Lib.Run
import Mathlib.Data.List.Range
import Mathlib.Data.UInt

/-!
# Memory pools of the kernel API (`api/kapi_mempool.c`)

The elements that `alloc_fn` returns are numbered from 1 on in their order; 0 is `NULL`. A pool is kept together with
what has become of its elements.
-/

namespace Mempool

open Run

/-- `kapi_mempool_t`; `next` elements were obtained, `out` are handed out, and `freed` went to `free_fn`. -/
structure Pool where
  freeList : ℕ → ℕ
  minNr : ℕ
  maxNr : ℕ
  currNr : ℕ
  freeCount : ℕ
  valid : Bool
  next : ℕ
  out : List ℕ
  freed : List ℕ

/-- `free_list[i] = alloc_fn(...)` -/
def Pool.fillSlot (p : Pool) (i : ℕ) : Pool :=
  { p with freeList := Function.update p.freeList i (p.next + 1), next := p.next + 1 }

/-- What stands in the first slots. -/
def Pool.slots (p : Pool) (n : ℕ) : List ℕ := (List.range n).map p.freeList

/-- The loop of `kapi_mempool_create` with `k` elements to come; `allocs` tells which calls of `alloc_fn` succeed. -/
def createLoop (allocs : ℕ → Bool) : ℕ → ℕ → Pool → Pool
  | 0, i, p => { p with currNr := i, freeCount := i, valid := true }
  | k + 1, i, p =>
    if allocs i then createLoop allocs k (i + 1) (p.fillSlot i) else { p with freed := p.freed ++ p.slots i }

/-- `kapi_mempool_create`; `memory` is what the array for the list holds before. A pool that is not valid is `NULL`. -/
def kapiMempoolCreate (memory : ℕ → ℕ) (elementSize minNr maxNr : ℕ) (allocs : ℕ → Bool) : Pool :=
  if elementSize = 0 ∨ minNr = 0 ∨ maxNr < minNr then ⟨memory, 0, 0, 0, 0, false, 0, [], []⟩
  else createLoop allocs minNr 0 ⟨memory, minNr, maxNr, 0, 0, false, 0, [], []⟩

def kapiMempoolDestroy (p : Pool) : Pool :=
  if ¬p.valid then p else { p with freed := p.freed ++ (p.slots p.currNr).filter (· ≠ 0), valid := false }

/-- `kapi_mempool_alloc`; what it returns is handed out. -/
def kapiMempoolAlloc (p : Pool) (allocates : Bool) : Pool :=
  if ¬p.valid then p
  else if p.freeCount > 0 then
    { p with freeCount := p.freeCount - 1, out := p.freeList (p.freeCount - 1) :: p.out }
  else if p.currNr ≥ p.maxNr then p
  else if ¬allocates then p
  else { p with currNr := p.currNr + 1, next := p.next + 1, out := (p.next + 1) :: p.out }

def kapiMempoolFree (p : Pool) (element : ℕ) : Pool :=
  if ¬p.valid then p
  else
    let p := { p with out := p.out.erase element }
    if p.freeCount < p.maxNr then
      { p with freeList := Function.update p.freeList p.freeCount element, freeCount := p.freeCount + 1 }
    else if p.currNr > p.minNr then { p with freed := p.freed ++ [element], currNr := p.currNr - 1 }
    else { p with freeList := Function.update p.freeList (p.freeCount - 1) element }

/-- The first loop of `kapi_mempool_resize`, with `k` elements to come; `false` is a failed allocation. -/
def growLoop (allocs : ℕ → Bool) : ℕ → ℕ → Pool → Pool × Bool
  | 0, _, p => (p, true)
  | k + 1, i, p =>
    if allocs i then growLoop allocs k (i + 1) { p.fillSlot i with freeCount := p.freeCount + 1 } else (p, false)

/-- The second loop; the first argument is `free_count`. -/
def shrinkLoop (newMinNr : ℕ) : ℕ → Pool → Pool
  | 0, p => p
  | n + 1, p =>
    if p.currNr > newMinNr then
      shrinkLoop newMinNr n { p with freeCount := n, freed := p.freed ++ [p.freeList n], currNr := p.currNr - 1 }
    else p

def kapiMempoolResize (p : Pool) (newMinNr : ℕ) (allocs : ℕ → Bool) : Pool :=
  if ¬p.valid then p
  else if newMinNr > p.maxNr then p
  else if newMinNr > p.currNr then
    let r := growLoop allocs (newMinNr - p.currNr) p.currNr p
    if r.2 then { r.1 with currNr := newMinNr, minNr := newMinNr } else r.1
  else { shrinkLoop newMinNr p.freeCount p with minNr := newMinNr }

inductive Op where
  | alloc (allocates : Bool)
  | free (element : ℕ)
  | resize (newMinNr : ℕ) (allocs : ℕ → Bool)
  | destroy

def step (p : Pool) : Op → Option Pool
  | .alloc allocates => some (kapiMempoolAlloc p allocates)
  -- only what is handed out is given back
  | .free element => if element ∈ p.out then some (kapiMempoolFree p element) else none
  | .resize newMinNr allocs => some (kapiMempoolResize p newMinNr allocs)
  | .destroy => some (kapiMempoolDestroy p)

/-- The elements on the list. -/
def Pool.kept (p : Pool) : List ℕ := if p.valid then p.slots p.freeCount else []

/-- The counters are right, and each element that was obtained is in one place, once. -/
structure Sound (p : Pool) : Prop where
  counts : p.valid → p.currNr = p.freeCount + p.out.length ∧ p.currNr ≤ p.maxNr
  places : (p.kept ++ p.out ++ p.freed).Perm (List.range' 1 p.next)

/-- A resize fails at once or grows the pool while nothing is handed out; a pool is destroyed while the slots behind the
free ones are empty. -/
def Harmless (p : Pool) : Op → Prop
  | .resize newMinNr allocs => p.currNr < newMinNr → newMinNr ≤ p.maxNr → allocs p.currNr = false ∨
      p.out = [] ∧ ∀ i, p.currNr ≤ i → i < newMinNr → allocs i
  | .destroy => ∀ i, p.freeCount ≤ i → i < p.currNr → p.freeList i = 0
  | _ => True

variable {p q : Pool} {allocs : ℕ → Bool} {i k n newMinNr : ℕ}

/-! ## Calls -/

theorem kept_of_valid (hv : p.valid) : p.kept = p.slots p.freeCount := if_pos hv

theorem slots_succ : p.slots (n + 1) = p.slots n ++ [p.freeList n] := by
  unfold Pool.slots
  rw [List.range_succ, List.map_append, List.map_singleton]

theorem slots_congr (h : ∀ i < n, p.freeList i = q.freeList i) : p.slots n = q.slots n :=
  List.map_congr_left fun i hi => h i (List.mem_range.mp hi)

theorem fillSlot_slots : (p.fillSlot n).slots (n + 1) = p.slots n ++ [p.next + 1] := by
  have hold : (p.fillSlot n).slots n = p.slots n := slots_congr fun i hi => Function.update_of_ne (Nat.ne_of_lt hi) _ _
  rw [slots_succ, hold]
  unfold Pool.fillSlot
  dsimp only
  rw [Function.update_self]

/-- One more element in a place. -/
theorem obtain_one {places places' : List ℕ} (h : places.Perm (List.range' 1 n))
    (hadd : places'.Perm ((n + 1) :: places)) : places'.Perm (List.range' 1 (n + 1)) := by
  rw [List.range'_1_concat, Nat.add_comm 1 n]
  exact hadd.trans ((h.cons _).trans (List.perm_append_singleton _ _).symm)

theorem createLoop_sound (hplaces : (p.slots i).Perm (List.range' 1 p.next)) (hv : p.valid = false) (hout : p.out = [])
    (hfreed : p.freed = []) (hmax : i + k ≤ p.maxNr) : Sound (createLoop allocs k i p) := by
  induction k generalizing p i with
  | zero =>
    refine ⟨fun _ => ⟨?_, hmax⟩, ?_⟩
    · change i = i + p.out.length
      rw [hout]
      rfl
    · change (p.slots i ++ p.out ++ p.freed).Perm _
      rwa [hout, hfreed, List.append_nil, List.append_nil]
  | succ k ih =>
    unfold createLoop
    split_ifs
    · refine ih ?_ hv hout hfreed (by change _ ≤ p.maxNr; omega)
      rw [fillSlot_slots]
      exact obtain_one hplaces (List.perm_append_singleton _ _)
    · refine ⟨fun hvalid => absurd hvalid (by rw [hv]; decide), ?_⟩
      unfold Pool.kept
      dsimp only
      rw [hv, hout, hfreed]
      exact hplaces

theorem create_sound {memory : ℕ → ℕ} {elementSize minNr maxNr : ℕ} :
    Sound (kapiMempoolCreate memory elementSize minNr maxNr allocs) := by
  unfold kapiMempoolCreate
  split_ifs with h
  · exact ⟨nofun, .refl _⟩
  · exact createLoop_sound (.refl _) rfl rfl rfl (by change _ ≤ maxNr; omega)

theorem Sound.kapiMempoolAlloc (h : Sound p) {allocates : Bool} : Sound (kapiMempoolAlloc p allocates) := by
  unfold Mempool.kapiMempoolAlloc
  by_cases hv : p.valid
  · obtain ⟨hcurr, hmax⟩ := h.counts hv
    have hplaces := h.places
    rw [kept_of_valid hv] at hplaces
    rw [if_neg (not_not.mpr hv)]
    split_ifs with hfree hfull hfail
    · obtain ⟨n, hn⟩ := Nat.exists_eq_succ_of_ne_zero (Nat.ne_of_gt hfree)
      rw [hn, slots_succ] at hplaces
      refine ⟨fun _ => ⟨?_, hmax⟩, ?_⟩
      · dsimp only
        rw [List.length_cons]
        omega
      · rw [kept_of_valid (by exact hv)]
        dsimp only
        rw [hn, Nat.succ_sub_one]
        refine List.Perm.trans ?_ hplaces
        exact List.Perm.append_right _ (by rw [List.append_assoc, List.singleton_append]; exact .refl _)
    · exact h
    · refine ⟨fun _ => ⟨?_, by change p.currNr + 1 ≤ p.maxNr; omega⟩, ?_⟩
      · dsimp only
        rw [List.length_cons]
        omega
      · rw [kept_of_valid (by exact hv)]
        refine obtain_one hplaces ?_
        rw [List.append_assoc, List.append_assoc, List.cons_append]
        exact List.perm_middle
    · exact h
  · rwa [if_pos hv]

theorem Sound.kapiMempoolFree (h : Sound p) {e : ℕ} (he : e ∈ p.out) : Sound (kapiMempoolFree p e) := by
  unfold Mempool.kapiMempoolFree
  by_cases hv : p.valid
  · obtain ⟨hcurr, hmax⟩ := h.counts hv
    have hplaces := h.places
    have hlength := List.length_erase_of_mem he
    have hpos := List.length_pos_of_mem he
    have hroom : p.freeCount < p.maxNr := by omega
    rw [kept_of_valid hv] at hplaces
    rw [if_neg (not_not.mpr hv)]
    dsimp only
    rw [if_pos hroom]
    refine ⟨fun _ => ⟨by dsimp only; omega, hmax⟩, ?_⟩
    rw [kept_of_valid (by exact hv), slots_succ]
    dsimp only
    rw [Function.update_self]
    refine List.Perm.trans (List.Perm.append_right _ ?_) hplaces
    have hold : ({ p with freeList := Function.update p.freeList p.freeCount e } : Pool).slots p.freeCount =
        p.slots p.freeCount := slots_congr fun i hi => Function.update_of_ne (Nat.ne_of_lt hi) _ _
    rw [List.append_assoc, List.singleton_append]
    exact List.Perm.append (hold ▸ .refl _) (List.perm_cons_erase he).symm
  · rwa [if_pos hv]

theorem growLoop_places (hplaces : (p.slots i ++ p.out ++ p.freed).Perm (List.range' 1 p.next))
    (hcount : p.freeCount = i) (hall : ∀ j, i ≤ j → j < i + k → allocs j) :
    ∃ q, growLoop allocs k i p = (q, true) ∧ q.freeCount = i + k ∧ q.valid = p.valid ∧ q.maxNr = p.maxNr ∧
      q.out = p.out ∧ (q.slots (i + k) ++ q.out ++ q.freed).Perm (List.range' 1 q.next) := by
  induction k generalizing p i with
  | zero => exact ⟨p, rfl, hcount, rfl, rfl, rfl, hplaces⟩
  | succ k ih =>
    unfold growLoop
    rw [if_pos (hall i (Nat.le_refl i) (by omega))]
    obtain ⟨q, hq, hfree, hv, hmax, hout, hperm⟩ :=
      ih (p := { p.fillSlot i with freeCount := p.freeCount + 1 }) (i := i + 1) (by
        refine obtain_one hplaces ?_
        have hslots := fillSlot_slots (p := p) (n := i)
        change ((p.fillSlot i).slots (i + 1) ++ p.out ++ p.freed).Perm _
        rw [hslots, List.append_assoc, List.append_assoc, List.append_assoc]
        exact List.perm_middle) (congrArg (· + 1) hcount) fun j hj hlt => hall j (by omega) (by omega)
    rw [Nat.add_right_comm] at hfree hperm
    exact ⟨q, hq, hfree, hv, hmax, hout, hperm⟩

theorem Sound.shrinkLoop (newMinNr : ℕ) (h : Sound p) (hv : p.valid) (hn : p.freeCount = n) : Sound (shrinkLoop newMinNr n p) := by
  induction n generalizing p with
  | zero => exact h
  | succ n ih =>
    obtain ⟨hcurr, hmax⟩ := h.counts hv
    have hplaces := h.places
    rw [kept_of_valid hv, hn, slots_succ] at hplaces
    unfold Mempool.shrinkLoop
    split_ifs
    · refine ih ⟨fun _ => ⟨by dsimp only; omega, by dsimp only; omega⟩, ?_⟩ hv rfl
      rw [kept_of_valid (by exact hv)]
      refine List.Perm.trans ?_ hplaces
      apply List.perm_iff_count.mpr
      intro a
      simp only [List.count_append, Pool.slots]
      omega
    · exact h

theorem Sound.kapiMempoolResize (h : Sound p) (hok : Harmless p (.resize newMinNr allocs)) :
    Sound (kapiMempoolResize p newMinNr allocs) := by
  unfold Mempool.kapiMempoolResize
  by_cases hv : p.valid
  · obtain ⟨hcurr, hmax⟩ := h.counts hv
    have hplaces := h.places
    rw [kept_of_valid hv] at hplaces
    rw [if_neg (not_not.mpr hv)]
    split_ifs with hlarge hgrow
    · exact h
    · obtain ⟨k, hk⟩ := Nat.exists_eq_add_of_lt hgrow
      rcases hok hgrow (Nat.not_lt.mp hlarge) with hfails | ⟨hout, hall⟩
      · have hnone : growLoop allocs (newMinNr - p.currNr) p.currNr p = (p, false) := by
          rw [show newMinNr - p.currNr = k + 1 by omega, growLoop, if_neg (by rw [hfails]; decide)]
        dsimp only
        rw [hnone, if_neg Bool.false_ne_true]
        exact h
      · have hfree : p.freeCount = p.currNr := by rw [hcurr, hout]; rfl
        obtain ⟨q, hq, hcount, hqv, hqmax, hqout, hqplaces⟩ := growLoop_places (hfree ▸ hplaces) hfree
          (k := newMinNr - p.currNr) fun j hj hlt => hall j hj (by omega)
        rw [Nat.add_sub_cancel' (Nat.le_of_lt hgrow)] at hcount hqplaces
        dsimp only
        rw [hq, if_pos rfl]
        refine ⟨fun _ => ⟨?_, ?_⟩, ?_⟩
        · change newMinNr = q.freeCount + q.out.length
          rw [hcount, hqout, hout]
          rfl
        · change newMinNr ≤ q.maxNr
          rw [hqmax]
          exact Nat.not_lt.mp hlarge
        · rw [kept_of_valid (by exact hqv.trans hv)]
          change (q.slots q.freeCount ++ q.out ++ q.freed).Perm _
          rw [hcount]
          exact hqplaces
    · have hshrunk := Sound.shrinkLoop newMinNr h hv rfl
      exact ⟨hshrunk.counts, hshrunk.places⟩
  · rwa [if_pos hv]

theorem Sound.kapiMempoolDestroy (h : Sound p) (hok : Harmless p .destroy) : Sound (kapiMempoolDestroy p) := by
  unfold Mempool.kapiMempoolDestroy
  by_cases hv : p.valid
  · obtain ⟨hcurr, hmax⟩ := h.counts hv
    have hplaces := h.places
    rw [kept_of_valid hv] at hplaces
    rw [if_neg (not_not.mpr hv)]
    refine ⟨nofun, ?_⟩
    -- the slots up to `curr_nr` hold the free elements and nothing else
    have hslots : (p.slots p.currNr).filter (· ≠ 0) = p.slots p.freeCount := by
      have hsplit : p.slots p.currNr = p.slots p.freeCount ++
          (List.range p.out.length).map fun i => p.freeList (p.freeCount + i) := by
        unfold Pool.slots
        rw [hcurr, List.range_add, List.map_append, List.map_map]
        rfl
      have hempty : (((List.range p.out.length).map fun i => p.freeList (p.freeCount + i)).filter (· ≠ 0)) = [] := by
        refine List.filter_eq_nil_iff.mpr fun e he hne => of_decide_eq_true hne ?_
        obtain ⟨i, hi, rfl⟩ := List.mem_map.mp he
        have hlt := List.mem_range.mp hi
        exact hok _ (by omega) (by omega)
      have hfull : (p.slots p.freeCount).filter (· ≠ 0) = p.slots p.freeCount := by
        refine List.filter_eq_self.mpr fun e he => decide_eq_true ?_
        have hmem := hplaces.mem_iff.mp (List.mem_append_left _ (List.mem_append_left _ he))
        have hone := (List.mem_range'_1.mp hmem).1
        omega
      rw [hsplit, List.filter_append, hempty, hfull, List.append_nil]
    refine List.Perm.trans ?_ hplaces
    unfold Pool.kept
    dsimp only
    rw [hslots]
    apply List.perm_iff_count.mpr
    intro a
    simp only [List.count_append, Bool.false_eq_true, if_false, List.count_nil]
    omega
  · rwa [if_pos hv]

theorem Sound.step {op : Op} (h : Sound p) (hok : Harmless p op) (hst : step p op = some q) : Sound q := by
  cases op with
  | alloc allocates => exact Option.some.inj hst ▸ h.kapiMempoolAlloc
  | free e =>
    dsimp only [Mempool.step] at hst
    split_ifs at hst with he
    exact Option.some.inj hst ▸ h.kapiMempoolFree he
  | resize newMinNr allocs => exact Option.some.inj hst ▸ h.kapiMempoolResize hok
  | destroy => exact Option.some.inj hst ▸ h.kapiMempoolDestroy hok

/-- In every run whose resizes and destruction are harmless each element stays in one place. -/
theorem pool_sound {memory : ℕ → ℕ} {elementSize minNr maxNr : ℕ}
    (hp : Reach step Harmless (kapiMempoolCreate memory elementSize minNr maxNr allocs) p) : Sound p :=
  hp.invariant create_sound fun _ _ _ h hok hst => h.step hok hst

/-- A pool of one element, which is handed out. -/
theorem one_out : Sound (kapiMempoolAlloc (kapiMempoolCreate (fun _ => 0) 8 1 2 fun _ => true) true) :=
  pool_sound (.step (.alloc true) .start trivial rfl)

/-- The pool is destroyed while its element is in use, and frees it. -/
theorem destroyed_in_use : ¬∀ p, Reach step (fun _ _ => True) (kapiMempoolCreate (fun _ => 0) 8 1 2 fun _ => true) p →
    Sound p := by
  intro hall
  have hplaces := (hall _ (.step .destroy (.step (.alloc true) .start trivial rfl) trivial rfl)).places
  have hlength := hplaces.length_eq
  revert hlength
  decide

end Mempool
