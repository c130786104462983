import Kenux.Lib.TableWalk
import Kenux.Lib.Word
import Kenux.Pmap.Model

/-!
# Words of page tables

What the address arithmetic and the bit masks of `memory.c` amount to: slots of page-aligned tables
do not collide, `PTE_ADDR` undoes `PTE_FLAGS`, and a virtual page number is its four indices.
-/

namespace Pmap

/-- A page-aligned address below `2 ^ 52`, what `PTE_ADDR` can return. -/
def IsFrame (t : UInt64) : Prop := t.toNat % 4096 = 0 ∧ t.toNat < 2 ^ 52

theorem pteAddr_toNat (e : UInt64) : (pteAddr e).toNat = e.toNat / 4096 % 2 ^ 40 * 4096 :=
  Word.toNat_and_field 12 40 (by decide)

theorem pteAddr_isFrame (e : UInt64) : IsFrame (pteAddr e) := by
  unfold IsFrame
  rw [pteAddr_toNat]
  omega

theorem pteAddr_of_isFrame {t : UInt64} (h : IsFrame t) : pteAddr t = t := by
  apply UInt64.toNat_inj.mp
  obtain ⟨h1, h2⟩ := h
  rw [pteAddr_toNat]
  omega

theorem pteAddr_pteFlags {t f : UInt64} (ht : IsFrame t) (hf : pteAddr f = 0) :
    pteAddr (pteFlags t f) = t := by
  have h : pteAddr (pteFlags t f) = pteAddr t ||| pteAddr f := Word.or_and _ _ _
  rw [h, hf, pteAddr_of_isFrame ht, Word.or_zero]

theorem present_pteFlags (t f : UInt64) : pteFlags t (f ||| pagePresent) &&& pagePresent ≠ 0 := by
  have h : pteFlags t (f ||| pagePresent) &&& pagePresent = pagePresent := by
    rw [pteFlags, ← UInt64.or_assoc]
    exact Word.and_or_self _ _
  rw [h]
  decide

theorem pteAddr_or_present {f : UInt64} (hf : pteAddr f = 0) : pteAddr (f ||| pagePresent) = 0 := by
  have h : pteAddr (f ||| pagePresent) = pteAddr f ||| pteAddr pagePresent := Word.or_and _ _ _
  rw [h, hf]
  decide

/-- The flags that `__pmap_get_or_alloc_table` gives to a table. -/
def tableFlags : UInt64 := pagePresent ||| pageWritable

theorem present_table (t : UInt64) : pteFlags t tableFlags &&& pagePresent ≠ 0 := by
  have h : tableFlags = pageWritable ||| pagePresent := by decide
  rw [h]
  exact present_pteFlags t pageWritable

theorem pteAddr_table {t : UInt64} (ht : IsFrame t) : pteAddr (pteFlags t tableFlags) = t :=
  pteAddr_pteFlags ht (by decide)

theorem not_2M_table {t : UInt64} (ht : IsFrame t) : pteFlags t tableFlags &&& pageSize2M = 0 := by
  have h : pteFlags t tableFlags &&& pageSize2M = t &&& pageSize2M ||| tableFlags &&& pageSize2M :=
    Word.or_and _ _ _
  have ht' : t &&& pageSize2M = 0 := by
    apply UInt64.toNat_inj.mp
    have := Word.toNat_and_field (a := t) (m := pageSize2M) 7 1 (by decide)
    obtain ⟨h1, -⟩ := ht
    rw [this, UInt64.toNat_zero]
    omega
  rw [h, ht']
  decide

/-! ## Slots -/

theorem slot_toNat {t : UInt64} (ht : t.toNat % 4096 = 0) (i : Fin 512) :
    (slot t i).toNat = t.toNat + 8 * i.val := by
  have h1 := t.toNat_lt
  have h3 : (8 * UInt64.ofNat i.val).toNat = 8 * i.val := by
    rw [UInt64.toNat_mul, UInt64.toNat_ofNat']
    change 8 * (i.val % 2 ^ 64) % 2 ^ 64 = 8 * i.val
    omega
  unfold slot
  rw [UInt64.toNat_add, h3]
  omega

theorem slot_inj {t u : UInt64} {i j : Fin 512} (ht : t.toNat % 4096 = 0)
    (hu : u.toNat % 4096 = 0) (h : slot t i = slot u j) : t = u ∧ i = j := by
  have h1 := congrArg UInt64.toNat h
  rw [slot_toNat ht, slot_toNat hu] at h1
  exact ⟨UInt64.toNat_inj.mp (by omega), Fin.ext (by omega)⟩

theorem inPage_slot {t u : UInt64} (ht : t.toNat % 4096 = 0) (hu : u.toNat % 4096 = 0)
    (i : Fin 512) : InPage t (slot u i) ↔ u = t := by
  unfold InPage
  rw [slot_toNat hu]
  constructor
  · intro h
    exact UInt64.toNat_inj.mp (by omega)
  · rintro rfl
    omega

theorem entry_update {m : PhysMem} {t u : UInt64} {i j : Fin 512} (ht : t.toNat % 4096 = 0)
    (hu : u.toNat % 4096 = 0) (e : UInt64) :
    PhysMem.entry (Function.update m (slot t i) e) u j =
      if u = t ∧ j = i then e else m.entry u j := by
  unfold PhysMem.entry
  split_ifs with h
  · obtain ⟨rfl, rfl⟩ := h
    rw [Function.update_self]
  · rw [Function.update_of_ne]
    intro hc
    obtain ⟨rfl, rfl⟩ := slot_inj hu ht hc
    exact h ⟨rfl, rfl⟩

theorem entry_zeroPage {m : PhysMem} {t u : UInt64} (ht : t.toNat % 4096 = 0)
    (hu : u.toNat % 4096 = 0) (j : Fin 512) :
    (m.zeroPage t).entry u j = if u = t then 0 else m.entry u j := by
  unfold PhysMem.entry PhysMem.zeroPage
  simp only [inPage_slot ht hu]

theorem entry_copyPage {m : PhysMem} {dst src u : UInt64} (hd : dst.toNat % 4096 = 0)
    (hu : u.toNat % 4096 = 0) (j : Fin 512) :
    (m.copyPage dst src).entry u j = if u = dst then m.entry src j else m.entry u j := by
  unfold PhysMem.entry PhysMem.copyPage
  simp only [inPage_slot hd hu]
  split_ifs with h
  · subst h
    congr 1
    unfold slot
    grind
  · rfl

/-! ## Virtual addresses -/

theorem tableIndex_val {v k : UInt64} (n : ℕ) (hk : k.toNat = n) (hn : n < 64) :
    (tableIndex v k).val = v.toNat / 2 ^ n % 512 := by
  have h : ((v >>> k) &&& 0x1FF).toNat = (v >>> k).toNat / 2 ^ 0 % 2 ^ 9 * 2 ^ 0 :=
    Word.toNat_and_field 0 9 (by decide)
  unfold tableIndex
  dsimp only
  rw [h, Word.toNat_shiftRight n hk hn]
  omega

/-- The slots met on the way to the page table of `v`. -/
def tablePath (v : UInt64) : List (Fin 512) := [idxPml4 v, idxPdpt v, idxPd v]

/-- Two addresses lie in the same virtual page iff they use the same slots. -/
theorem vpn_eq_iff (v w : UInt64) :
    vpn v = vpn w ↔ tablePath v = tablePath w ∧ idxPt v = idxPt w := by
  unfold vpn tablePath idxPml4 idxPdpt idxPd idxPt
  simp only [List.cons.injEq, and_true, Fin.ext_iff,
    tableIndex_val 39 (k := 39) (by decide) (by decide),
    tableIndex_val 30 (k := 30) (by decide) (by decide),
    tableIndex_val 21 (k := 21) (by decide) (by decide),
    tableIndex_val 12 (k := 12) (by decide) (by decide)]
  omega

/-!
## The forest of page tables

`Forest src s R` is the invariant of all tables reachable from the top-level tables `R`: they are
frames in use, tables of different depth are different, and no entry above the last level is null or
maps a 2M page. `pmap_get_physical` is then a walk of depth three
followed by one read.
-/

open TableWalk

/-- The table that a present entry of a page-aligned table refers to. -/
def next (m : PhysMem) (t : UInt64) (i : Fin 512) : Option UInt64 :=
  if t.toNat % 4096 = 0 ∧ m.entry t i &&& pagePresent ≠ 0 then some (pteAddr (m.entry t i)) else none

theorem next_eq_some {m : PhysMem} {t u : UInt64} {i : Fin 512} :
    next m t i = some u ↔
      t.toNat % 4096 = 0 ∧ m.entry t i &&& pagePresent ≠ 0 ∧ pteAddr (m.entry t i) = u := by
  unfold next
  split_ifs with h
  · simp [h]
  · simp only [false_iff]
    tauto

theorem next_of_present {m : PhysMem} {t : UInt64} {i : Fin 512} (ht : t.toNat % 4096 = 0)
    (h : m.entry t i &&& pagePresent ≠ 0) : next m t i = some (pteAddr (m.entry t i)) :=
  next_eq_some.mpr ⟨ht, h, rfl⟩

theorem next_of_absent {m : PhysMem} {t : UInt64} {i : Fin 512}
    (h : m.entry t i &&& pagePresent = 0) : next m t i = none := by
  simp [next, h]

theorem next_congr {m m' : PhysMem} {t : UInt64} {i : Fin 512}
    (h : t.toNat % 4096 = 0 → m'.entry t i = m.entry t i) : next m' t i = next m t i := by
  unfold next
  by_cases ht : t.toNat % 4096 = 0
  · rw [h ht]
  · simp [ht]

/-- The entry of the last level for `v`, if the tables above it exist. -/
def leaf (m : PhysMem) (r v : UInt64) : Option UInt64 :=
  (walk (next m) r (tablePath v)).map fun pt => m.entry pt (idxPt v)

/-- What a last-level entry translates `v` to. -/
def translate (v : UInt64) : Option UInt64 → UInt64
  | none => 0
  | some e => if e &&& pagePresent = 0 then 0 else pteAddr e + (v &&& 0xFFF)

structure Forest {α : Type} (src : FrameSource α) (s : State α) (R : Set UInt64) : Prop where
  roots : ∀ r ∈ R, r.toNat % 4096 = 0 ∧ r ≠ 0
  inUse : ∀ r ∈ R, ∀ q u, q.length ≤ 3 → walk (next s.mem) r q = some u → u ∈ src.inUse s.heap
  leveled : Leveled (next s.mem) R 3
  tables : ∀ r ∈ R, ∀ q t i u, q.length < 3 → walk (next s.mem) r q = some t →
    next s.mem t i = some u → u ≠ 0 ∧ s.mem.entry t i &&& pageSize2M = 0

section

variable {α : Type} {src : FrameSource α} {s : State α} {R : Set UInt64} {r t u : UInt64}
variable {p q : List (Fin 512)} {i : Fin 512}

theorem Forest.aligned (h : Forest src s R) (hr : r ∈ R) (hw : walk (next s.mem) r q = some t) :
    t.toNat % 4096 = 0 := by
  cases q using List.reverseRecOn with
  | nil =>
    obtain rfl := Option.some.inj hw
    exact (h.roots r hr).1
  | append_singleton q i =>
    rw [walk_snoc] at hw
    obtain ⟨u, -, hu⟩ := Option.bind_eq_some_iff.mp hw
    rw [← (next_eq_some.mp hu).2.2]
    exact (pteAddr_isFrame _).1

/-- A frame that is not in use is fresh for every root. -/
theorem Forest.fresh (h : Forest src s R) (hr : r ∈ R) (hu : u ∉ src.inUse s.heap) :
    Fresh (next s.mem) 3 r u :=
  fun q hq hw => hu (h.inUse r hr q u hq hw)

/-- A table at depth three is fresh as a table of smaller depth. -/
theorem Forest.not_above {r' : UInt64} (h : Forest src s R) (hr : r ∈ R) (hr' : r' ∈ R)
    (hq : q.length = 3) (hw : walk (next s.mem) r q = some t) (hp : p.length < 3)
    (hwp : walk (next s.mem) r' p = some u) : u ≠ t := by
  rintro rfl
  have := h.leveled r hr r' hr' q p u (by omega) (by omega) hw hwp
  omega

theorem Forest.pmapGetPhysical_eq (h : Forest src s R) (hr : r ∈ R) (v : UInt64) :
    pmapGetPhysical s.mem r v = translate v (leaf s.mem r v) := by
  obtain ⟨hra, hr0⟩ := h.roots r hr
  unfold pmapGetPhysical leaf tablePath
  simp only [hr0, if_false, walk_cons]
  by_cases h1 : s.mem.entry r (idxPml4 v) &&& pagePresent = 0
  · simp [next_of_absent, h1, translate]
  have n1 := next_of_present hra h1
  simp only [h1, if_false, n1, Option.bind_some]
  have a1 : (pteAddr (s.mem.entry r (idxPml4 v))).toNat % 4096 = 0 := (pteAddr_isFrame _).1
  generalize pteAddr (s.mem.entry r (idxPml4 v)) = pdpt at *
  by_cases h2 : s.mem.entry pdpt (idxPdpt v) &&& pagePresent = 0
  · simp [next_of_absent, h2, translate]
  have n2 := next_of_present a1 h2
  simp only [h2, if_false, n2, Option.bind_some]
  have a2 : (pteAddr (s.mem.entry pdpt (idxPdpt v))).toNat % 4096 = 0 := (pteAddr_isFrame _).1
  generalize pteAddr (s.mem.entry pdpt (idxPdpt v)) = pd at *
  by_cases h3 : s.mem.entry pd (idxPd v) &&& pagePresent = 0
  · simp [next_of_absent, h3, translate]
  have n3 := next_of_present a2 h3
  have hw : walk (next s.mem) r [idxPml4 v, idxPdpt v] = some pd := by
    simp [walk_cons, n1, n2]
  -- the entry of the page directory is a table, so its 2M bit is clear
  have h2M : s.mem.entry pd (idxPd v) &&& pageSize2M = 0 :=
    (h.tables r hr _ pd (idxPd v) _ (by simp) hw n3).2
  simp [h3, n3, h2M, translate]

end

end Pmap

/-!
## Making tables on demand

`__pmap_get_or_alloc_table` finds a table, links a fresh one or fails (`TableStep`). None of the three
changes what any address translates to, and all of them keep the forest.
-/

namespace Pmap

open TableWalk

/-- What `__pmap_get_or_alloc_table` can do at slot `i` of table `t`; `u` is the table it returns. -/
inductive TableStep {α : Type} (src : FrameSource α) (s s' : State α) (t : UInt64) (i : Fin 512)
    (u : UInt64) : Prop where
  | found (hn : next s.mem t i = some u) (hs : s' = s)
  | failed (hu : u = 0) (hm : s'.mem = s.mem) (hi : src.inUse s.heap ⊆ src.inUse s'.heap)
  | made (hu : u ≠ 0) (hf : IsFrame u) (hn : next s.mem t i = none)
      (hent : ∀ w j, w.toNat % 4096 = 0 → s'.mem.entry w j =
        if w = t ∧ j = i then pteFlags u tableFlags else if w = u then 0 else s.mem.entry w j)
      (hnew : u ∉ src.inUse s.heap) (hold : u ∈ src.inUse s'.heap)
      (hi : src.inUse s.heap ⊆ src.inUse s'.heap)

section

variable {α : Type} {src : FrameSource α} {s s' : State α} {R : Set UInt64} {r t u : UInt64}
variable {p q : List (Fin 512)} {i : Fin 512}

theorem pmapGetOrAllocTable_step (src : FrameSource α) (s : State α) (i : Fin 512)
    (ht : t.toNat % 4096 = 0) :
    TableStep src s (pmapGetOrAllocTable src s (slot t i)).2 t i
      (pmapGetOrAllocTable src s (slot t i)).1 := by
  unfold pmapGetOrAllocTable
  by_cases hp : s.mem (slot t i) &&& pagePresent = 0
  · simp only [hp, ne_eq, not_true_eq_false, if_false]
    by_cases hu : (src.alloc s.heap).1 = 0
    · rw [if_pos hu]
      exact .failed rfl rfl (src.keeps _)
    · rw [if_neg hu]
      have hf : IsFrame (src.alloc s.heap).1 := ⟨src.aligned _, src.bounded _⟩
      refine .made hu hf (next_of_absent hp) (fun w j hw => ?_) (src.fresh s.heap hu)
        (src.takes s.heap hu) (src.keeps _)
      dsimp only
      rw [entry_update ht hw, entry_zeroPage hf.1 hw]
      rfl
  · simp only [hp, ne_eq, not_false_eq_true, if_true]
    exact .found (next_of_present ht hp) rfl

/-- A zeroed frame put into an absent slot is a link of the forest. -/
theorem link_of_entry {m m' : PhysMem} (ht : t.toNat % 4096 = 0) (hf : IsFrame u) (htu : t ≠ u)
    (hn : next m t i = none)
    (hent : ∀ w j, w.toNat % 4096 = 0 → m'.entry w j =
      if w = t ∧ j = i then pteFlags u tableFlags else if w = u then 0 else m.entry w j) :
    Link (next m) (next m') t i u where
  absent := hn
  linked := by
    have he := hent t i ht
    rw [if_pos ⟨rfl, rfl⟩] at he
    exact next_eq_some.mpr ⟨ht, he ▸ present_table u, he ▸ pteAddr_table hf⟩
  empty j := by
    have he := hent u j hf.1
    rw [if_neg (fun h => htu h.1.symm), if_pos rfl] at he
    exact next_of_absent (by rw [he]; decide)
  other w j hwu hor := by
    refine next_congr fun hw => ?_
    have he := hent w j hw
    rwa [if_neg (by tauto), if_neg hwu] at he

variable (hF : Forest src s R) (hr : r ∈ R) (hp : p.length < 3)
  (hw : walk (next s.mem) r p = some t)

include hF hr hp hw

theorem link_of_made (hf : IsFrame u) (hn : next s.mem t i = none)
    (hent : ∀ w j, w.toNat % 4096 = 0 → s'.mem.entry w j =
      if w = t ∧ j = i then pteFlags u tableFlags else if w = u then 0 else s.mem.entry w j)
    (hnew : u ∉ src.inUse s.heap) : Link (next s.mem) (next s'.mem) t i u :=
  link_of_entry (hF.aligned hr hw) hf
    (fun e => hnew (e ▸ hF.inUse r hr p t (by omega) hw)) hn hent

/-- The table that is returned is the one the slot now refers to. -/
theorem TableStep.walk_snoc_eq (h : TableStep src s s' t i u) (hu : u ≠ 0) :
    walk (next s'.mem) r (p ++ [i]) = some u := by
  cases h with
  | found hn hs => rw [hs, walk_snoc, hw]; exact hn
  | failed h0 _ _ => exact absurd h0 hu
  | made _ hf hn hent hnew _ _ =>
    have hl := link_of_made hF hr hp hw hf hn hent hnew
    rw [walk_snoc, hl.walk_mono (hF.fresh hr hnew) (by omega) hw]
    exact hl.linked

theorem TableStep.forest (h : TableStep src s s' t i u) : Forest src s' R := by
  cases h with
  | found _ hs => rw [hs]; exact hF
  | failed _ hm hi =>
    exact ⟨hF.roots, by rw [hm]; exact fun r hr q u hq hwq => hi (hF.inUse r hr q u hq hwq),
      by rw [hm]; exact hF.leveled, by rw [hm]; exact hF.tables⟩
  | made hu hf hn hent hnew hold hi =>
    have hl := link_of_made hF hr hp hw hf hn hent hnew
    refine ⟨hF.roots, ?_, hl.leveled hF.leveled fun r hr => hF.fresh hr hnew, ?_⟩
    · intro r' hr' q w hq hwq
      rcases (hl.walk_iff (hF.fresh hr' hnew) q w hq).mp hwq with hwq | ⟨rfl, -⟩
      · exact hi (hF.inUse r' hr' q w hq hwq)
      · exact hold
    · intro r' hr' q w j x hq hwq hnx
      rcases (hl.walk_iff (hF.fresh hr' hnew) q w (by omega)).mp hwq with hwq | ⟨rfl, -⟩
      · have hwu : w ≠ u := fun e => hF.fresh hr' hnew q (by omega) (e ▸ hwq)
        rw [hent w j (hF.aligned hr' hwq)]
        by_cases hti : w = t ∧ j = i
        · obtain ⟨rfl, rfl⟩ := hti
          rw [hl.linked] at hnx
          obtain rfl := Option.some.inj hnx
          rw [if_pos ⟨rfl, rfl⟩]
          exact ⟨hu, not_2M_table hf⟩
        · rw [hl.other w j hwu (by tauto)] at hnx
          rw [if_neg hti, if_neg hwu]
          exact hF.tables r' hr' q w j x hq hwq hnx
      · rw [hl.empty] at hnx
        exact absurd hnx (by simp)

/-- Making a table changes no translation: the new page table is empty. -/
theorem TableStep.translate_eq (h : TableStep src s s' t i u) {r' : UInt64} (hr' : r' ∈ R)
    (v : UInt64) : translate v (leaf s'.mem r' v) = translate v (leaf s.mem r' v) := by
  cases h with
  | found _ hs => rw [hs]
  | failed _ hm _ => rw [hm]
  | made hu hf hn hent hnew hold hi =>
    have hl := link_of_made hF hr hp hw hf hn hent hnew
    have hlen : (tablePath v).length = 3 := rfl
    unfold leaf
    cases hwv : walk (next s.mem) r' (tablePath v) with
    | some pt =>
      have hpt : pt ≠ u := fun e => hF.fresh hr' hnew _ hlen.le (e ▸ hwv)
      have hptt : pt ≠ t := (hF.not_above hr' hr hlen hwv hp hw).symm
      rw [hl.walk_mono (hF.fresh hr' hnew) hlen.le hwv, Option.map_some, Option.map_some,
        hent pt _ (hF.aligned hr' hwv), if_neg (fun e => hptt e.1), if_neg hpt]
    | none =>
      cases hwv' : walk (next s'.mem) r' (tablePath v) with
      | none => rfl
      | some w =>
        rcases (hl.walk_iff (hF.fresh hr' hnew) _ w hlen.le).mp hwv' with hc | ⟨rfl, -⟩
        · rw [hwv] at hc
          exact absurd hc (by simp)
        · have htu : ¬ (w = t ∧ idxPt v = i) := by
            rintro ⟨rfl, -⟩
            exact hnew (hF.inUse r hr p w (by omega) hw)
          rw [Option.map_some, Option.map_none, hent w _ hf.1, if_neg htu, if_pos rfl]
          rfl

/-- Walks that existed before still reach the same table. -/
theorem TableStep.walk_mono (h : TableStep src s s' t i u) {r' w : UInt64} (hr' : r' ∈ R)
    (hq : q.length ≤ 3) (hwq : walk (next s.mem) r' q = some w) :
    walk (next s'.mem) r' q = some w := by
  cases h with
  | found _ hs => rw [hs]; exact hwq
  | failed _ hm _ => rw [hm]; exact hwq
  | made hu hf hn hent hnew hold hi =>
    exact (link_of_made hF hr hp hw hf hn hent hnew).walk_mono (hF.fresh hr' hnew) hq hwq

theorem TableStep.distinct (h : TableStep src s s' t i u) {r' : UInt64} (hr' : r' ∈ R)
    (hd : Distinct (next s.mem) r' 3) : Distinct (next s'.mem) r' 3 := by
  cases h with
  | found _ hs => rw [hs]; exact hd
  | failed _ hm _ => rw [hm]; exact hd
  | made hu hf hn hent hnew hold hi =>
    exact (link_of_made hF hr hp hw hf hn hent hnew).distinct hd (hF.fresh hr' hnew)

end

end Pmap
