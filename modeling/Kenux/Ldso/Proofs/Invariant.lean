import Kenux.Ldso.Model

/-!
# The table of libraries and the references that are out (`arch/x86_64/ldso.c`)
-/

namespace Ldso

/-- The references to a library. -/
def State.refs (s : State) (id : ℕ) : ℕ :=
  s.direct.countP (fun r => r.2 = id) + s.needed.countP (fun r => r.2 = id)

/-- The library is in the table. -/
def Loaded (s : State) (id : ℕ) : Prop := ∃ i < s.libCount, (s.libs i).id = id

/-- The pointers that callers hold denote the libraries they were returned for, and a library is in the table exactly as
long as a reference to it is out. -/
structure Sound (s : State) : Prop where
  pointers : ∀ r ∈ s.direct, r.1 < s.libCount ∧ (s.libs r.1).id = r.2
  counts : ∀ i < s.libCount, (s.libs i).refCount = s.refs (s.libs i).id
  loaded : ∀ id, Loaded s id ↔ 0 < s.refs id

/-- What holds besides. -/
structure Inv (s : State) : Prop where
  sound : Sound s
  fits : s.libCount ≤ ldsoMaxLibs
  ids : ∀ i < s.libCount, ∀ j < s.libCount, (s.libs i).id = (s.libs j).id → i = j
  fresh : ∀ i < s.libCount, (s.libs i).id < s.nextId
  born : ∀ i < s.libCount, (s.libs i).born = s.unloads
  cache : ∀ k, (s.symCache k).addr ≠ 0 →
    ∃ i < s.libCount, (s.symCache k).owner = some i ∧ (s.symCache k).id = (s.libs i).id

/-- What a load leaves of the state before it. -/
structure Grows (s t : State) : Prop where
  libCount : s.libCount ≤ t.libCount
  ids : ∀ i < s.libCount, (t.libs i).id = (s.libs i).id
  direct : ∀ r ∈ s.direct, r ∈ t.direct

theorem Grows.refl (s : State) : Grows s s := ⟨Nat.le_refl _, fun _ _ => rfl, fun _ hr => hr⟩

theorem Grows.trans {s t u : State} (h : Grows s t) (h' : Grows t u) : Grows s u where
  libCount := h.libCount.trans h'.libCount
  ids := fun i hi => (h'.ids i (hi.trans_le h.libCount)).trans (h.ids i hi)
  direct := fun r hr => h'.direct r (h.direct r hr)

/-- The table and the references of `s` are those of `t`. -/
structure Same (s t : State) : Prop where
  libCount : t.libCount = s.libCount
  libs : ∀ i < s.libCount, t.libs i = s.libs i
  direct : t.direct = s.direct
  needed : t.needed = s.needed

variable {s t : State} {i slot : ℕ} {lib : Klib}

theorem Inv.init : Inv initState where
  sound :=
    { pointers := fun r hr => by cases hr
      counts := fun i hi => by cases hi
      loaded := fun id => by simp [Loaded, initState, State.refs] }
  fits := by decide
  ids := fun i hi => by cases hi
  fresh := fun i hi => by cases hi
  born := fun i hi => by cases hi
  cache := fun k hk => (hk rfl).elim

/-! ## Entries -/

@[simp] theorem setLib_self (s : State) (i : ℕ) (lib : Klib) : (s.setLib i lib).libs i = lib := by
  simp [State.setLib]

theorem setLib_ne (s : State) {i j : ℕ} (lib : Klib) (h : j ≠ i) : (s.setLib i lib).libs j = s.libs j := by
  simp [State.setLib, h]

/-- Fields change that have to do neither with the identity of a library nor with its references. -/
theorem Inv.congr (hs : Inv s) (hcount : t.libCount = s.libCount) (hdirect : t.direct = s.direct)
    (hneeded : t.needed = s.needed) (hunloads : t.unloads = s.unloads) (hnext : t.nextId = s.nextId)
    (hcache : t.symCache = s.symCache)
    (hlibs : ∀ i < s.libCount, (t.libs i).id = (s.libs i).id ∧ (t.libs i).refCount = (s.libs i).refCount ∧
      (t.libs i).born = (s.libs i).born) : Inv t := by
  have hrefs (id : ℕ) : t.refs id = s.refs id := by rw [State.refs, hdirect, hneeded, State.refs]
  have hloaded (id : ℕ) : Loaded t id ↔ Loaded s id := by
    unfold Loaded
    rw [hcount]
    refine exists_congr fun i => and_congr_right fun hi => ?_
    rw [(hlibs i hi).1]
  constructor
  case sound =>
    constructor
    case pointers =>
      intro r hr
      rw [hdirect] at hr
      obtain ⟨hlt, hid⟩ := hs.sound.pointers r hr
      rw [hcount, (hlibs r.1 hlt).1]
      exact ⟨hlt, hid⟩
    case counts =>
      intro i hi
      rw [hcount] at hi
      rw [(hlibs i hi).1, (hlibs i hi).2.1, hrefs]
      exact hs.sound.counts i hi
    case loaded =>
      intro id
      rw [hloaded, hrefs]
      exact hs.sound.loaded id
  case fits => exact hcount ▸ hs.fits
  case ids =>
    intro i hi j hj hij
    rw [hcount] at hi hj
    rw [(hlibs i hi).1, (hlibs j hj).1] at hij
    exact hs.ids i hi j hj hij
  case fresh =>
    intro i hi
    rw [hcount] at hi
    rw [(hlibs i hi).1, hnext]
    exact hs.fresh i hi
  case born =>
    intro i hi
    rw [hcount] at hi
    rw [(hlibs i hi).2.2, hunloads]
    exact hs.born i hi
  case cache =>
    intro k hk
    rw [hcache] at hk ⊢
    obtain ⟨i, hi, howner, hid⟩ := hs.cache k hk
    exact ⟨i, hcount ▸ hi, howner, by rw [hid, (hlibs i hi).1]⟩

/-- What stands behind the entries in use does not matter. -/
theorem Inv.setLib_unused (hs : Inv s) (h : s.libCount ≤ i) (lib : Klib) : Inv (s.setLib i lib) := by
  refine hs.congr rfl rfl rfl rfl rfl rfl fun j hj => ?_
  rw [setLib_ne s lib (by omega)]
  exact ⟨rfl, rfl, rfl⟩

theorem Inv.setLib_same (hs : Inv s) (hid : lib.id = (s.libs i).id) (href : lib.refCount = (s.libs i).refCount)
    (hborn : lib.born = (s.libs i).born) : Inv (s.setLib i lib) := by
  refine hs.congr rfl rfl rfl rfl rfl rfl fun j hj => ?_
  rcases eq_or_ne j i with rfl | hne
  · rw [setLib_self]
    exact ⟨hid, href, hborn⟩
  · rw [setLib_ne s lib hne]
    exact ⟨rfl, rfl, rfl⟩

theorem Grows.setLib (s : State) (hid : lib.id = (s.libs i).id) : Grows s (s.setLib i lib) where
  libCount := Nat.le_refl _
  ids := by
    intro j hj
    rcases eq_or_ne j i with rfl | hne
    · rw [setLib_self, hid]
    · rw [setLib_ne s lib hne]
  direct := fun _ hr => hr

/-! ## References -/

@[simp] theorem hold_libs (s : State) (holder : Option ℕ) (slot : ℕ) : (s.hold holder slot).libs = s.libs := by
  cases holder <;> rfl

@[simp] theorem hold_libCount (s : State) (holder : Option ℕ) (slot : ℕ) :
    (s.hold holder slot).libCount = s.libCount := by
  cases holder <;> rfl

@[simp] theorem hold_nextId (s : State) (holder : Option ℕ) (slot : ℕ) : (s.hold holder slot).nextId = s.nextId := by
  cases holder <;> rfl

@[simp] theorem hold_unloads (s : State) (holder : Option ℕ) (slot : ℕ) : (s.hold holder slot).unloads = s.unloads := by
  cases holder <;> rfl

@[simp] theorem hold_symCache (s : State) (holder : Option ℕ) (slot : ℕ) :
    (s.hold holder slot).symCache = s.symCache := by
  cases holder <;> rfl

theorem hold_direct (s : State) (holder : Option ℕ) (slot : ℕ) {r : ℕ × ℕ} (hr : r ∈ s.direct) :
    r ∈ (s.hold holder slot).direct := by
  cases holder with
  | none => exact List.mem_cons_of_mem _ hr
  | some d => exact hr

/-- A pointer that a caller holds comes from here or was held before. -/
theorem mem_hold_direct {holder : Option ℕ} {r : ℕ × ℕ} (hr : r ∈ (s.hold holder slot).direct) :
    r = (slot, (s.libs slot).id) ∨ r ∈ s.direct := by
  cases holder with
  | none => exact List.mem_cons.mp hr
  | some d => exact .inr hr

theorem hold_refs (s : State) (holder : Option ℕ) (slot id : ℕ) :
    (s.hold holder slot).refs id = s.refs id + if (s.libs slot).id = id then 1 else 0 := by
  cases holder with
  | none =>
    simp only [State.hold, State.refs, List.countP_cons, decide_eq_true_eq]
    omega
  | some d =>
    simp only [State.hold, State.refs, List.countP_cons, decide_eq_true_eq]
    omega

/-- The invariant holds but for one reference to the library in `slot` that is counted and not yet out. -/
structure Owed (s : State) (slot : ℕ) : Prop where
  used : slot < s.libCount
  pointers : ∀ r ∈ s.direct, r.1 < s.libCount ∧ (s.libs r.1).id = r.2
  counts : ∀ i < s.libCount, (s.libs i).refCount = s.refs (s.libs i).id + if i = slot then 1 else 0
  loaded : ∀ id, Loaded s id ↔ 0 < s.refs id ∨ id = (s.libs slot).id
  fits : s.libCount ≤ ldsoMaxLibs
  ids : ∀ i < s.libCount, ∀ j < s.libCount, (s.libs i).id = (s.libs j).id → i = j
  fresh : ∀ i < s.libCount, (s.libs i).id < s.nextId
  born : ∀ i < s.libCount, (s.libs i).born = s.unloads
  cache : ∀ k, (s.symCache k).addr ≠ 0 →
    ∃ i < s.libCount, (s.symCache k).owner = some i ∧ (s.symCache k).id = (s.libs i).id

theorem Owed.hold (hs : Owed s slot) (holder : Option ℕ) : Inv (s.hold holder slot) where
  sound :=
    { pointers := by
        intro r hr
        rw [hold_libCount, hold_libs]
        rcases mem_hold_direct hr with rfl | hr
        · exact ⟨hs.used, rfl⟩
        · exact hs.pointers r hr
      counts := by
        intro i hi
        rw [hold_libCount] at hi
        rw [hold_libs, hold_refs, hs.counts i hi]
        by_cases his : i = slot
        · simp [his]
        · have hne : (s.libs slot).id ≠ (s.libs i).id := fun heq => his (hs.ids slot hs.used i hi heq).symm
          simp [his, hne]
      loaded := by
        intro id
        have hiff : Loaded (s.hold holder slot) id ↔ Loaded s id := by
          unfold Loaded
          rw [hold_libCount, hold_libs]
        rw [hiff, hold_refs, hs.loaded, eq_comm]
        split
        case isTrue hid => simp [hid]
        case isFalse hid => simp [hid] }
  fits := by simpa using hs.fits
  ids := by simpa using hs.ids
  fresh := by simpa using hs.fresh
  born := by simpa using hs.born
  cache := by simpa using hs.cache

theorem Grows.hold (s : State) (holder : Option ℕ) (slot : ℕ) : Grows s (s.hold holder slot) where
  libCount := by simp
  ids := fun i _ => by rw [hold_libs]
  direct := fun _ hr => hold_direct _ _ _ hr

theorem mem_hold (s : State) (slot : ℕ) : (slot, ((s.hold none slot).libs slot).id) ∈ (s.hold none slot).direct := by
  rw [hold_libs]
  exact List.mem_cons_self

/-- One more reference to a library of the table is counted. -/
theorem Inv.owed (hs : Inv s) (hslot : slot < s.libCount) :
    Owed (s.setLib slot { s.libs slot with refCount := (s.libs slot).refCount + 1 }) slot := by
  have hlibs (j : ℕ) : ((s.setLib slot { s.libs slot with refCount := (s.libs slot).refCount + 1 }).libs j).id =
        (s.libs j).id ∧
      ((s.setLib slot { s.libs slot with refCount := (s.libs slot).refCount + 1 }).libs j).born = (s.libs j).born ∧
      ((s.setLib slot { s.libs slot with refCount := (s.libs slot).refCount + 1 }).libs j).refCount =
        (s.libs j).refCount + if j = slot then 1 else 0 := by
    rcases eq_or_ne j slot with rfl | hne
    · simp
    · simp [setLib_ne, hne]
  constructor
  case used => exact hslot
  case pointers =>
    intro r hr
    rw [(hlibs r.1).1]
    exact hs.sound.pointers r hr
  case counts =>
    intro i hi
    rw [(hlibs i).1, (hlibs i).2.2, hs.sound.counts i hi]
    rfl
  case loaded =>
    intro id
    have hiff : Loaded (s.setLib slot { s.libs slot with refCount := (s.libs slot).refCount + 1 }) id ↔ Loaded s id :=
      exists_congr fun j => and_congr_right fun _ => by rw [(hlibs j).1]
    rw [hiff, (hlibs slot).1]
    refine ⟨fun h => .inl ((hs.sound.loaded id).mp h), ?_⟩
    rintro (h | rfl)
    · exact (hs.sound.loaded id).mpr h
    · exact ⟨slot, hslot, rfl⟩
  case fits => exact hs.fits
  case ids =>
    intro i hi j hj hij
    rw [(hlibs i).1, (hlibs j).1] at hij
    exact hs.ids i hi j hj hij
  case fresh =>
    intro i hi
    rw [(hlibs i).1]
    exact hs.fresh i hi
  case born =>
    intro i hi
    rw [(hlibs i).2.1]
    exact hs.born i hi
  case cache =>
    intro k hk
    obtain ⟨i, hi, howner, hid⟩ := hs.cache k hk
    exact ⟨i, hi, howner, hid.trans (hlibs i).1.symm⟩

/-- What `existing->ref_count++` leaves. -/
theorem Inv.addRef {holder : Option ℕ} (hs : Inv s) (hslot : slot < s.libCount) (h : addRef holder slot s = .ok t) :
    Inv t ∧ Grows s t ∧ t.libCount = s.libCount ∧ (holder = none → (slot, (t.libs slot).id) ∈ t.direct) := by
  unfold Ldso.addRef at h
  split at h
  case isTrue => cases h
  case isFalse =>
    obtain rfl := Except.ok.inj h
    refine ⟨(hs.owed hslot).hold holder, ?_, hold_libCount _ _ _, ?_⟩
    · refine Grows.trans ?_ (Grows.hold _ _ _)
      exact Grows.setLib s rfl
    · rintro rfl
      exact mem_hold _ _

theorem push_libs_lt (lib : Klib) (h : i < s.libCount) : (s.push lib).libs i = s.libs i :=
  setLib_ne s lib (by omega)

theorem push_libs_self (s : State) (lib : Klib) : (s.push lib).libs s.libCount = lib := setLib_self s _ lib

/-- A new library, whose first reference is counted. -/
theorem Inv.push (hs : Inv s) (hroom : s.libCount < ldsoMaxLibs) (hid : lib.id = s.nextId) (href : lib.refCount = 1)
    (hborn : lib.born = s.unloads) : Owed (s.push lib) s.libCount := by
  have hcase {j : ℕ} (hj : j < s.libCount + 1) : j < s.libCount ∨ j = s.libCount := by omega
  have hnone : s.refs s.nextId = 0 := by
    by_contra hpos
    obtain ⟨j, hj, hjid⟩ := (hs.sound.loaded s.nextId).mpr (Nat.pos_of_ne_zero hpos)
    have hlt := hs.fresh j hj
    omega
  constructor
  case used => exact Nat.lt_succ_self _
  case pointers =>
    intro r hr
    obtain ⟨hlt, hrid⟩ := hs.sound.pointers r hr
    rw [push_libs_lt lib hlt]
    exact ⟨Nat.lt_succ_of_lt hlt, hrid⟩
  case counts =>
    intro i hi
    change _ = (s.refs _ : ℤ) + _
    rcases hcase hi with hlt | rfl
    · rw [push_libs_lt lib hlt, hs.sound.counts i hlt, if_neg (by omega), add_zero]
    · rw [push_libs_self, href, hid, hnone, if_pos rfl]
      rfl
  case loaded =>
    intro id
    rw [push_libs_self, hid]
    change _ ↔ 0 < s.refs id ∨ _
    rw [← hs.sound.loaded]
    constructor
    · rintro ⟨i, hi, rfl⟩
      rcases hcase hi with hlt | rfl
      · exact .inl ⟨i, hlt, by rw [push_libs_lt lib hlt]⟩
      · exact .inr (by rw [push_libs_self, hid])
    · rintro (⟨i, hi, hiid⟩ | rfl)
      · exact ⟨i, Nat.lt_succ_of_lt hi, by rw [push_libs_lt lib hi, hiid]⟩
      · exact ⟨s.libCount, Nat.lt_succ_self _, by rw [push_libs_self, hid]⟩
  case fits => exact hroom
  case ids =>
    intro i hi j hj hij
    rcases hcase hi with hlt | rfl <;> rcases hcase hj with hjlt | rfl
    · rw [push_libs_lt lib hlt, push_libs_lt lib hjlt] at hij
      exact hs.ids i hlt j hjlt hij
    · rw [push_libs_lt lib hlt, push_libs_self, hid] at hij
      have hfresh := hs.fresh i hlt
      omega
    · rw [push_libs_lt lib hjlt, push_libs_self, hid] at hij
      have hfresh := hs.fresh j hjlt
      omega
    · rfl
  case fresh =>
    intro i hi
    change _ < s.nextId + 1
    rcases hcase hi with hlt | rfl
    · rw [push_libs_lt lib hlt]
      exact Nat.lt_succ_of_lt (hs.fresh i hlt)
    · rw [push_libs_self, hid]
      exact Nat.lt_succ_self _
  case born =>
    intro i hi
    rcases hcase hi with hlt | rfl
    · rw [push_libs_lt lib hlt]
      exact hs.born i hlt
    · rw [push_libs_self]
      exact hborn
  case cache =>
    intro k hk
    obtain ⟨i, hi, howner, hiid⟩ := hs.cache k hk
    exact ⟨i, Nat.lt_succ_of_lt hi, howner, by rw [push_libs_lt lib hi]; exact hiid⟩

theorem Grows.push (s : State) (lib : Klib) : Grows s (s.push lib) where
  libCount := Nat.le_succ _
  ids := fun i hi => by rw [push_libs_lt lib hi]
  direct := fun _ hr => hr

end Ldso
