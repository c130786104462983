import Kenux.Ldso.Proofs.Loads

/-!
# Runs of loads, lookups and unloads (`arch/x86_64/ldso.c`)
-/

namespace Ldso

open Run

/-- The library is in the table, and its memory is there: all libraries are at one address, so every unload takes the
memory of those loaded before. -/
def Mapped (s : State) (id : ℕ) : Prop := ∃ i < s.libCount, (s.libs i).id = id ∧ (s.libs i).born = s.unloads

/-- A library with the file name of the path is in the table. -/
def AlreadyLoaded (s : State) (path : CStr) : Prop :=
  ∃ i < s.libCount, fileName (s.libs i).name = fileName (path.take (ldsoLibNameMax - 1))

/-- The last reference to a library goes only while no other library is loaded; and a load of a library that is in the
table finds room in the table, a path that fits into `name` and a file that can still be opened. -/
def StepOk (s : State) : Step → Prop
  | .load env path => AlreadyLoaded s path →
      s.libCount < ldsoMaxLibs ∧ path.length < ldsoLibNameMax ∧ (env 0).opens = true ∧ (env 0).verified = true
  | .lookup _ _ => True
  | .unload slot _ => (s.libs slot).refCount = 1 → s.libCount = 1

/-- A load returns an entry of the table, whose pointer the caller now holds, or changes nothing; it succeeds if the
library is in the table. -/
structure LoadRight (s : State) (path : CStr) (r : Option ℕ) (t : State) : Prop where
  pointer : ∀ i, r = some i → i < t.libCount ∧ (i, (t.libs i).id) ∈ t.direct
  same : r = none → Same s t
  again : AlreadyLoaded s path → ∃ i, r = some i ∧ fileName (s.libs i).name = fileName path ∧
    (t.libs i).id = (s.libs i).id

variable {s t : State} {slot id : ℕ}

/-- The references that are left when a caller gives one back. -/
theorem refs_erase (hmem : (slot, id) ∈ s.direct) (id' : ℕ) :
    s.refs id' = State.refs { s with direct := s.direct.erase (slot, id) } id' + if id = id' then 1 else 0 := by
  have hpos : id = id' → 0 < s.direct.countP (fun r => r.2 = id') := by
    rintro rfl
    exact List.countP_pos_iff.mpr ⟨_, hmem, by simp⟩
  simp only [State.refs, List.countP_erase, hmem, true_and, decide_eq_true_eq]
  split
  case isTrue hid =>
    have hlt := hpos hid
    omega
  case isFalse => omega

/-- A reference goes that is not the last one. -/
theorem Inv.release (hs : Inv s) (hmem : (slot, id) ∈ s.direct) (hmore : (s.libs slot).refCount ≠ 1) :
    Inv ({ s with direct := s.direct.erase (slot, id) }.setLib slot
      { s.libs slot with refCount := (s.libs slot).refCount - 1 }) := by
  obtain ⟨hslot, hid⟩ := hs.sound.pointers _ hmem
  dsimp only at hslot hid
  have hrefs := refs_erase hmem
  have hlibs (j : ℕ) :
      (({ s with direct := s.direct.erase (slot, id) }.setLib slot
          { s.libs slot with refCount := (s.libs slot).refCount - 1 }).libs j).id = (s.libs j).id ∧
        (({ s with direct := s.direct.erase (slot, id) }.setLib slot
          { s.libs slot with refCount := (s.libs slot).refCount - 1 }).libs j).born = (s.libs j).born ∧
        (({ s with direct := s.direct.erase (slot, id) }.setLib slot
          { s.libs slot with refCount := (s.libs slot).refCount - 1 }).libs j).refCount =
          (s.libs j).refCount - if j = slot then 1 else 0 := by
    rcases eq_or_ne j slot with rfl | hne
    · simp
    · simp [setLib_ne, hne]
  generalize hu : { s with direct := s.direct.erase (slot, id) }.setLib slot
    { s.libs slot with refCount := (s.libs slot).refCount - 1 } = u at hlibs
  have hcount : u.libCount = s.libCount := by rw [← hu]; rfl
  have hdirect : u.direct = s.direct.erase (slot, id) := by rw [← hu]; rfl
  have hrefs (id' : ℕ) : s.refs id' = u.refs id' + if id = id' then 1 else 0 := by
    rw [hrefs id', ← hu]
    rfl
  have hcounts (i : ℕ) (hi : i < s.libCount) : (u.libs i).refCount = u.refs (u.libs i).id := by
    have hold := hs.sound.counts i hi
    have hnew := hrefs (s.libs i).id
    rw [(hlibs i).2.2, (hlibs i).1, hold]
    by_cases his : i = slot
    · rw [if_pos his]
      rw [if_pos (by rw [his, hid])] at hnew
      omega
    · have hne : id ≠ (s.libs i).id := fun heq => his (hs.ids slot hslot i hi (hid.trans heq)).symm
      rw [if_neg his]
      rw [if_neg hne] at hnew
      omega
  constructor
  case sound =>
    constructor
    case pointers =>
      intro r hr
      rw [hdirect] at hr
      rw [hcount, (hlibs r.1).1]
      exact hs.sound.pointers r (List.mem_of_mem_erase hr)
    case counts => exact fun i hi => hcounts i (hcount ▸ hi)
    case loaded =>
      intro id'
      have hiff : Loaded u id' ↔ Loaded s id' := by
        unfold Loaded
        rw [hcount]
        exact exists_congr fun j => and_congr_right fun _ => by rw [(hlibs j).1]
      rw [hiff, hs.sound.loaded]
      have hnew := hrefs id'
      split at hnew
      case isFalse => omega
      case isTrue heq =>
        -- the library in `slot` keeps a reference
        have hold := hs.sound.counts slot hslot
        rw [hid, heq] at hold
        omega
  case fits => exact hcount ▸ hs.fits
  case ids =>
    intro i hi j hj hij
    rw [hcount] at hi hj
    rw [(hlibs i).1, (hlibs j).1] at hij
    exact hs.ids i hi j hj hij
  case fresh =>
    intro i hi
    rw [hcount] at hi
    rw [(hlibs i).1, ← hu]
    exact hs.fresh i hi
  case born =>
    intro i hi
    rw [hcount] at hi
    rw [(hlibs i).2.1, ← hu]
    exact hs.born i hi
  case cache =>
    intro k hk
    rw [← hu] at hk
    obtain ⟨i, hi, howner, hiid⟩ := hs.cache k hk
    refine ⟨i, hcount ▸ hi, ?_, ?_⟩
    · rw [← hu]
      exact howner
    · rw [(hlibs i).1, ← hu]
      exact hiid

/-- The last reference to the only library goes, and nothing is left. -/
theorem Inv.unload_only (hs : Inv s) (hmem : (slot, id) ∈ s.direct) (hlast : (s.libs slot).refCount = 1)
    (honly : s.libCount = 1) : Inv (unloadLibrary slot id s) := by
  obtain ⟨hslot, hid⟩ := hs.sound.pointers _ hmem
  dsimp only at hslot hid
  obtain rfl : slot = 0 := by omega
  have hone {id' : ℕ} (h : 0 < s.refs id') : id' = id := by
    obtain ⟨i, hi, hiid⟩ := (hs.sound.loaded id').mpr h
    obtain rfl : i = 0 := by omega
    rw [← hiid, hid]
  have hrefs : s.refs id = 1 := by
    have hcount := hs.sound.counts 0 hslot
    rw [hlast, hid] at hcount
    exact_mod_cast hcount.symm
  have hcount : (unloadLibrary 0 id s).libCount = 0 := by
    simp [unloadLibrary, State.setLib, hlast, honly]
  have hdirect : (unloadLibrary 0 id s).direct = s.direct.erase (0, id) := by
    simp [unloadLibrary, State.setLib, hlast, honly]
  have hneeded : (unloadLibrary 0 id s).needed = s.needed.filter fun r => r.1 ≠ (s.libs 0).id := by
    simp [unloadLibrary, State.setLib, hlast, honly]
  have hcache (k : ℕ) : (unloadLibrary 0 id s).symCache k =
      if (s.symCache k).owner = some 0 then .zero else s.symCache k := by
    simp [unloadLibrary, State.setLib, hlast, honly]
  have hnone (id' : ℕ) : (unloadLibrary 0 id s).refs id' = 0 := by
    have herase := refs_erase hmem id'
    have hle : (unloadLibrary 0 id s).refs id' ≤ State.refs { s with direct := s.direct.erase (0, id) } id' := by
      rw [State.refs, hdirect, hneeded]
      exact Nat.add_le_add_left (List.filter_sublist.countP_le) _
    by_cases heq : id = id'
    · rw [if_pos heq, ← heq, hrefs] at herase
      rw [← heq] at hle ⊢
      omega
    · rw [if_neg heq] at herase
      by_contra hpos
      exact heq (hone (by omega)).symm
  constructor
  case sound =>
    constructor
    case pointers =>
      intro r hr
      have hpos : 0 < (unloadLibrary 0 id s).refs r.2 :=
        Nat.add_pos_left (List.countP_pos_iff.mpr ⟨r, hr, by simp⟩) _
      have hzero := hnone r.2
      omega
    case counts =>
      intro i hi
      omega
    case loaded =>
      intro id'
      rw [hnone]
      refine ⟨?_, fun h => (Nat.lt_irrefl 0 h).elim⟩
      rintro ⟨i, hi, -⟩
      omega
  case fits =>
    rw [hcount]
    decide
  case ids =>
    intro i hi
    omega
  case fresh =>
    intro i hi
    omega
  case born =>
    intro i hi
    omega
  case cache =>
    intro k hk
    rw [hcache] at hk
    split at hk
    case isTrue => exact (hk rfl).elim
    case isFalse hno =>
      obtain ⟨i, hi, howner, -⟩ := hs.cache k hk
      obtain rfl : i = 0 := by omega
      exact (hno howner).elim

theorem Inv.unload (hs : Inv s) (hmem : (slot, id) ∈ s.direct)
    (hok : (s.libs slot).refCount = 1 → s.libCount = 1) : Inv (unloadLibrary slot id s) := by
  rcases eq_or_ne (s.libs slot).refCount 1 with hlast | hmore
  · exact hs.unload_only hmem hlast (hok hlast)
  · have hpos : 0 < (s.libs slot).refCount - 1 := by
      obtain ⟨hslot, hid⟩ := hs.sound.pointers _ hmem
      have hcount := hs.sound.counts slot hslot
      have hrefs := (hs.sound.loaded _).mp ⟨slot, hslot, rfl⟩
      omega
    have heq : unloadLibrary slot id s = { s with direct := s.direct.erase (slot, id) }.setLib slot
        { s.libs slot with refCount := (s.libs slot).refCount - 1 } := if_pos hpos
    rw [heq]
    exact hs.release hmem hmore

/-! ## Runs -/

theorem toOption_some {α : Type} {x : Except Stop α} {a : α} (h : x.toOption = some a) : x = .ok a := by
  cases x with
  | error e => cases h
  | ok b => rw [Option.some.inj h]

theorem inv_of_reach (h : Reach step StepOk initState s) : Inv s := by
  refine Reach.invariant .init (fun s i t hs hok hst => ?_) h
  cases i with
  | load env path =>
    obtain ⟨r, hr, rfl⟩ := Option.map_eq_some_iff.mp hst
    exact (loadLibrary_done hs (toOption_some hr)).inv
  | lookup mem name =>
    obtain ⟨r, hr, rfl⟩ := Option.map_eq_some_iff.mp hst
    exact (hs.lookupSymbol (toOption_some hr)).inv
  | unload slot id =>
    simp only [step] at hst
    split at hst
    case isTrue hmem =>
      obtain rfl := Option.some.inj hst
      exact hs.unload hmem hok
    case isFalse => cases hst

theorem Inv.mapped (hs : Inv s) (h : Loaded s id) : Mapped s id := by
  obtain ⟨i, hi, hid⟩ := h
  exact ⟨i, hi, hid, hs.born i hi⟩

theorem Inv.load_right {env : ℕ → Attempt} {path : CStr} {r : Option ℕ × ℕ × State} (hs : Inv s)
    (hok : StepOk s (.load env path)) (h : load env path s = .ok r) : LoadRight s path r.1 r.2.2 := by
  have hdone := loadLibrary_done hs h
  refine ⟨fun i hi => ?_, hdone.same, fun hagain => ?_⟩
  · obtain ⟨hlt, hmem⟩ := hdone.slot i hi
    exact ⟨hlt, hmem rfl⟩
  · obtain ⟨hroom, hfit, hopens, hverified⟩ := hok hagain
    obtain ⟨j, hj, hname⟩ := hagain
    rw [List.take_of_length_le (by omega)] at hname
    unfold load loadLibrary at h
    dsimp only at h
    rw [if_neg (by simp [hopens, hverified]), if_neg (by omega)] at h
    split at h
    case h_2 hnone => exact (findLoaded_none hnone hj hname).elim
    case h_1 existing hfound =>
      obtain ⟨u, hu, h⟩ := bind_ok h
      obtain rfl := Except.ok.inj h
      obtain ⟨hlt, hfile⟩ := findLoaded_some hfound
      obtain ⟨-, hgrows, -, -⟩ := hs.addRef hlt hu
      exact ⟨existing, rfl, hfile, hgrows.ids existing hlt⟩

/-- In every run whose calls meet the condition the pointers denote their libraries, and these are loaded exactly as long
as they are referenced. A further load is as it should be and is stopped only by an endless chain or an overflow of a
count, a load that fails changes nothing, and the library of an address that is looked up is loaded and mapped. -/
theorem libraries_sound (s : State) (h : Reach step StepOk initState s) :
    Sound s ∧
      (∀ env path, (∀ r, load env path s = .ok r → (r.1 = none → Same s r.2.2) ∧
          (StepOk s (.load env path) → LoadRight s path r.1 r.2.2)) ∧
        ∀ e, load env path s = .error e → e = .chain ∨ e = .overflow) ∧
      ∀ mem name r, lookupSymbol mem name s = .ok r → r.1.1 ≠ 0 → Mapped s r.1.2 := by
  have hs := inv_of_reach h
  refine ⟨hs.sound, fun env path => ⟨fun r hr => ?_, fun e he => ?_⟩, fun mem name r hr haddr => ?_⟩
  · exact ⟨(loadLibrary_done hs hr).same, fun hok => hs.load_right hok hr⟩
  · have hne := loadLibrary_error hs (by omega) he
    cases e with
    | chain => exact .inl rfl
    | overflow => exact .inr rfl
    | fuel => exact (hne rfl).elim
  · obtain ⟨-, hframe, hloaded⟩ := hs.lookupSymbol hr
    have hl := hloaded haddr
    rw [hframe] at hl
    exact hs.mapped hl

/-- A file with one segment and no dynamic entries. -/
def plainFile : Attempt :=
  { opens := true
    verified := true
    phdrs := some [⟨1, 0, 4096, 0, true⟩]
    dyn := none
    mem := fun _ => ⟨fun _ => [], fun _ => 0, fun _ => ⟨0, 0, 0, 0⟩, fun _ => ⟨0, 0⟩⟩
    relocMem := fun _ => ⟨fun _ => [], fun _ => 0, fun _ => ⟨0, 0, 0, 0⟩, fun _ => ⟨0, 0⟩⟩ }

/-- `/lib/a` and `/lib/b`. -/
def pathA : CStr := libDir ++ [97]

def pathB : CStr := libDir ++ [98]

theorem libraries_sound_one :
    ∃ s, step initState (.load (fun _ => plainFile) pathA) = some s ∧ s.direct = [(0, 0)] ∧ Sound s ∧
      (∀ env path, (∀ r, load env path s = .ok r → (r.1 = none → Same s r.2.2) ∧
          (StepOk s (.load env path) → LoadRight s path r.1 r.2.2)) ∧
        ∀ e, load env path s = .error e → e = .chain ∨ e = .overflow) ∧
      ∀ mem name r, lookupSymbol mem name s = .ok r → r.1.1 ≠ 0 → Mapped s r.1.2 := by
  obtain ⟨s, hs⟩ : ∃ s, step initState (.load (fun _ => plainFile) pathA) = some s := ⟨_, rfl⟩
  have hdirect : (step initState (.load (fun _ => plainFile) pathA)).map State.direct = some [(0, 0)] := by decide
  rw [hs] at hdirect
  have hok : StepOk initState (.load (fun _ => plainFile) pathA) := by
    rintro ⟨i, hi, -⟩
    cases hi
  exact ⟨s, hs, Option.some.inj hdirect, libraries_sound s (Reach.start.step _ hok hs)⟩

/-- After two loads the first library is unloaded: the pointer to the second one is behind the table. -/
theorem unload_moves :
    ∃ s, run step initState [.load (fun _ => plainFile) pathA, .load (fun _ => plainFile) pathB, .unload 0 0] = some s ∧
      (1, 1) ∈ s.direct ∧ s.libCount = 1 ∧ (s.libs 0).id = 1 ∧ ¬ Sound s := by
  obtain ⟨s, hs⟩ : ∃ s, run step initState
      [.load (fun _ => plainFile) pathA, .load (fun _ => plainFile) pathB, .unload 0 0] = some s := ⟨_, rfl⟩
  have hview : (run step initState
      [.load (fun _ => plainFile) pathA, .load (fun _ => plainFile) pathB, .unload 0 0]).map
      (fun s => (s.direct, s.libCount, (s.libs 0).id)) = some ([(1, 1)], 1, 1) := by decide
  rw [hs, Option.map_some, Option.some.injEq, Prod.mk.injEq, Prod.mk.injEq] at hview
  obtain ⟨hdirect, hcount, hid⟩ := hview
  refine ⟨s, hs, by simp [hdirect], hcount, hid, fun hsound => ?_⟩
  have hlt := (hsound.pointers (1, 1) (by simp [hdirect])).1
  rw [hcount] at hlt
  exact Nat.lt_irrefl 1 hlt

end Ldso
