import Kenux.Ldso.Proofs.Invariant

/-!
# Lookups and loads (`arch/x86_64/ldso.c`)
-/

namespace Ldso

variable {s t : State} {slot : ℕ} {lib : Klib}

theorem bind_ok {α β : Type} {x : Except Stop α} {f : α → Except Stop β} {b : β} (h : x >>= f = .ok b) :
    ∃ a, x = .ok a ∧ f a = .ok b := by
  cases x with
  | error e => cases h
  | ok a => exact ⟨a, rfl, h⟩

/-- A step that is stopped is stopped in its first or in its second part. -/
theorem bind_error {α β : Type} {x : Except Stop α} {f : α → Except Stop β} {e : Stop} (h : x >>= f = .error e) :
    x = .error e ∨ ∃ a, x = .ok a ∧ f a = .error e := by
  cases x with
  | error e' =>
    left
    cases h
    rfl
  | ok a => exact .inr ⟨a, rfl, h⟩

/-! ## Lookups -/

/-- What a walk finds it finds in the library it walks through. -/
theorem walk_owner {mem : Memory} {name : CStr} {fuel symIdx : ℕ} {found : Found} {r : Bool × Found}
    (h : walk mem lib slot name fuel symIdx found = .ok r) : r.2 = found ∨ r.2.2 = some slot := by
  induction fuel generalizing symIdx found with
  | zero =>
    unfold walk at h
    split at h
    · exact .inl (Except.ok.inj h ▸ rfl)
    · cases h
  | succ fuel ih =>
    unfold walk at h
    split at h
    · exact .inl (Except.ok.inj h ▸ rfl)
    · dsimp only at h
      split at h
      · split at h
        · exact .inr (Except.ok.inj h ▸ rfl)
        · split at h
          · rcases ih h with heq | hslot
            · exact .inr (by rw [heq])
            · exact .inr hslot
          · exact ih h
      · exact ih h

theorem search_owner {mem : Memory} {name : CStr} {slots : List ℕ} {found r : Found}
    (h : search mem s name slots found = .ok r) : r = found ∨ ∃ slot ∈ slots, r.2 = some slot := by
  induction slots generalizing found with
  | nil => exact .inl (Except.ok.inj h).symm
  | cons slot slots ih =>
    have hrest {found' : Found} (hfound : found' = found ∨ found'.2 = some slot)
        (h : search mem s name slots found' = .ok r) : r = found ∨ ∃ i ∈ slot :: slots, r.2 = some i := by
      rcases ih h with rfl | ⟨i, hi, hr⟩
      · exact hfound.imp_right fun hslot => ⟨slot, List.mem_cons_self, hslot⟩
      · exact .inr ⟨i, List.mem_cons_of_mem _ hi, hr⟩
    unfold search at h
    dsimp only at h
    split at h
    · exact hrest (.inl rfl) h
    · obtain ⟨⟨isGlobal, found'⟩, hwalk, h⟩ := bind_ok h
      have howner := walk_owner hwalk
      dsimp only at h
      split at h
      · obtain rfl := Except.ok.inj h
        exact howner.imp_right fun hslot => ⟨slot, List.mem_cons_self, hslot⟩
      · exact hrest howner h

/-- A lookup changes the cache only, and what it finds belongs to a library of the table. -/
structure Looked (s : State) (found : ℕ × ℕ) (t : State) : Prop where
  inv : Inv t
  frame : t = { s with symCache := t.symCache }
  loaded : found.1 ≠ 0 → Loaded t found.2

theorem Inv.lookupSymbol {mem : Memory} {name : ℕ} {r : (ℕ × ℕ) × State} (hs : Inv s)
    (h : lookupSymbol mem name s = .ok r) : Looked s r.1 r.2 := by
  unfold Ldso.lookupSymbol at h
  split at h
  case isTrue =>
    obtain rfl := Except.ok.inj h
    exact ⟨hs, rfl, fun h0 => (h0 rfl).elim⟩
  case isFalse =>
    dsimp only at h
    split at h
    case isTrue hcached =>
      obtain rfl := Except.ok.inj h
      refine ⟨hs, rfl, fun _ => ?_⟩
      obtain ⟨i, hi, -, hid⟩ := hs.cache _ hcached.2.1
      exact ⟨i, hi, hid.symm⟩
    case isFalse =>
      obtain ⟨⟨addr, owner⟩, hsearch, h⟩ := bind_ok h
      dsimp only at h
      split at h
      case isFalse =>
        obtain rfl := Except.ok.inj h
        exact ⟨hs, rfl, fun h0 => (h0 rfl).elim⟩
      case isTrue haddr =>
        obtain rfl := Except.ok.inj h
        rcases search_owner hsearch with heq | ⟨i, hi, howner⟩
        · exact (haddr (Prod.mk.inj heq).1).elim
        · have hlt : i < s.libCount := List.mem_range.mp hi
          obtain rfl : owner = some i := howner
          generalize (elfHash (mem.str name)).toNat % ldsoSymCacheSize = cacheIdx
          have hinv : Inv { s with
              symCache := Function.update s.symCache cacheIdx ⟨name, addr, some i, (s.libs i).id⟩ } :=
            { sound := ⟨hs.sound.pointers, hs.sound.counts, hs.sound.loaded⟩
              fits := hs.fits
              ids := hs.ids
              fresh := hs.fresh
              born := hs.born
              cache := by
                intro k hk
                dsimp only at hk ⊢
                rcases eq_or_ne k cacheIdx with rfl | hne
                · rw [Function.update_self]
                  exact ⟨i, hlt, rfl, rfl⟩
                · rw [Function.update_of_ne hne] at hk ⊢
                  exact hs.cache k hk }
          exact ⟨hinv, rfl, fun _ => ⟨i, hlt, rfl⟩⟩

theorem Grows.of_frame (h : t = { s with symCache := t.symCache }) : Grows s t := by
  rw [h]
  exact ⟨Nat.le_refl _, fun _ _ => rfl, fun _ hr => hr⟩

/-! ## Relocations -/

theorem Inv.relocateLoop {mem : ℕ → Memory} {rels time : ℕ} {symbolic : ℕ → Bool} {is : List ℕ} (hs : Inv s)
    (h : relocateLoop mem lib rels symbolic time is s = .ok t) : Inv t ∧ t = { s with symCache := t.symCache } := by
  induction is generalizing s with
  | nil =>
    obtain rfl := Except.ok.inj h
    exact ⟨hs, rfl⟩
  | cons i is ih =>
    unfold Ldso.relocateLoop at h
    dsimp only at h
    split at h
    · obtain ⟨⟨found, u⟩, hlook, h⟩ := bind_ok h
      obtain ⟨hu, hframe, -⟩ := hs.lookupSymbol hlook
      obtain ⟨ht, hframe'⟩ := ih hu h
      refine ⟨ht, ?_⟩
      rw [hframe', hframe]
    · exact ih hs h

theorem Inv.relocate {mem : ℕ → Memory} (hs : Inv s) (h : relocate mem slot s = .ok t) : Inv t ∧ Grows s t := by
  unfold Ldso.relocate at h
  dsimp only at h
  split at h
  · obtain rfl := Except.ok.inj h
    exact ⟨hs, Grows.refl _⟩
  · obtain ⟨u, hu, h⟩ := bind_ok h
    obtain ⟨v, hv, h⟩ := bind_ok h
    obtain rfl := Except.ok.inj h
    obtain ⟨hinv, hframe⟩ := hs.relocateLoop hu
    obtain ⟨hinv', hframe'⟩ := hinv.relocateLoop hv
    refine ⟨hinv'.setLib_same rfl rfl rfl, ?_⟩
    exact ((Grows.of_frame hframe).trans (Grows.of_frame hframe')).trans (Grows.setLib v rfl)

/-! ## The new entry -/

/-- The name, the identity and the count of an entry. -/
def Klib.key (lib : Klib) : CStr × ℤ × ℕ × ℕ := (lib.name, lib.refCount, lib.id, lib.born)

theorem parseDynamic_key (mem : Memory) (ds : List Dyn) (lib : Klib) : (parseDynamic mem ds lib).key = lib.key := by
  induction ds generalizing lib with
  | nil => rfl
  | cons d ds ih =>
    unfold parseDynamic
    split
    · rfl
    · rw [ih]
      dsimp only [Klib.key]
      split_ifs <;> rfl

theorem readLib_key {a : Attempt} {lib lib' : Klib} {dyn : List Dyn} (h : readLib a lib = .inr (lib', dyn)) :
    lib'.key = lib.key := by
  unfold readLib at h
  split at h
  · cases h
  · dsimp only at h
    split at h
    · cases h
    · split at h
      · cases h
      · split at h
        · split at h
          · cases h
          · obtain ⟨rfl, -⟩ := Prod.mk.inj (Sum.inr.inj h)
            exact parseDynamic_key _ _ _
        · obtain ⟨rfl, -⟩ := Prod.mk.inj (Sum.inr.inj h)
          rfl

/-! ## Loads -/

theorem findLoaded_some {path : CStr} (h : findLoaded path s = some slot) :
    slot < s.libCount ∧ fileName (s.libs slot).name = fileName path := by
  have hname := List.find?_some h
  exact ⟨List.mem_range.mp (List.mem_of_find?_eq_some h), by simpa using hname⟩

theorem findLoaded_none {path : CStr} (h : findLoaded path s = none) {i : ℕ} (hi : i < s.libCount) :
    fileName (s.libs i).name ≠ fileName path := by
  have hno := List.find?_eq_none.mp h i (List.mem_range.mpr hi)
  simpa using hno

/-- What a load does: it gives a pointer to an entry and takes a reference, or changes nothing. -/
structure LoadDone (holder : Option ℕ) (s : State) (r : Option ℕ) (t : State) : Prop where
  inv : Inv t
  grows : Grows s t
  slot : ∀ i, r = some i → i < t.libCount ∧ (holder = none → (i, (t.libs i).id) ∈ t.direct)
  same : r = none → Same s t

/-- The function loads as `ldso_load_library` should. -/
def Loads (load : CStr → ℕ × State → Except Stop (Option ℕ × ℕ × State)) : Prop :=
  ∀ path ks r, Inv ks.2 → load path ks = .ok r → Inv r.2.2 ∧ Grows ks.2 r.2.2

theorem loadDependencies_done {load : CStr → ℕ × State → Except Stop (Option ℕ × ℕ × State)} {mem : ℕ → Memory} {i : ℕ}
    {ds : List Dyn} {ks r : ℕ × State} (hload : Loads load) (hs : Inv ks.2)
    (h : loadDependencies load mem slot i ds ks = .ok r) : Inv r.2 ∧ Grows ks.2 r.2 := by
  induction ds generalizing i ks with
  | nil =>
    obtain rfl := Except.ok.inj h
    exact ⟨hs, Grows.refl _⟩
  | cons d ds ih =>
    unfold loadDependencies at h
    split at h
    · obtain rfl := Except.ok.inj h
      exact ⟨hs, Grows.refl _⟩
    · split at h
      · split at h
        · exact ih hs h
        · split at h
          case h_1 existing hfound =>
            obtain ⟨u, hu, h⟩ := bind_ok h
            obtain ⟨hinv, hgrows, -, -⟩ := hs.addRef (findLoaded_some hfound).1 hu
            have hks : Inv (ks.1, u).2 := hinv
            obtain ⟨hr, hgrows'⟩ := ih hks h
            exact ⟨hr, hgrows.trans hgrows'⟩
          case h_2 =>
            obtain ⟨u, hu, h⟩ := bind_ok h
            obtain ⟨hinv, hgrows⟩ := hload _ _ _ hs hu
            obtain ⟨hr, hgrows'⟩ := ih hinv h
            exact ⟨hr, hgrows.trans hgrows'⟩
      · exact ih hs h

theorem loadLibrary_done {env : ℕ → Attempt} {fuel k : ℕ} {holder : Option ℕ} {path : CStr} {r : Option ℕ × ℕ × State}
    (hs : Inv s) (h : loadLibrary fuel env holder path (k, s) = .ok r) : LoadDone holder s r.1 r.2.2 := by
  induction fuel generalizing k s holder path r with
  | zero => cases h
  | succ fuel ih =>
    have hsame : LoadDone holder s none s := ⟨hs, Grows.refl _, by simp, fun _ => ⟨rfl, fun _ _ => rfl, rfl, rfl⟩⟩
    have hloads (id : ℕ) : Loads (loadLibrary fuel env (some id)) := by
      intro path ks r hinv hr
      have hdone := ih hinv hr
      exact ⟨hdone.inv, hdone.grows⟩
    unfold loadLibrary at h
    dsimp only at h
    split at h
    · obtain rfl := Except.ok.inj h
      exact hsame
    · split at h
      · obtain rfl := Except.ok.inj h
        exact hsame
      case isFalse hroom =>
        split at h
        case h_1 existing hfound =>
          obtain ⟨u, hu, h⟩ := bind_ok h
          obtain rfl := Except.ok.inj h
          obtain ⟨hlt, -⟩ := findLoaded_some hfound
          obtain ⟨hinv, hgrows, hcount, hdirect⟩ := hs.addRef hlt hu
          refine ⟨hinv, hgrows, fun i hi => ?_, fun hno => by cases hno⟩
          obtain rfl := Option.some.inj hi
          exact ⟨hcount ▸ hlt, hdirect⟩
        case h_2 =>
          split at h
          case h_1 lib hlib =>
            -- what is left in the entry is behind those in use
            obtain rfl := Except.ok.inj h
            refine ⟨hs.setLib_unused (Nat.le_refl _) lib, ?_, by simp, fun _ => ?_⟩
            · exact ⟨Nat.le_refl _, fun i hi => by rw [setLib_ne s lib (by omega)], fun _ hr => hr⟩
            · exact ⟨rfl, fun i hi => setLib_ne s lib (by omega), rfl, rfl⟩
          case h_2 lib dyn hlib =>
            obtain ⟨ks, hks, h⟩ := bind_ok h
            obtain ⟨u, hu, h⟩ := bind_ok h
            obtain rfl := Except.ok.inj h
            have hkey := readLib_key hlib
            simp only [Klib.key, newLib, Prod.mk.injEq] at hkey
            obtain ⟨-, href, hid, hborn⟩ := hkey
            have howed := hs.push (by omega) hid href hborn
            obtain ⟨hinv, hgrows⟩ := loadDependencies_done (hloads lib.id) (howed.hold holder) hks
            obtain ⟨hinv', hgrows'⟩ := hinv.relocate hu
            have hall := (hgrows.trans hgrows')
            refine ⟨hinv', ((Grows.push s lib).trans (Grows.hold _ _ _)).trans hall, fun i hi => ?_, fun hno => by cases hno⟩
            obtain rfl := Option.some.inj hi
            have hlt : s.libCount < ((s.push lib).hold holder s.libCount).libCount := by
              rw [hold_libCount]
              exact Nat.lt_succ_self _
            refine ⟨hlt.trans_le hall.libCount, ?_⟩
            rintro rfl
            rw [hall.ids _ hlt]
            exact hall.direct _ (mem_hold _ _)

/-! ## How a call is stopped -/

theorem walk_error {mem : Memory} {name : CStr} {fuel symIdx : ℕ} {found : Found} {e : Stop}
    (h : walk mem lib slot name fuel symIdx found = .error e) : e = .chain := by
  induction fuel generalizing symIdx found with
  | zero =>
    unfold walk at h
    split at h
    · cases h
    · exact (Except.error.inj h).symm
  | succ fuel ih =>
    unfold walk at h
    split at h
    · cases h
    · dsimp only at h
      split at h
      · split at h
        · cases h
        · split at h
          · exact ih h
          · exact ih h
      · exact ih h

theorem search_error {mem : Memory} {name : CStr} {slots : List ℕ} {found : Found} {e : Stop}
    (h : search mem s name slots found = .error e) : e = .chain := by
  induction slots generalizing found with
  | nil => cases h
  | cons slot slots ih =>
    unfold search at h
    dsimp only at h
    split at h
    · exact ih h
    · rcases bind_error h with hwalk | ⟨⟨isGlobal, found'⟩, -, h⟩
      · exact walk_error hwalk
      · dsimp only at h
        split at h
        · cases h
        · exact ih h

theorem lookupSymbol_error {mem : Memory} {name : ℕ} {e : Stop} (h : lookupSymbol mem name s = .error e) :
    e = .chain := by
  unfold lookupSymbol at h
  split at h
  · cases h
  · dsimp only at h
    split at h
    · cases h
    · rcases bind_error h with hsearch | ⟨⟨addr, owner⟩, -, h⟩
      · exact search_error hsearch
      · dsimp only at h
        split at h <;> cases h

theorem relocateLoop_error {mem : ℕ → Memory} {rels time : ℕ} {symbolic : ℕ → Bool} {is : List ℕ} {e : Stop}
    (h : relocateLoop mem lib rels symbolic time is s = .error e) : e = .chain := by
  induction is generalizing s with
  | nil => cases h
  | cons i is ih =>
    unfold relocateLoop at h
    dsimp only at h
    split at h
    · rcases bind_error h with hlook | ⟨r, -, h⟩
      · exact lookupSymbol_error hlook
      · exact ih h
    · exact ih h

theorem relocate_error {mem : ℕ → Memory} {e : Stop} (h : relocate mem slot s = .error e) : e = .chain := by
  unfold relocate at h
  dsimp only at h
  split at h
  · cases h
  · rcases bind_error h with hu | ⟨u, -, h⟩
    · exact relocateLoop_error hu
    · rcases bind_error h with hv | ⟨v, -, h⟩
      · exact relocateLoop_error hv
      · cases h

theorem addRef_error {holder : Option ℕ} {e : Stop} (h : addRef holder slot s = .error e) : e = .overflow := by
  unfold addRef at h
  split at h
  · exact (Except.error.inj h).symm
  · cases h

theorem loadDependencies_error {load : CStr → ℕ × State → Except Stop (Option ℕ × ℕ × State)} {mem : ℕ → Memory}
    {i n : ℕ} {ds : List Dyn} {ks : ℕ × State} {e : Stop} (hload : Loads load)
    (hfuel : ∀ path ks e, Inv ks.2 → n ≤ ks.2.libCount → load path ks = .error e → e ≠ .fuel)
    (hs : Inv ks.2) (hn : n ≤ ks.2.libCount) (h : loadDependencies load mem slot i ds ks = .error e) : e ≠ .fuel := by
  induction ds generalizing i ks with
  | nil => cases h
  | cons d ds ih =>
    unfold loadDependencies at h
    split at h
    · cases h
    · split at h
      · split at h
        · exact ih hs hn h
        · split at h
          case h_1 existing hfound =>
            rcases bind_error h with hu | ⟨u, hu, h⟩
            · rw [addRef_error hu]
              decide
            · obtain ⟨hinv, hgrows, -, -⟩ := hs.addRef (findLoaded_some hfound).1 hu
              have hks : Inv (ks.1, u).2 := hinv
              exact ih hks (hn.trans hgrows.libCount) h
          case h_2 =>
            rcases bind_error h with hu | ⟨u, hu, h⟩
            · exact hfuel _ ks e hs hn hu
            · obtain ⟨hinv, hgrows⟩ := hload _ _ _ hs hu
              exact ih hinv (hn.trans hgrows.libCount) h
      · exact ih hs hn h

/-- Each nested load has one entry more before it, so there are no more than there is room for. -/
theorem loadLibrary_error {env : ℕ → Attempt} {fuel k : ℕ} {holder : Option ℕ} {path : CStr} {e : Stop} (hs : Inv s)
    (hfuel : ldsoMaxLibs < fuel + s.libCount) (h : loadLibrary fuel env holder path (k, s) = .error e) : e ≠ .fuel := by
  induction fuel generalizing k s holder path e with
  | zero =>
    have hfits := hs.fits
    omega
  | succ fuel ih =>
    unfold loadLibrary at h
    dsimp only at h
    split at h
    · cases h
    · split at h
      · cases h
      case isFalse hroom =>
        split at h
        · rcases bind_error h with hu | ⟨u, -, h⟩
          · rw [addRef_error hu]
            decide
          · cases h
        · split at h
          · cases h
          case h_2 lib dyn hlib =>
            have hkey := readLib_key hlib
            simp only [Klib.key, newLib, Prod.mk.injEq] at hkey
            obtain ⟨-, href, hid, hborn⟩ := hkey
            have howed := hs.push (by omega) hid href hborn
            rcases bind_error h with hks | ⟨ks, -, h⟩
            · refine loadDependencies_error (n := s.libCount + 1) ?_ ?_ (howed.hold holder) ?_ hks
              · intro path ks r hinv hr
                have hdone := loadLibrary_done hinv hr
                exact ⟨hdone.inv, hdone.grows⟩
              · intro path ks e hinv hn he
                exact ih hinv (by omega) he
              · rw [hold_libCount]
                exact Nat.le_refl _
            · rcases bind_error h with hu | ⟨u, -, h⟩
              · rw [relocate_error hu]
                decide
              · cases h

end Ldso
