import Kenux.Ldso.Model
import Kenux.Lib.Count
import Mathlib.Order.Interval.Finset.Nat

/-!
# Looking up symbols

The tables of a library are built by the hash function of the ABI, which folds the upper four bits of the number into
the lower ones. `ldso_elf_hash` does not fold: a lookup sees the libraries where both give the name the same bucket. A
chain of numbers from the file need not end.
-/

namespace Ldso

/-- The hash function of the System V ABI. -/
def sysvHash (name : CStr) : UInt32 :=
  name.foldl
    (fun h c =>
      let h := (h <<< 4) + c.toUInt32
      let g := h &&& 0xF0000000
      let h := if g ≠ 0 then h ^^^ (g >>> 24) else h
      h &&& ~~~g)
    0

/-! ## Tables -/

/-- The symbol at an index. -/
def symAt (mem : Memory) (lib : Klib) (i : ℕ) : Sym := mem.sym (lib.symtab + 24 * i)

def bucketAt (mem : Memory) (lib : Klib) (b : ℕ) : ℕ := mem.u32 (lib.hash + 8 + 4 * b)

def chainAt (mem : Memory) (lib : Klib) (i : ℕ) : ℕ := mem.u32 (lib.hash + 8 + 4 * lib.hashNbucket + 4 * i)

def nameAt (mem : Memory) (lib : Klib) (i : ℕ) : CStr := mem.str (lib.strtab + (symAt mem lib i).name)

def addrAt (mem : Memory) (lib : Klib) (i : ℕ) : ℕ := (lib.baseAddr + (symAt mem lib i).value) % 2 ^ 64

/-- An index of a symbol; 0 is the end of a chain. -/
def Inside (lib : Klib) (i : ℕ) : Prop := ¬(i = 0 ∨ lib.symCount ≤ i)

instance (lib : Klib) (i : ℕ) : Decidable (Inside lib i) := inferInstanceAs (Decidable ¬(_ ∨ _))

/-- The symbol defines the name. -/
def Defines (mem : Memory) (lib : Klib) (name : CStr) (i : ℕ) : Prop :=
  (symAt mem lib i).shndx ≠ 0 ∧ (symAt mem lib i).name ≠ 0 ∧ nameAt mem lib i = name

instance (mem : Memory) (lib : Klib) (name : CStr) (i : ℕ) : Decidable (Defines mem lib name i) :=
  inferInstanceAs (Decidable (_ ∧ _ ∧ _))

def HasTable (lib : Klib) : Prop := ¬(lib.symtab = 0 ∨ lib.hash = 0 ∨ lib.hashNbucket = 0)

instance (lib : Klib) : Decidable (HasTable lib) := inferInstanceAs (Decidable ¬(_ ∨ _ ∨ _))

/-- A chain, from an index on. -/
inductive Chain (mem : Memory) (lib : Klib) : ℕ → List ℕ → Prop where
  | nil : Chain mem lib 0 []
  | cons {i : ℕ} {l : List ℕ} (hin : Inside lib i) (hrest : Chain mem lib (chainAt mem lib i) l) :
      Chain mem lib i (i :: l)

/-- The tables of the libraries as they are built: for each library and bucket a chain of the symbols whose names belong
there. -/
structure Tables (mem : Memory) (s : State) where
  chain : ℕ → ℕ → List ℕ
  walks : ∀ slot < s.libCount, HasTable (s.libs slot) → ∀ b < (s.libs slot).hashNbucket,
    Chain mem (s.libs slot) (bucketAt mem (s.libs slot) b) (chain slot b)
  sound : ∀ slot < s.libCount, HasTable (s.libs slot) → ∀ b < (s.libs slot).hashNbucket, ∀ i ∈ chain slot b,
    (sysvHash (nameAt mem (s.libs slot) i)).toNat % (s.libs slot).hashNbucket = b
  complete : ∀ slot < s.libCount, HasTable (s.libs slot) → ∀ i, Inside (s.libs slot) i →
    Defines mem (s.libs slot) (nameAt mem (s.libs slot) i) i →
      i ∈ chain slot ((sysvHash (nameAt mem (s.libs slot) i)).toNat % (s.libs slot).hashNbucket)

/-- The kinds and addresses of the symbols of a chain that define the name. -/
def definitions (mem : Memory) (lib : Klib) (name : CStr) (l : List ℕ) : List (ℕ × ℕ) :=
  (l.filter fun i => Defines mem lib name i).map fun i => ((symAt mem lib i).bind, addrAt mem lib i)

/-- The first global definition, or else the first weak one, or else 0. -/
def pick (ds : List (ℕ × ℕ)) : ℕ :=
  match ds.find? fun d => d.1 = stbGlobal with
  | some d => d.2
  | none => ((ds.find? fun d => d.1 = stbWeak).map Prod.snd).getD 0

/-- The same where weak definitions at 0 are passed over. -/
def pickNonzero (ds : List (ℕ × ℕ)) : ℕ :=
  match ds.find? fun d => d.1 = stbGlobal with
  | some d => d.2
  | none => ((ds.find? fun d => d.1 = stbWeak ∧ d.2 ≠ 0).map Prod.snd).getD 0

variable {mem : Memory} {s : State} {lib : Klib} {name : CStr} {slot i fuel : ℕ} {found : Found} {l : List ℕ}

/-- The definitions of a name in a library. -/
def Tables.definitionsIn (T : Tables mem s) (name : CStr) (slot : ℕ) : List (ℕ × ℕ) :=
  if HasTable (s.libs slot) then
    definitions mem (s.libs slot) name (T.chain slot ((sysvHash name).toNat % (s.libs slot).hashNbucket))
  else []

/-- What the lookup of a name is to return. -/
def Tables.answer (T : Tables mem s) (name : CStr) : ℕ :=
  pick ((List.range s.libCount).flatMap (T.definitionsIn name))

/-- Both hash functions give the name the same bucket. -/
def SameBucket (lib : Klib) (name : CStr) : Prop :=
  (elfHash name).toNat % lib.hashNbucket = (sysvHash name).toNat % lib.hashNbucket

instance (lib : Klib) (name : CStr) : Decidable (SameBucket lib name) := inferInstanceAs (Decidable (_ = _))

/-- The definitions in the libraries where the buckets are the same. -/
def Tables.seen (T : Tables mem s) (name : CStr) : List (ℕ × ℕ) :=
  (List.range s.libCount).flatMap fun slot => if SameBucket (s.libs slot) name then T.definitionsIn name slot else []

theorem Chain.inside {start : ℕ} (h : Chain mem lib start l) (hi : i ∈ l) : Inside lib i := by
  induction h with
  | nil => exact absurd hi List.not_mem_nil
  | cons hin _ ih =>
    rcases List.mem_cons.mp hi with rfl | hi
    · exact hin
    · exact ih hi

theorem HasTable.bucket_lt (h : HasTable lib) (hash : UInt32) : hash.toNat % lib.hashNbucket < lib.hashNbucket :=
  Nat.mod_lt _ (Nat.pos_of_ne_zero fun hzero => h (.inr (.inr hzero)))

theorem mem_definitions {d : ℕ × ℕ} : d ∈ definitions mem lib name l ↔
    ∃ i ∈ l, Defines mem lib name i ∧ d = ((symAt mem lib i).bind, addrAt mem lib i) := by
  unfold definitions
  simp only [List.mem_map, List.mem_filter, decide_eq_true_eq]
  constructor
  · rintro ⟨i, ⟨hi, hdefines⟩, rfl⟩
    exact ⟨i, hi, hdefines, rfl⟩
  · rintro ⟨i, hi, hdefines, rfl⟩
    exact ⟨i, ⟨hi, hdefines⟩, rfl⟩

/-- The definitions of a name are those of all symbols. -/
theorem Tables.mem_definitionsIn (T : Tables mem s) (hslot : slot < s.libCount) (htable : HasTable (s.libs slot))
    {d : ℕ × ℕ} : d ∈ T.definitionsIn name slot ↔ ∃ i, Inside (s.libs slot) i ∧ Defines mem (s.libs slot) name i ∧
      d = ((symAt mem (s.libs slot) i).bind, addrAt mem (s.libs slot) i) := by
  unfold Tables.definitionsIn
  rw [if_pos htable, mem_definitions]
  constructor
  · rintro ⟨i, hi, hdefines, rfl⟩
    exact ⟨i, (T.walks slot hslot htable _ (htable.bucket_lt _)).inside hi, hdefines, rfl⟩
  · rintro ⟨i, hin, hdefines, rfl⟩
    obtain ⟨hshndx, hnamed, rfl⟩ := hdefines
    exact ⟨i, T.complete slot hslot htable i hin ⟨hshndx, hnamed, rfl⟩, ⟨hshndx, hnamed, rfl⟩, rfl⟩

/-- In the bucket that `ldso_elf_hash` gives, a name is defined only if it is the bucket of the name. -/
theorem Tables.definitions_elfHash (T : Tables mem s) (hslot : slot < s.libCount) (htable : HasTable (s.libs slot)) :
    definitions mem (s.libs slot) name (T.chain slot ((elfHash name).toNat % (s.libs slot).hashNbucket)) =
      if SameBucket (s.libs slot) name then T.definitionsIn name slot else [] := by
  unfold Tables.definitionsIn
  rw [if_pos htable]
  split_ifs with hsame
  · rw [hsame]
  · apply List.eq_nil_iff_forall_not_mem.mpr
    intro d hd
    obtain ⟨i, hi, ⟨-, -, rfl⟩, -⟩ := mem_definitions.mp hd
    exact hsame (T.sound slot hslot htable _ (htable.bucket_lt _) i hi).symm

/-! ## What a lookup takes -/

/-- The address so far, after a definition that is not global. -/
def takeWeak (d : ℕ × ℕ) (a : ℕ) : ℕ := if d.1 = stbWeak ∧ a = 0 then d.2 else a

/-- The address so far, after definitions. -/
def takeAddr : List (ℕ × ℕ) → ℕ → ℕ
  | [], a => a
  | d :: ds, a => if d.1 = stbGlobal then d.2 else takeAddr ds (takeWeak d a)

variable {ds ds' : List (ℕ × ℕ)} {a : ℕ} {d : ℕ × ℕ}

theorem takeAddr_global (h : d.1 = stbGlobal) : takeAddr (d :: ds) a = d.2 := if_pos h

theorem takeAddr_other (h : d.1 ≠ stbGlobal) : takeAddr (d :: ds) a = takeAddr ds (takeWeak d a) := if_neg h

theorem takeAddr_append : takeAddr (ds ++ ds') a =
    if ∃ d ∈ ds, d.1 = stbGlobal then takeAddr ds a else takeAddr ds' (takeAddr ds a) := by
  induction ds generalizing a with
  | nil =>
    rw [if_neg (by simp)]
    rfl
  | cons d ds ih =>
    by_cases hglobal : d.1 = stbGlobal
    · rw [List.cons_append, takeAddr_global hglobal, takeAddr_global hglobal, if_pos ⟨d, List.mem_cons_self, hglobal⟩]
    · have hexists : (∃ d' ∈ d :: ds, d'.1 = stbGlobal) ↔ ∃ d' ∈ ds, d'.1 = stbGlobal := by
        simp only [List.exists_mem_cons_iff, hglobal, false_or]
      rw [List.cons_append, takeAddr_other hglobal, takeAddr_other hglobal, ih, if_congr hexists rfl rfl]

/-- The address so far, or else the first weak definition that is not at 0. -/
def weakFrom (ds : List (ℕ × ℕ)) (a : ℕ) : ℕ :=
  if a = 0 then ((ds.find? fun d => d.1 = stbWeak ∧ d.2 ≠ 0).map Prod.snd).getD 0 else a

theorem weakFrom_cons : weakFrom (d :: ds) a = weakFrom ds (takeWeak d a) := by
  unfold weakFrom
  by_cases ha : a = 0
  · by_cases hweak : d.1 = stbWeak
    · have htake : takeWeak d a = d.2 := if_pos ⟨hweak, ha⟩
      by_cases hd : d.2 = 0
      · rw [List.find?_cons_of_neg (by simp [hd]), htake, if_pos ha, if_pos hd]
      · rw [List.find?_cons_of_pos (by simp [hweak, hd]), htake, if_pos ha, if_neg hd]
        rfl
    · have htake : takeWeak d a = a := if_neg fun hand => hweak hand.1
      rw [List.find?_cons_of_neg (by simp [hweak]), htake]
  · have htake : takeWeak d a = a := if_neg fun hand => ha hand.2
    rw [htake, if_neg ha, if_neg ha]

theorem takeAddr_eq : takeAddr ds a =
    match ds.find? fun d => d.1 = stbGlobal with
    | some d => d.2
    | none => weakFrom ds a := by
  induction ds generalizing a with
  | nil =>
    unfold takeAddr weakFrom
    split_ifs with ha
    · exact ha
    · rfl
  | cons d ds ih =>
    by_cases hglobal : d.1 = stbGlobal
    · rw [takeAddr_global hglobal, List.find?_cons_of_pos (by simpa using hglobal)]
    · rw [takeAddr_other hglobal, ih, List.find?_cons_of_neg (by simpa using hglobal), weakFrom_cons]

theorem takeAddr_zero : takeAddr ds 0 = pickNonzero ds := takeAddr_eq

/-! ## Chains -/

def Global (mem : Memory) (lib : Klib) (name : CStr) (i : ℕ) : Prop :=
  Defines mem lib name i ∧ (symAt mem lib i).bind = stbGlobal

instance (mem : Memory) (lib : Klib) (name : CStr) (i : ℕ) : Decidable (Global mem lib name i) :=
  inferInstanceAs (Decidable (_ ∧ _))

/-- What is found after the symbol at `i`, if that one is not a global definition. -/
def afterSym (mem : Memory) (lib : Klib) (slot : ℕ) (name : CStr) (i : ℕ) (found : Found) : Found :=
  if Defines mem lib name i ∧ (symAt mem lib i).bind = stbWeak ∧ found.1 = 0 then (addrAt mem lib i, some slot) else found

theorem walk_outside (h : ¬Inside lib i) : walk mem lib slot name fuel i found = .ok (false, found) := by
  unfold walk
  exact if_pos (not_not.mp h)

theorem walk_zero (h : Inside lib i) : walk mem lib slot name 0 i found = .error .chain := by
  unfold walk
  exact if_neg h

theorem walk_inside (h : Inside lib i) : walk mem lib slot name (fuel + 1) i found =
    if Defines mem lib name i then
      if (symAt mem lib i).bind = stbGlobal then .ok (true, addrAt mem lib i, some slot)
      else if (symAt mem lib i).bind = stbWeak ∧ found.1 = 0 then
        walk mem lib slot name fuel (chainAt mem lib i) (addrAt mem lib i, some slot)
      else walk mem lib slot name fuel (chainAt mem lib i) found
    else walk mem lib slot name fuel (chainAt mem lib i) found := by
  rw [walk, if_neg h]
  rfl

theorem walk_global (h : Inside lib i) (hglobal : Global mem lib name i) :
    walk mem lib slot name (fuel + 1) i found = .ok (true, addrAt mem lib i, some slot) := by
  rw [walk_inside h, if_pos hglobal.1, if_pos hglobal.2]

theorem walk_next (h : Inside lib i) (hglobal : ¬Global mem lib name i) :
    walk mem lib slot name (fuel + 1) i found =
      walk mem lib slot name fuel (chainAt mem lib i) (afterSym mem lib slot name i found) := by
  unfold afterSym
  rw [walk_inside h]
  by_cases hdefines : Defines mem lib name i
  · have hother : (symAt mem lib i).bind ≠ stbGlobal := fun hbind => hglobal ⟨hdefines, hbind⟩
    rw [if_pos hdefines, if_neg hother]
    by_cases hweak : (symAt mem lib i).bind = stbWeak ∧ found.1 = 0
    · rw [if_pos hweak, if_pos ⟨hdefines, hweak⟩]
    · rw [if_neg hweak, if_neg fun hand => hweak hand.2]
  · rw [if_neg hdefines, if_neg fun hand => hdefines hand.1]

/-- What is found along a chain that ends. -/
theorem walk_chain {start : ℕ} {r : Bool × Found} (hchain : Chain mem lib start l)
    (h : walk mem lib slot name fuel start found = .ok r) :
    r.2.1 = takeAddr (definitions mem lib name l) found.1 ∧
      (r.1 = true ↔ ∃ d ∈ definitions mem lib name l, d.1 = stbGlobal) := by
  induction hchain generalizing fuel found with
  | nil =>
    rw [walk_outside fun hin => hin (.inl rfl)] at h
    obtain rfl := Except.ok.inj h
    exact ⟨rfl, iff_of_false Bool.false_ne_true (by simp [definitions])⟩
  | @cons i l hin _ ih =>
    cases fuel with
    | zero =>
      rw [walk_zero hin] at h
      cases h
    | succ fuel =>
      by_cases hglobal : Global mem lib name i
      · have hcons : definitions mem lib name (i :: l) =
            ((symAt mem lib i).bind, addrAt mem lib i) :: definitions mem lib name l := by
          unfold definitions
          rw [List.filter_cons_of_pos (by simpa using hglobal.1), List.map_cons]
        rw [walk_global hin hglobal] at h
        obtain rfl := Except.ok.inj h
        rw [hcons, takeAddr_global hglobal.2]
        exact ⟨rfl, iff_of_true rfl ⟨_, List.mem_cons_self, hglobal.2⟩⟩
      · rw [walk_next hin hglobal] at h
        obtain ⟨haddr, hany⟩ := ih h
        by_cases hdefines : Defines mem lib name i
        · have hother : (symAt mem lib i).bind ≠ stbGlobal := fun hbind => hglobal ⟨hdefines, hbind⟩
          have hcons : definitions mem lib name (i :: l) =
              ((symAt mem lib i).bind, addrAt mem lib i) :: definitions mem lib name l := by
            unfold definitions
            rw [List.filter_cons_of_pos (by simpa using hdefines), List.map_cons]
          have hafter : (afterSym mem lib slot name i found).1 =
              takeWeak ((symAt mem lib i).bind, addrAt mem lib i) found.1 := by
            unfold afterSym takeWeak
            by_cases hweak : (symAt mem lib i).bind = stbWeak ∧ found.1 = 0
            · rw [if_pos ⟨hdefines, hweak⟩, if_pos hweak]
            · rw [if_neg fun hand => hweak hand.2, if_neg hweak]
          rw [hcons, takeAddr_other hother, ← hafter, haddr, hany]
          simp only [List.exists_mem_cons_iff, hother, false_or, true_and]
        · have hskip : definitions mem lib name (i :: l) = definitions mem lib name l := by
            unfold definitions
            rw [List.filter_cons_of_neg (by simpa using hdefines)]
          have hafter : afterSym mem lib slot name i found = found := if_neg fun hand => hdefines hand.1
          rw [hafter] at haddr
          rw [hskip]
          exact ⟨haddr, hany⟩

/-! ## The way along a chain -/

/-- The index where a walk is after `k` symbols. -/
def reach (mem : Memory) (lib : Klib) (start k : ℕ) : ℕ := (chainAt mem lib)^[k] start

/-- The walk comes to the end of the chain or to a global definition. -/
def ChainEnds (mem : Memory) (lib : Klib) (name : CStr) (start : ℕ) : Prop :=
  ∃ k, ¬Inside lib (reach mem lib start k) ∨ Global mem lib name (reach mem lib start k)

/-- The walk comes to a global definition. -/
def FindsGlobal (mem : Memory) (lib : Klib) (name : CStr) (start : ℕ) : Prop :=
  ∃ k, (∀ j ≤ k, Inside lib (reach mem lib start j)) ∧ Global mem lib name (reach mem lib start k)

variable {start : ℕ}

theorem chainEnds_next (hin : Inside lib start) (hglobal : ¬Global mem lib name start) :
    ChainEnds mem lib name start ↔ ChainEnds mem lib name (chainAt mem lib start) := by
  constructor
  · rintro ⟨k, hk⟩
    cases k with
    | zero => exact absurd hk (not_or.mpr ⟨not_not.mpr hin, hglobal⟩)
    | succ k => exact ⟨k, hk⟩
  · rintro ⟨k, hk⟩
    exact ⟨k + 1, hk⟩

theorem findsGlobal_next (hin : Inside lib start) (hglobal : ¬Global mem lib name start) :
    FindsGlobal mem lib name start ↔ FindsGlobal mem lib name (chainAt mem lib start) := by
  constructor
  · rintro ⟨k, hinside, hk⟩
    cases k with
    | zero => exact absurd hk hglobal
    | succ k => exact ⟨k, fun j hj => hinside (j + 1) (Nat.succ_le_succ hj), hk⟩
  · rintro ⟨k, hinside, hk⟩
    refine ⟨k + 1, fun j hj => ?_, hk⟩
    cases j with
    | zero => exact hin
    | succ j => exact hinside j (Nat.le_of_succ_le_succ hj)

/-- A walk that returns has come to an end. -/
theorem walk_ok {r : Bool × Found} (h : walk mem lib slot name fuel start found = .ok r) :
    ChainEnds mem lib name start ∧ (r.1 = true ↔ FindsGlobal mem lib name start) := by
  induction fuel generalizing start found with
  | zero =>
    by_cases hin : Inside lib start
    · rw [walk_zero hin] at h
      cases h
    · rw [walk_outside hin] at h
      obtain rfl := Except.ok.inj h
      exact ⟨⟨0, .inl hin⟩, iff_of_false Bool.false_ne_true fun ⟨k, hinside, _⟩ => hin (hinside 0 (Nat.zero_le k))⟩
  | succ fuel ih =>
    by_cases hin : Inside lib start
    · by_cases hglobal : Global mem lib name start
      · rw [walk_global hin hglobal] at h
        obtain rfl := Except.ok.inj h
        refine ⟨⟨0, .inr hglobal⟩, iff_of_true rfl ⟨0, fun j hj => ?_, hglobal⟩⟩
        obtain rfl := Nat.le_zero.mp hj
        exact hin
      · rw [walk_next hin hglobal] at h
        rw [chainEnds_next hin hglobal, findsGlobal_next hin hglobal]
        exact ih h
    · rw [walk_outside hin] at h
      obtain rfl := Except.ok.inj h
      exact ⟨⟨0, .inl hin⟩, iff_of_false Bool.false_ne_true fun ⟨k, hinside, _⟩ => hin (hinside 0 (Nat.zero_le k))⟩

theorem walk_runs_on {e : Stop} (h : walk mem lib slot name fuel start found = .error e) :
    ∀ k ≤ fuel, Inside lib (reach mem lib start k) ∧ (k < fuel → ¬Global mem lib name (reach mem lib start k)) := by
  induction fuel generalizing start found with
  | zero =>
    have hin : Inside lib start := by
      by_contra hout
      rw [walk_outside hout] at h
      cases h
    intro k hk
    obtain rfl := Nat.le_zero.mp hk
    exact ⟨hin, fun hlt => absurd hlt (Nat.lt_irrefl 0)⟩
  | succ fuel ih =>
    have hin : Inside lib start := by
      by_contra hout
      rw [walk_outside hout] at h
      cases h
    have hglobal : ¬Global mem lib name start := by
      intro hfound
      rw [walk_global hin hfound] at h
      cases h
    rw [walk_next hin hglobal] at h
    intro k hk
    cases k with
    | zero => exact ⟨hin, fun _ => hglobal⟩
    | succ k =>
      obtain ⟨hinside, hnone⟩ := ih h k (Nat.le_of_succ_le_succ hk)
      exact ⟨hinside, fun hlt => hnone (Nat.lt_of_succ_lt_succ hlt)⟩

/-- A walk as long as the table that has not ended never ends. -/
theorem walk_ends_iff : (∃ r, walk mem lib slot name lib.symCount start found = .ok r) ↔
    ChainEnds mem lib name start := by
  constructor
  · rintro ⟨r, hr⟩
    exact (walk_ok hr).1
  · rintro ⟨k, hk⟩
    cases hrun : walk mem lib slot name lib.symCount start found with
    | ok r => exact ⟨r, rfl⟩
    | error e =>
      have hsteps := walk_runs_on hrun
      let places := (Finset.Ioo 0 lib.symCount).filter fun i => ¬Global mem lib name i
      have hcard : places.card ≤ lib.symCount - 1 := by
        calc places.card ≤ (Finset.Ioo 0 lib.symCount).card := Finset.card_filter_le _ _
          _ = lib.symCount - 1 := by rw [Nat.card_Ioo, Nat.sub_zero]
      have hfirst : ∀ k ≤ places.card, (chainAt mem lib)^[k] start ∈ places := by
        intro k hk
        obtain ⟨hinside, hnone⟩ := hsteps k (by omega)
        obtain ⟨hne, hlt⟩ := not_or.mp hinside
        refine Finset.mem_filter.mpr ⟨Finset.mem_Ioo.mpr ⟨Nat.pos_of_ne_zero hne, Nat.not_le.mp hlt⟩, hnone ?_⟩
        omega
      obtain ⟨hmem, hnone⟩ := Finset.mem_filter.mp (Count.iterate_mem hfirst k)
      obtain ⟨hpos, hlt⟩ := Finset.mem_Ioo.mp hmem
      rcases hk with hout | hglobal
      · exact absurd (not_or.mpr ⟨Nat.ne_of_gt hpos, Nat.not_le.mpr hlt⟩) hout
      · exact absurd hglobal hnone

/-! ## All libraries -/

/-- The index that a walk in a library starts from. -/
def startAt (mem : Memory) (lib : Klib) (name : CStr) : ℕ :=
  bucketAt mem lib ((elfHash name).toNat % lib.hashNbucket)

variable {slots : List ℕ}

theorem search_skip (h : ¬HasTable (s.libs slot)) :
    search mem s name (slot :: slots) found = search mem s name slots found := by
  rw [search]
  exact if_pos (not_not.mp h)

theorem search_stops (h : HasTable (s.libs slot)) {e : Stop}
    (hwalk : walk mem (s.libs slot) slot name (s.libs slot).symCount (startAt mem (s.libs slot) name) found = .error e) :
    search mem s name (slot :: slots) found = .error e := by
  unfold startAt bucketAt at hwalk
  rw [search]
  dsimp only
  rw [if_neg h, hwalk]
  rfl

theorem search_ok (h : HasTable (s.libs slot)) {r : Bool × Found}
    (hwalk : walk mem (s.libs slot) slot name (s.libs slot).symCount (startAt mem (s.libs slot) name) found = .ok r) :
    search mem s name (slot :: slots) found = if r.1 then .ok r.2 else search mem s name slots r.2 := by
  unfold startAt bucketAt at hwalk
  rw [search]
  dsimp only
  rw [if_neg h, hwalk]
  rfl

/-- The definitions that the lookup sees in a library. -/
def Tables.seenIn (T : Tables mem s) (name : CStr) (slot : ℕ) : List (ℕ × ℕ) :=
  if SameBucket (s.libs slot) name then T.definitionsIn name slot else []

theorem Tables.seenIn_none (T : Tables mem s) (h : ¬HasTable (s.libs slot)) : T.seenIn name slot = [] := by
  unfold Tables.seenIn Tables.definitionsIn
  rw [if_neg h, ite_self]

/-- What a search finds. -/
theorem search_value (T : Tables mem s) {r : Found} (hslots : ∀ slot ∈ slots, slot < s.libCount)
    (h : search mem s name slots found = .ok r) : r.1 = takeAddr (slots.flatMap (T.seenIn name)) found.1 := by
  induction slots generalizing found with
  | nil =>
    obtain rfl : found = r := Except.ok.inj h
    rfl
  | cons slot slots ih =>
    have hslot := hslots slot List.mem_cons_self
    have hrest : ∀ slot ∈ slots, slot < s.libCount := fun slot hmem => hslots slot (List.mem_cons_of_mem _ hmem)
    rw [List.flatMap_cons]
    by_cases htable : HasTable (s.libs slot)
    · cases hwalk : walk mem (s.libs slot) slot name (s.libs slot).symCount (startAt mem (s.libs slot) name) found with
      | error e =>
        rw [search_stops htable hwalk] at h
        cases h
      | ok r' =>
        have hchain := T.walks slot hslot htable _ (htable.bucket_lt (elfHash name))
        obtain ⟨haddr, hany⟩ := walk_chain hchain hwalk
        have hseen : definitions mem (s.libs slot) name
            (T.chain slot ((elfHash name).toNat % (s.libs slot).hashNbucket)) = T.seenIn name slot :=
          T.definitions_elfHash hslot htable
        rw [hseen] at haddr hany
        rw [search_ok htable hwalk] at h
        rw [takeAddr_append]
        by_cases hglobal : r'.1 = true
        · rw [if_pos hglobal] at h
          rw [if_pos (hany.mp hglobal), ← haddr, Except.ok.inj h]
        · rw [if_neg hglobal] at h
          rw [if_neg fun hex => hglobal (hany.mpr hex), ← haddr]
          exact ih hrest h
    · rw [search_skip htable] at h
      rw [T.seenIn_none htable, List.nil_append]
      exact ih hrest h

/-- All that is before the first success ends. -/
def AllEnd (ends finds : ℕ → Prop) (slots : List ℕ) : Prop :=
  ∀ i slot : ℕ, slots[i]? = some slot → ends slot ∨ ∃ j < i, ∃ slot' : ℕ, slots[j]? = some slot' ∧ finds slot'

theorem allEnd_cons {ends finds : ℕ → Prop} :
    AllEnd ends finds (slot :: slots) ↔ ends slot ∧ (finds slot ∨ AllEnd ends finds slots) := by
  constructor
  · intro h
    constructor
    · rcases h 0 slot rfl with hends | ⟨j, hj, -⟩
      · exact hends
      · exact absurd hj (Nat.not_lt_zero j)
    · by_cases hfinds : finds slot
      · exact .inl hfinds
      · refine .inr fun i slot' hi => ?_
        rcases h (i + 1) slot' hi with hends | ⟨j, hj, slot₁, hslot₁, hfound⟩
        · exact .inl hends
        · cases j with
          | zero =>
            obtain rfl := Option.some.inj hslot₁
            exact absurd hfound hfinds
          | succ j => exact .inr ⟨j, Nat.lt_of_succ_lt_succ hj, slot₁, hslot₁, hfound⟩
  · rintro ⟨hends, hrest⟩ i slot' hi
    cases i with
    | zero =>
      obtain rfl := Option.some.inj hi
      exact .inl hends
    | succ i =>
      rcases hrest with hfinds | hrest
      · exact .inr ⟨0, Nat.succ_pos i, slot, rfl, hfinds⟩
      · rcases hrest i slot' hi with hends' | ⟨j, hj, slot₁, hslot₁, hfound⟩
        · exact .inl hends'
        · exact .inr ⟨j + 1, Nat.succ_lt_succ hj, slot₁, hslot₁, hfound⟩

theorem allEnd_range {ends finds : ℕ → Prop} {n : ℕ} : AllEnd ends finds (List.range n) ↔
    ∀ slot < n, ends slot ∨ ∃ slot' < slot, finds slot' := by
  constructor
  · intro h slot hslot
    rcases h slot slot (List.getElem?_range hslot) with hends | ⟨j, hj, slot', hslot', hfinds⟩
    · exact .inl hends
    · rw [List.getElem?_range (Nat.lt_trans hj hslot)] at hslot'
      obtain rfl := Option.some.inj hslot'
      exact .inr ⟨j, hj, hfinds⟩
  · intro h i slot hi
    obtain ⟨hlt, rfl⟩ := List.getElem?_eq_some_iff.mp hi
    rw [List.getElem_range]
    rw [List.length_range] at hlt
    rcases h i hlt with hends | ⟨j, hj, hfinds⟩
    · exact .inl hends
    · exact .inr ⟨j, hj, j, List.getElem?_range (Nat.lt_trans hj hlt), hfinds⟩

/-- The walk in a library ends, if there is one. -/
def Ends (mem : Memory) (s : State) (name : CStr) (slot : ℕ) : Prop :=
  HasTable (s.libs slot) → ChainEnds mem (s.libs slot) name (startAt mem (s.libs slot) name)

/-- The walk in a library comes to a global definition. -/
def Finds (mem : Memory) (s : State) (name : CStr) (slot : ℕ) : Prop :=
  HasTable (s.libs slot) ∧ FindsGlobal mem (s.libs slot) name (startAt mem (s.libs slot) name)

/-- A search returns if the walks before the first global definition end. -/
theorem search_ends_iff : (∃ r, search mem s name slots found = .ok r) ↔
    AllEnd (Ends mem s name) (Finds mem s name) slots := by
  induction slots generalizing found with
  | nil => exact iff_of_true ⟨found, rfl⟩ fun i slot hi => by simp at hi
  | cons slot slots ih =>
    rw [allEnd_cons]
    by_cases htable : HasTable (s.libs slot)
    · have hends : (∃ r, walk mem (s.libs slot) slot name (s.libs slot).symCount
          (startAt mem (s.libs slot) name) found = .ok r) ↔ Ends mem s name slot := by
        unfold Ends
        rw [walk_ends_iff, forall_prop_of_true htable]
      cases hwalk : walk mem (s.libs slot) slot name (s.libs slot).symCount (startAt mem (s.libs slot) name) found with
      | error e =>
        rw [search_stops htable hwalk]
        rw [hwalk] at hends
        refine iff_of_false (by simp) fun h => ?_
        obtain ⟨r, hr⟩ := hends.mpr h.1
        cases hr
      | ok r =>
        obtain ⟨hend, hfinds⟩ := walk_ok hwalk
        have hendsIn : Ends mem s name slot := fun _ => hend
        rw [search_ok htable hwalk, and_iff_right hendsIn]
        by_cases hglobal : r.1 = true
        · rw [if_pos hglobal]
          exact iff_of_true ⟨_, rfl⟩ (.inl ⟨htable, hfinds.mp hglobal⟩)
        · have hnone : ¬Finds mem s name slot := fun h => hglobal (hfinds.mpr h.2)
          rw [if_neg hglobal, ih, or_iff_right hnone]
    · have hendsIn : Ends mem s name slot := fun h => absurd h htable
      have hnone : ¬Finds mem s name slot := fun h => htable h.1
      rw [search_skip htable, ih, and_iff_right hendsIn, or_iff_right hnone]

/-! ## What is read -/

/-- The memories are the same up to buckets, chains and symbols that no index below the bounds is of. -/
structure SameTables (mem mem' : Memory) (s : State) : Prop where
  str : mem'.str = mem.str
  bucket : ∀ slot < s.libCount, ∀ b < (s.libs slot).hashNbucket,
    bucketAt mem' (s.libs slot) b = bucketAt mem (s.libs slot) b
  chain : ∀ slot < s.libCount, ∀ i < (s.libs slot).symCount,
    chainAt mem' (s.libs slot) i = chainAt mem (s.libs slot) i
  sym : ∀ slot < s.libCount, ∀ i < (s.libs slot).symCount, symAt mem' (s.libs slot) i = symAt mem (s.libs slot) i

variable {mem' : Memory}

theorem walk_congr (hstr : mem'.str = mem.str) (hchain : ∀ i < lib.symCount, chainAt mem' lib i = chainAt mem lib i)
    (hsym : ∀ i < lib.symCount, symAt mem' lib i = symAt mem lib i) :
    walk mem' lib slot name fuel start found = walk mem lib slot name fuel start found := by
  induction fuel generalizing start found with
  | zero =>
    by_cases hin : Inside lib start
    · rw [walk_zero hin, walk_zero hin]
    · rw [walk_outside hin, walk_outside hin]
  | succ fuel ih =>
    by_cases hin : Inside lib start
    · have hlt : start < lib.symCount := Nat.not_le.mp (not_or.mp hin).2
      have hname : nameAt mem' lib start = nameAt mem lib start := by
        unfold nameAt
        rw [hstr, hsym start hlt]
      have haddr : addrAt mem' lib start = addrAt mem lib start := by
        unfold addrAt
        rw [hsym start hlt]
      have hdefines : Defines mem' lib name start ↔ Defines mem lib name start := by
        unfold Defines
        rw [hname, hsym start hlt]
      rw [walk_inside hin, walk_inside hin, hsym start hlt, hchain start hlt, haddr, ih, ih, if_congr hdefines rfl rfl]
    · rw [walk_outside hin, walk_outside hin]

theorem search_congr (hsame : SameTables mem mem' s) (hslots : ∀ slot ∈ slots, slot < s.libCount) :
    search mem' s name slots found = search mem s name slots found := by
  induction slots generalizing found with
  | nil => rfl
  | cons slot slots ih =>
    have hslot := hslots slot List.mem_cons_self
    have hrest : ∀ slot ∈ slots, slot < s.libCount := fun slot hmem => hslots slot (List.mem_cons_of_mem _ hmem)
    by_cases htable : HasTable (s.libs slot)
    · have hstart : startAt mem' (s.libs slot) name = startAt mem (s.libs slot) name :=
        hsame.bucket slot hslot _ (htable.bucket_lt _)
      have hwalk : walk mem' (s.libs slot) slot name (s.libs slot).symCount (startAt mem' (s.libs slot) name) found =
          walk mem (s.libs slot) slot name (s.libs slot).symCount (startAt mem (s.libs slot) name) found := by
        rw [hstart]
        exact walk_congr hsame.str (hsame.chain slot hslot) (hsame.sym slot hslot)
      cases hrun : walk mem (s.libs slot) slot name (s.libs slot).symCount (startAt mem (s.libs slot) name) found with
      | error e => rw [search_stops htable hrun, search_stops htable (hwalk.trans hrun)]
      | ok r => rw [search_ok htable hrun, search_ok htable (hwalk.trans hrun), ih hrest]
    · rw [search_skip htable, search_skip htable, ih hrest]

theorem lookup_congr (hsame : SameTables mem mem' s) (n : ℕ) : lookupSymbol mem' n s = lookupSymbol mem n s := by
  have hrange : ∀ slot ∈ List.range s.libCount, slot < s.libCount := fun slot hmem => List.mem_range.mp hmem
  unfold lookupSymbol
  rw [hsame.str, search_congr hsame hrange]

/-! ## The lookup -/

variable {n : ℕ}

/-- With an empty cache a lookup returns what the search finds. -/
theorem lookup_search (hcache : ∀ i, s.symCache i = .zero) (hn : n ≠ 0) (hname : mem.str n ≠ []) :
    match search mem s (mem.str n) (List.range s.libCount) (0, none) with
    | .error e => lookupSymbol mem n s = .error e
    | .ok r => ∃ id s', lookupSymbol mem n s = .ok ((r.1, id), s') := by
  have hmiss : ¬((s.symCache ((elfHash (mem.str n)).toNat % ldsoSymCacheSize)).name ≠ 0 ∧
      (s.symCache ((elfHash (mem.str n)).toNat % ldsoSymCacheSize)).addr ≠ 0 ∧
      mem.str (s.symCache ((elfHash (mem.str n)).toNat % ldsoSymCacheSize)).name = mem.str n) := by
    rw [hcache]
    exact fun hhit => hhit.1 rfl
  unfold lookupSymbol
  rw [if_neg (not_or.mpr ⟨hn, hname⟩)]
  dsimp only
  rw [if_neg hmiss]
  cases search mem s (mem.str n) (List.range s.libCount) (0, none) with
  | error e => rfl
  | ok r =>
    obtain ⟨addr, owner⟩ := r
    by_cases haddr : addr ≠ 0
    · exact ⟨_, _, if_pos haddr⟩
    · obtain rfl : addr = 0 := not_not.mp haddr
      exact ⟨0, s, rfl⟩

theorem lookup_error (hcache : ∀ i, s.symCache i = .zero) (hn : n ≠ 0) (hname : mem.str n ≠ []) {e : Stop}
    (h : search mem s (mem.str n) (List.range s.libCount) (0, none) = .error e) :
    lookupSymbol mem n s = .error e := by
  have hlookup := lookup_search hcache hn hname
  rwa [h] at hlookup

theorem lookup_ok (hcache : ∀ i, s.symCache i = .zero) (hn : n ≠ 0) (hname : mem.str n ≠ []) {r : Found}
    (h : search mem s (mem.str n) (List.range s.libCount) (0, none) = .ok r) :
    ∃ id s', lookupSymbol mem n s = .ok ((r.1, id), s') := by
  have hlookup := lookup_search hcache hn hname
  rwa [h] at hlookup

/-- The lookup finds the first definition in built tables; whatever stands in memory it returns, and reads only within
the tables. -/
structure LookupOk (mem : Memory) (s : State) (n : ℕ) : Prop where
  right : ∀ T : Tables mem s, ∃ id s', lookupSymbol mem n s = .ok ((T.answer (mem.str n), id), s')
  returns : ∃ r, lookupSymbol mem n s = .ok r
  inside : ∀ mem', SameTables mem mem' s → lookupSymbol mem' n s = lookupSymbol mem n s

/-- The definition that is to be found is at the address of the first one in the libraries where the buckets are the
same; and the walks before the first global definition end. -/
structure LookupWhen (mem : Memory) (s : State) (n : ℕ) : Prop where
  choice : ∀ T : Tables mem s, pickNonzero (T.seen (mem.str n)) = T.answer (mem.str n)
  ends : ∀ slot < s.libCount, Ends mem s (mem.str n) slot ∨ ∃ slot' < slot, Finds mem s (mem.str n) slot'

/-- `aaaaaaa` -/
def longName : CStr := [97, 97, 97, 97, 97, 97, 97]

def longLib : Klib :=
  { Klib.zero with symtab := 4096, strtab := 8192, hash := 12288, hashNbucket := 5, symCount := 2 }

/-- One symbol, which stands in the bucket where the ABI has it. -/
def longMem : Memory where
  str p := if p = 1 ∨ p = 8193 then longName else []
  u32 a := if a = 12304 then 1 else 0
  sym a := if a = 4120 then ⟨1, 1, 1, 4096⟩ else ⟨0, 0, 0, 0⟩
  rela _ := ⟨0, 0⟩

def longState : State := { initState with libs := fun _ => longLib, libCount := 1 }

theorem longName_symbol {b i : ℕ} (h : i ∈ if b = 2 then [1] else []) : b = 2 ∧ i = 1 := by
  split_ifs at h with hb
  · exact ⟨hb, List.mem_singleton.mp h⟩
  · exact absurd h List.not_mem_nil

/-- The tables of the library. -/
def longTables : Tables longMem longState where
  chain _ b := if b = 2 then [1] else []
  walks := by
    intro _ _ _ b _
    by_cases hb : b = 2
    · obtain rfl := hb
      have hin : Inside longLib 1 := by decide
      exact .cons hin .nil
    · have hbucket : bucketAt longMem longLib b = 0 := by
        have haddr : ¬longLib.hash + 8 + 4 * b = 12304 := by
          have : longLib.hash = 12288 := rfl
          omega
        exact if_neg haddr
      have hnil : (if b = 2 then [1] else []) = ([] : List ℕ) := if_neg hb
      rw [hnil]
      have hchain : Chain longMem longLib (bucketAt longMem longLib b) [] := by
        rw [hbucket]
        exact .nil
      exact hchain
  sound := by
    intro _ _ _ b _ i hi
    obtain ⟨rfl, rfl⟩ := longName_symbol hi
    have hbucket : (sysvHash (nameAt longMem longLib 1)).toNat % longLib.hashNbucket = 2 := by decide
    exact hbucket
  complete := by
    intro _ _ _ i hin _
    obtain ⟨hne, hlt⟩ := not_or.mp hin
    have hcount : longLib.symCount = 2 := rfl
    have hi : i = 1 := by
      have := Nat.not_le.mp hlt
      change i < longLib.symCount at this
      omega
    rw [hi]
    have hmem : 1 ∈ if (sysvHash (nameAt longMem longLib 1)).toNat % longLib.hashNbucket = 2 then [1] else [] := by
      decide
    exact hmem

end Ldso
