import Mathlib.Data.UInt

/-!
# Kernel modules (`kernel/module.c`)

The sections of the file come with their names, bytes and tables; addresses are 64-bit numbers. `none` is a module that
is not loaded, or a call that does not return: `module_load` holds the lock that `module_lookup_symbol` takes.
-/

namespace KernelModule

/-- `Elf64_Rela` -/
structure Rela where
  offset : UInt64
  info : UInt64
  addend : UInt64

/-- `Elf64_Sym`, with its name. -/
structure Sym where
  name : List UInt8
  shndx : ℕ
  value : UInt64

/-- `Elf64_Shdr`, with its name and what it leads to. -/
structure Shdr where
  name : List UInt8
  shType : ℕ
  size : ℕ
  bytes : ℕ → UInt8
  relas : List Rela
  syms : ℕ → Sym
  link : ℕ
  info : ℕ

/-- The four places of `module_t`. -/
inductive Place where
  | text
  | data
  | rodata
  | bss
  deriving DecidableEq

abbrev Mem := UInt64 → UInt8

/-- `".text"`, `".data"` and `".rodata"` -/
def textName : List UInt8 := [46, 116, 101, 120, 116]

def dataName : List UInt8 := [46, 100, 97, 116, 97]

def rodataName : List UInt8 := [46, 114, 111, 100, 97, 116, 97]

def placeOfName (name : List UInt8) : Option Place :=
  if textName <+: name then some .text
  else if dataName <+: name then some .data
  else if rodataName <+: name then some .rodata
  else none

/-- The place that `module_load` gives to a section. -/
def loadPlace (sh : Shdr) : Option Place :=
  if sh.shType = 1 then placeOfName sh.name else if sh.shType = 8 then some .bss else none

/-- Zeroes of `kzalloc`, and the bytes copied over them. -/
def copyIn (mem : Mem) (base : UInt64) (sh : Shdr) : Mem := fun x =>
  if (x - base).toNat < sh.size then (if sh.shType = 8 then 0 else sh.bytes (x - base).toNat) else mem x

/-- The loop of `module_load` over the sections from the `i`-th on; `alloc` is what `kzalloc` returns for each. -/
def loadLoop (alloc : ℕ → UInt64) : ℕ → List Shdr → (Place → UInt64) × Mem → Option ((Place → UInt64) × Mem)
  | _, [], m => some m
  | i, sh :: shs, m =>
    match loadPlace sh with
    | none => loadLoop alloc (i + 1) shs m
    | some p =>
      if m.1 p ≠ 0 then loadLoop alloc (i + 1) shs m
      else if alloc i = 0 then none
      else loadLoop alloc (i + 1) shs (Function.update m.1 p (alloc i), copyIn m.2 (alloc i) sh)

/-- `section_base` -/
def sectionBase (places : Place → UInt64) (shndx : ℕ) (sh : Shdr) : UInt64 :=
  if shndx = 0 then 0 else if sh.shType = 8 then places .bss else places ((placeOfName sh.name).getD .text)

/-- `resolve_symbol_value`; an undefined symbol that is not exported is looked for under the lock. -/
def resolveSymbolValue (shdrs : List Shdr) (exports : List (List UInt8 × UInt64)) (places : Place → UInt64) (sym : Sym) :
    Option UInt64 :=
  if sym.shndx = 0 then (exports.find? fun e => e.1 = sym.name).map Prod.snd
  else shdrs[sym.shndx]?.map fun sh =>
    let base := sectionBase places sym.shndx sh
    if base = 0 then 0 else base + sym.value

/-- The width and value that the `switch` writes for a type; 0 where it writes nothing. -/
def written (type : ℕ) (s a p : UInt64) : ℕ × UInt64 :=
  if type = 1 ∨ type = 6 ∨ type = 7 then (8, s + a)
  else if type = 2 ∨ type = 4 ∨ type = 9 then (4, s + a - p)
  else if type = 10 ∨ type = 11 then (4, s + a)
  else if type = 12 then (2, s + a)
  else if type = 13 then (2, s + a - p)
  else if type = 14 then (1, s + a)
  else if type = 15 then (1, s + a - p)
  else if type = 24 then (8, s + a - p)
  else if type = 8 then (8, a)
  else (0, 0)

/-- Writes the low bytes of a value. -/
def store (mem : Mem) (p : UInt64) (v : ℕ × UInt64) : Mem := fun x =>
  if (x - p).toNat < v.1 then (v.2 >>> (8 * (x - p))).toUInt8 else mem x

/-- The entries that `__apply_relocations` comes to, with the sections that hold them. -/
def entries (shdrs : List Shdr) : List (Shdr × Rela) :=
  shdrs.flatMap fun sh => if sh.shType = 4 then sh.relas.map fun r => (sh, r) else []

/-- The round for one entry. -/
def applyRela (shdrs : List Shdr) (exports : List (List UInt8 × UInt64)) (places : Place → UInt64) (mem : Mem) :
    Shdr × Rela → Option Mem
  | (sh, r) =>
    match shdrs[sh.info]? with
    | none => some mem
    | some target =>
      let base := sectionBase places sh.info target
      if base = 0 then some mem
      else
        let type := (r.info >>> 32).toNat
        let symIdx := (r.info &&& 0xFFFFFFFF).toNat
        let p := base + r.offset
        let symValue := match shdrs[sh.link]? with
          | some symtab => if symIdx ≠ 0 then resolveSymbolValue shdrs exports places (symtab.syms symIdx) else some 0
          | none => some 0
        symValue.map fun s => store mem p (written type s r.addend p)

/-- What `module_load` makes of the memory, up to the relocations. -/
def moduleLoad (shdrs : List Shdr) (exports : List (List UInt8 × UInt64)) (alloc : ℕ → UInt64) (mem : Mem) :
    Option ((Place → UInt64) × Mem) :=
  (loadLoop alloc 0 shdrs (fun _ => 0, mem)).bind fun m =>
    ((entries shdrs).foldlM (applyRela shdrs exports m.1) m.2).map fun mem => (m.1, mem)

/-! ## What the ABI says -/

/-- The width and value of a field, for the types that a module has. -/
def field (type : ℕ) (s a p : UInt64) : ℕ × UInt64 :=
  if type = 1 then (8, s + a)
  else if type = 2 ∨ type = 4 then (4, s + a - p)
  else if type = 10 ∨ type = 11 then (4, s + a)
  else if type = 24 then (8, s + a - p)
  else (0, 0)

def symbolOf (r : Rela) : ℕ := (r.info >>> 32).toNat

def typeOf (r : Rela) : ℕ := (r.info &&& 0xFFFFFFFF).toNat

/-- Where a symbol is: in the place of its section, or where it was exported. -/
def IsAt (shdrs : List Shdr) (exports : List (List UInt8 × UInt64)) (places : Place → UInt64) (sym : Sym) (s : UInt64) :
    Prop :=
  if sym.shndx = 0 then (exports.find? fun e => e.1 = sym.name).map Prod.snd = some s
  else ∃ sh p, shdrs[sym.shndx]? = some sh ∧ loadPlace sh = some p ∧ s = places p + sym.value

/-- Where a relocation writes, and what. -/
def IsPatch (shdrs : List Shdr) (exports : List (List UInt8 × UInt64)) (places : Place → UInt64) (e : Shdr × Rela)
    (patch : UInt64 × (ℕ × UInt64)) : Prop :=
  ∃ target place symtab s, shdrs[e.1.info]? = some target ∧ loadPlace target = some place ∧
    shdrs[e.1.link]? = some symtab ∧
    (if symbolOf e.2 = 0 then s = 0 else IsAt shdrs exports places (symtab.syms (symbolOf e.2)) s) ∧
    patch = (places place + e.2.offset,
      field (typeOf e.2) s e.2.addend (places place + e.2.offset))

/-- The module is loaded, and its memory is that of the file with the fields written one after the other. -/
def Relocates (shdrs : List Shdr) (exports : List (List UInt8 × UInt64)) (alloc : ℕ → UInt64) (mem : Mem) : Prop :=
  ∃ places loaded patches, List.Forall₂ (IsPatch shdrs exports places) (entries shdrs) patches ∧
    (∀ i sh place, shdrs[i]? = some sh → loadPlace sh = some place → places place = alloc i ∧
      ∀ n < sh.size, loaded (alloc i + UInt64.ofNat n) = if sh.shType = 8 then 0 else sh.bytes n) ∧
    moduleLoad shdrs exports alloc mem =
      some (places, patches.foldl (fun mem patch => store mem patch.1 patch.2) loaded)

/-- A module with at most one section for each place, whose relocations have these types and known symbols. -/
structure WellFormed (shdrs : List Shdr) (exports : List (List UInt8 × UInt64)) : Prop where
  null : ∀ sh, shdrs[0]? = some sh → loadPlace sh = none
  one : ∀ (i j : ℕ) sh sh' place, shdrs[i]? = some sh → shdrs[j]? = some sh' → loadPlace sh = some place →
    loadPlace sh' = some place → i = j
  size : ∀ sh ∈ shdrs, sh.size ≤ 2 ^ 64
  target : ∀ e ∈ entries shdrs, ∃ target place, shdrs[e.1.info]? = some target ∧ loadPlace target = some place
  types : ∀ e ∈ entries shdrs, typeOf e.2 ∈ [0, 1, 2, 4, 10, 11, 24]
  symbol : ∀ e ∈ entries shdrs, ∃ symtab, shdrs[e.1.link]? = some symtab ∧ (symbolOf e.2 ≠ 0 →
    let sym := symtab.syms (symbolOf e.2)
    if sym.shndx = 0 then ∃ x ∈ exports, x.1 = sym.name
    else ∃ sh place, shdrs[sym.shndx]? = some sh ∧ loadPlace sh = some place)

/-- `kzalloc` gives each section memory of its own. -/
def Apart (shdrs : List Shdr) (alloc : ℕ → UInt64) : Prop :=
  (∀ i, alloc i ≠ 0) ∧ ∀ i j sh sh', i ≠ j → shdrs[i]? = some sh → shdrs[j]? = some sh' → ∀ n < sh.size,
    ¬(alloc i + UInt64.ofNat n - alloc j).toNat < sh'.size

/-- Taken the other way round the halves of `r_info` are the same, or no type that the code knows. -/
def Symmetric (r : Rela) : Prop :=
  symbolOf r = typeOf r ∨ typeOf r = 0 ∧ symbolOf r ∉ [1, 2, 4, 6, 7, 8, 9, 10, 11, 12, 13, 14, 15, 24]

variable {shdrs shs : List Shdr} {exports : List (List UInt8 × UInt64)} {alloc : ℕ → UInt64} {mem : Mem} {i : ℕ}
  {places : Place → UInt64} {place : Place} {sh : Shdr} {r : Rela}

/-! ## Loading -/

/-- The loop gives each section its place, and touches no other memory. -/
theorem loadLoop_spec {m : (Place → UInt64) × Mem} (halloc : ∀ i, alloc i ≠ 0)
    (hone : shs.Pairwise fun a b => ∀ place, loadPlace a = some place → loadPlace b ≠ some place)
    (hfree : ∀ sh ∈ shs, ∀ place, loadPlace sh = some place → m.1 place = 0) :
    ∃ m', loadLoop alloc i shs m = some m' ∧ (∀ place, (∀ sh ∈ shs, loadPlace sh ≠ some place) → m'.1 place = m.1 place) ∧
      (∀ k sh place, shs[k]? = some sh → loadPlace sh = some place → m'.1 place = alloc (i + k)) ∧
      (∀ x, (∀ k sh, shs[k]? = some sh → ¬(x - alloc (i + k)).toNat < sh.size) → m'.2 x = m.2 x) ∧
      ∀ k sh place, shs[k]? = some sh → loadPlace sh = some place → ∀ x, (x - alloc (i + k)).toNat < sh.size →
        (∀ l sh', k < l → shs[l]? = some sh' → ¬(x - alloc (i + l)).toNat < sh'.size) →
          m'.2 x = if sh.shType = 8 then 0 else sh.bytes (x - alloc (i + k)).toNat := by
  induction shs generalizing i m with
  | nil => exact ⟨m, rfl, fun _ _ => rfl, nofun, fun _ _ => rfl, nofun⟩
  | cons sh shs ih =>
    obtain ⟨hhead, hrest⟩ := List.pairwise_cons.mp hone
    have hnext (k : ℕ) : i + 1 + k = i + (k + 1) := by omega
    -- the loop goes on with `m₁`, in which this section has its place
    obtain ⟨m₁, hloop, hplaces, hmem, hin⟩ : ∃ m₁, loadLoop alloc i (sh :: shs) m = loadLoop alloc (i + 1) shs m₁ ∧
        (∀ place, loadPlace sh ≠ some place → m₁.1 place = m.1 place) ∧
        (∀ x, ¬(x - alloc i).toNat < sh.size → m₁.2 x = m.2 x) ∧ ∀ place, loadPlace sh = some place →
          m₁.1 place = alloc i ∧ ∀ x, (x - alloc i).toNat < sh.size →
            m₁.2 x = if sh.shType = 8 then 0 else sh.bytes (x - alloc i).toNat := by
      rw [loadLoop]
      cases hsh : loadPlace sh with
      | none => exact ⟨m, rfl, fun _ _ => rfl, fun _ _ => rfl, fun _ h => nomatch h⟩
      | some place =>
        dsimp only
        rw [if_neg (not_not.mpr (hfree sh List.mem_cons_self place hsh)), if_neg (halloc i)]
        refine ⟨_, rfl, fun q hq => Function.update_of_ne (by rintro rfl; exact hq rfl) _ _, fun x hx => if_neg hx, ?_⟩
        rintro _ ⟨⟩
        exact ⟨Function.update_self .., fun x hx => if_pos hx⟩
    obtain ⟨m', hm', hkept, hgiven, hout, hbytes⟩ := ih (i := i + 1) (m := m₁) hrest fun b hb q hq => by
      rw [hplaces q fun heq => hhead b hb q heq hq]
      exact hfree b (List.mem_cons_of_mem _ hb) q hq
    refine ⟨m', hloop.trans hm', fun q hq => ?_, fun k b q hk hq => ?_, fun x hx => ?_, fun k b q hk hq x hx hlast => ?_⟩
    · rw [hkept q fun b hb => hq b (List.mem_cons_of_mem _ hb), hplaces q (hq sh List.mem_cons_self)]
    · cases k with
      | zero =>
        cases hk
        rw [hkept q fun b hb hb' => hhead b hb q hq hb']
        exact (hin q hq).1
      | succ k =>
        rw [hgiven k b q hk hq, hnext]
    · rw [hout x fun k b hk => hnext k ▸ hx (k + 1) b hk, hmem x (hx 0 sh rfl)]
    · cases k with
      | zero =>
        cases hk
        rw [hout x fun l b hl => hnext l ▸ hlast (l + 1) b (Nat.succ_pos l) hl]
        exact (hin q hq).2 x hx
      | succ k =>
        rw [← hnext] at hx ⊢
        exact hbytes k b q hk hq x hx fun l b' hkl hl => hnext l ▸ hlast (l + 1) b' (Nat.succ_lt_succ hkl) hl

/-! ## Relocations -/

theorem sectionBase_eq (hi : i ≠ 0) (hsh : loadPlace sh = some place) : sectionBase places i sh = places place := by
  unfold loadPlace at hsh
  unfold sectionBase
  rw [if_neg hi]
  by_cases h8 : sh.shType = 8
  · rw [if_neg (by omega), if_pos h8] at hsh
    rw [if_pos h8, Option.some.inj hsh]
  · rw [if_neg h8] at hsh ⊢
    split_ifs at hsh
    rw [hsh]
    rfl

theorem field_eq {t : ℕ} {s a p : UInt64} (ht : t ∈ [0, 1, 2, 4, 10, 11, 24]) : written t s a p = field t s a p := by
  simp only [List.mem_cons, List.not_mem_nil, or_false] at ht
  rcases ht with rfl | rfl | rfl | rfl | rfl | rfl | rfl <;> rfl

theorem written_unknown {t : ℕ} {s a p : UInt64} (ht : t ∉ [1, 2, 4, 6, 7, 8, 9, 10, 11, 12, 13, 14, 15, 24]) :
    written t s a p = (0, 0) := by
  simp only [List.mem_cons, List.not_mem_nil, or_false, not_or] at ht
  simp [written, ht]

/-- An entry that reads the same both ways writes what it should. -/
theorem applyRela_eq (hwf : WellFormed shdrs exports) (he : (sh, r) ∈ entries shdrs) (hr : Symmetric r)
    (hplaces : ∀ i sh place, shdrs[i]? = some sh → loadPlace sh = some place → i ≠ 0 ∧ places place ≠ 0) :
    ∃ patch, IsPatch shdrs exports places (sh, r) patch ∧
      ∀ mem, applyRela shdrs exports places mem (sh, r) = some (store mem patch.1 patch.2) := by
  obtain ⟨target, place, htarget, hplace⟩ := hwf.target _ he
  obtain ⟨symtab, hsymtab, hsym⟩ := hwf.symbol _ he
  obtain ⟨hinfo, hnonnull⟩ := hplaces _ _ _ htarget hplace
  have hbase : sectionBase places sh.info target = places place := sectionBase_eq hinfo hplace
  -- the address of the symbol, as the code and as the ABI has it
  obtain ⟨s, hs, hresolve⟩ : ∃ s, (if symbolOf r = 0 then s = 0
      else IsAt shdrs exports places (symtab.syms (symbolOf r)) s) ∧ (symbolOf r ≠ 0 →
        resolveSymbolValue shdrs exports places (symtab.syms (symbolOf r)) = some s) := by
    by_cases hzero : symbolOf r = 0
    · exact ⟨0, by rw [if_pos hzero], fun hne => (hne hzero).elim⟩
    · have hknown := hsym hzero
      unfold IsAt resolveSymbolValue
      dsimp only at hknown
      simp only [if_neg hzero]
      by_cases hundefined : (symtab.syms (symbolOf r)).shndx = 0
      · simp only [if_pos hundefined] at hknown ⊢
        obtain ⟨x, hx, hname⟩ := hknown
        have hfound : (exports.find? fun e => e.1 = (symtab.syms (symbolOf r)).name).isSome :=
          List.find?_isSome.mpr ⟨x, hx, by simpa using hname⟩
        obtain ⟨y, hy⟩ := Option.isSome_iff_exists.mp hfound
        exact ⟨y.2, by rw [hy, Option.map_some], fun _ => by rw [hy, Option.map_some]⟩
      · simp only [if_neg hundefined] at hknown ⊢
        obtain ⟨b, q, hb, hq⟩ := hknown
        have hq0 := hplaces _ _ _ hb hq
        refine ⟨places q + (symtab.syms (symbolOf r)).value, ⟨b, q, hb, hq, rfl⟩, fun _ => ?_⟩
        · rw [hb, Option.map_some, sectionBase_eq hq0.1 hq, if_neg hq0.2]
  refine ⟨_, ⟨target, place, symtab, s, htarget, hplace, hsymtab, hs, rfl⟩, fun mem => ?_⟩
  unfold applyRela
  dsimp only at htarget hsymtab ⊢
  rw [htarget]
  dsimp only
  rw [hbase, if_neg hnonnull, hsymtab]
  change Option.map _ (if typeOf r ≠ 0 then resolveSymbolValue shdrs exports places (symtab.syms (typeOf r)) else some 0) = _
  rcases hr with heq | ⟨hnone, hunknown⟩
  · have hvalue : (if typeOf r ≠ 0 then resolveSymbolValue shdrs exports places (symtab.syms (typeOf r)) else some 0) =
        some s := by
      rw [← heq]
      split_ifs with hne
      · exact hresolve hne
      · rw [if_pos (not_not.mp hne)] at hs
        rw [hs]
    rw [hvalue, Option.map_some]
    change some (store mem _ (written (symbolOf r) s r.addend _)) = _
    rw [heq, field_eq (hwf.types _ he)]
  · rw [if_neg (not_not.mpr hnone), Option.map_some]
    change some (store mem _ (written (symbolOf r) 0 r.addend _)) = _
    rw [written_unknown hunknown, hnone]
    rfl

theorem foldlM_applyRela (mem : Mem) {es : List (Shdr × Rela)} (hes : ∀ e ∈ es, ∃ patch, IsPatch shdrs exports places e patch ∧
      ∀ mem, applyRela shdrs exports places mem e = some (store mem patch.1 patch.2)) :
    ∃ patches, List.Forall₂ (IsPatch shdrs exports places) es patches ∧
      es.foldlM (applyRela shdrs exports places) mem =
        some (patches.foldl (fun mem patch => store mem patch.1 patch.2) mem) := by
  induction es generalizing mem with
  | nil => exact ⟨[], .nil, rfl⟩
  | cons e es ih =>
    obtain ⟨⟨patch, hpatch, happly⟩, hrest⟩ := List.forall_mem_cons.mp hes
    obtain ⟨patches, hpatches, hfold⟩ := ih (store mem patch.1 patch.2) hrest
    exact ⟨patch :: patches, .cons hpatch hpatches, by rw [List.foldlM_cons, happly]; exact hfold⟩

/-- A well-formed module whose entries all read the same both ways is relocated as the ABI says. -/
theorem module_relocated (hwf : WellFormed shdrs exports) (hapart : Apart shdrs alloc)
    (hsym : ∀ e ∈ entries shdrs, Symmetric e.2) : Relocates shdrs exports alloc mem := by
  obtain ⟨hnonnull, hapart⟩ := hapart
  have hone : shdrs.Pairwise fun a b => ∀ place, loadPlace a = some place → loadPlace b ≠ some place := by
    refine List.pairwise_iff_getElem.mpr fun i j hi hj hij place ha hb => Nat.ne_of_lt hij ?_
    exact hwf.one i j _ _ place (List.getElem?_eq_getElem hi) (List.getElem?_eq_getElem hj) ha hb
  obtain ⟨⟨places, loaded⟩, hload, -, hplaces, -, hbytes⟩ := loadLoop_spec (i := 0) (m := (fun _ => 0, mem)) hnonnull hone
    fun _ _ _ _ => rfl
  simp only [Nat.zero_add] at hplaces hbytes
  have hgiven : ∀ i sh place, shdrs[i]? = some sh → loadPlace sh = some place → i ≠ 0 ∧ places place ≠ 0 := by
    intro i sh place hi hsh
    refine ⟨fun hzero => ?_, fun hzero => hnonnull i ((hplaces i sh place hi hsh).symm.trans hzero)⟩
    rw [hzero] at hi
    cases hsh.symm.trans (hwf.null sh hi)
  obtain ⟨patches, hpatches, hfold⟩ := foldlM_applyRela loaded fun e he =>
    applyRela_eq hwf he (hsym e he) hgiven
  refine ⟨places, loaded, patches, hpatches, fun i sh place hi hsh => ⟨hplaces i sh place hi hsh, fun n hn => ?_⟩, ?_⟩
  · have hsize := hwf.size sh (List.mem_of_getElem? hi)
    have hback : (alloc i + UInt64.ofNat n - alloc i).toNat = n := by
      rw [add_sub_cancel_left, UInt64.toNat_ofNat_of_lt' (by rw [UInt64.size]; omega)]
    have hvalue := hbytes i sh place hi hsh (alloc i + UInt64.ofNat n) (by rwa [hback]) fun l sh' hil hl =>
      hapart i l sh sh' (Nat.ne_of_lt hil) hi hl n hn
    rwa [hback] at hvalue
  · unfold moduleLoad
    rw [hload, Option.bind_some, hfold]
    rfl

/-- A `.text` of 16 bytes and one relocation of its start, by symbols of which the second is 5 bytes behind the first. -/
def oneRela (info : UInt64) : List Shdr :=
  let none : Shdr := ⟨[], 0, 0, fun _ => 0, [], fun _ => ⟨[], 0, 0⟩, 0, 0⟩
  [none, { none with name := textName, shType := 1, size := 16 },
    { none with shType := 4, relas := [⟨0, info, 0⟩], link := 3, info := 1 },
    { none with shType := 2, syms := fun i => ⟨[], 1, if i = 2 then 5 else 0⟩ }]

theorem oneRela_places {info : UInt64} {sh : Shdr} (hi : (oneRela info)[i]? = some sh)
    (hsh : loadPlace sh = some place) : i = 1 := by
  match i, hi with
  | 0, hi => cases hi; cases hsh
  | 1, _ => rfl
  | 2, hi => cases hi; cases hsh
  | 3, hi => cases hi; cases hsh

theorem oneRela_relocated : Relocates (oneRela 0x100000001) [] (fun _ => 0x1000) fun _ => 0 := by
  have hentries {e : Shdr × Rela} (he : e ∈ entries (oneRela 0x100000001)) := List.mem_singleton.mp he
  refine module_relocated ⟨fun sh hsh => ?_, fun i j _ _ _ hi hj hsh hsh' => ?_, fun sh hsh => ?_, fun e he => ?_,
    fun e he => ?_, fun e he => ?_⟩ ⟨fun _ => (by decide : (0x1000 : UInt64) ≠ 0), fun i j sh sh' hij hi hj n hn => ?_⟩ fun e he => ?_
  · cases hsh
    rfl
  · exact (oneRela_places hi hsh).trans (oneRela_places hj hsh').symm
  · simp only [oneRela, List.mem_cons, List.not_mem_nil, or_false] at hsh
    rcases hsh with rfl | rfl | rfl | rfl <;> decide
  · rw [hentries he]
    exact ⟨_, .text, rfl, by decide⟩
  · rw [hentries he]
    decide
  · rw [hentries he]
    exact ⟨_, rfl, fun _ => ⟨_, .text, rfl, by decide⟩⟩
  · have hone {k : ℕ} {b : Shdr} (hk : (oneRela 0x100000001)[k]? = some b) (hb : 0 < b.size) : k = 1 := by
      match k, hk with
      | 0, hk => cases hk; cases hb
      | 1, _ => rfl
      | 2, hk => cases hk; cases hb
      | 3, hk => cases hk; cases hb
    exact fun hin => hij ((hone hi (Nat.zero_lt_of_lt hn)).trans (hone hj (Nat.zero_lt_of_lt hin)).symm)
  · rw [hentries he]
    exact .inl (by decide)

/-- Symbol 2 and type 1 are taken for symbol 1 and type 2. -/
theorem halves_swapped : ¬Relocates (oneRela 0x200000001) [] (fun _ => 0x1000) fun _ => 0 := by
  rintro ⟨places, loaded, patches, hpatches, hplaces, hload⟩
  have hbase : places .text = 0x1000 := (hplaces 1 _ .text rfl (by decide)).1
  obtain ⟨patch, rfl, target, place, symtab, s, htarget, hplace, hsymtab, hs, hpatch⟩ :
      ∃ patch, patches = [patch] ∧ IsPatch (oneRela 0x200000001) [] places (_, ⟨0, 0x200000001, 0⟩) patch := by
    cases hpatches with
    | cons hpatch hnil =>
      cases hnil
      exact ⟨_, rfl, hpatch⟩
  cases htarget
  cases hsymtab
  obtain rfl : Place.text = place := Option.some.inj ((by decide : some Place.text = loadPlace _).trans hplace)
  obtain ⟨sh, p, hsh, hp, hvalue⟩ : ∃ sh p, (oneRela 0x200000001)[1]? = some sh ∧ loadPlace sh = some p ∧ s = places p + 5 := hs
  cases hsh
  obtain rfl : Place.text = p := Option.some.inj ((by decide : some Place.text = loadPlace _).trans hp)
  have hcode : ((moduleLoad (oneRela 0x200000001) [] (fun _ => 0x1000) fun _ => 0).map fun m => m.2 0x1001) = some 0 := by
    decide
  rw [hload, hpatch, hvalue, hbase] at hcode
  change some (store loaded (0x1000 + 0) (8, 0x1000 + 5 + 0) 0x1001) = some 0 at hcode
  rw [store, if_pos (by decide)] at hcode
  revert hcode
  decide

end KernelModule
