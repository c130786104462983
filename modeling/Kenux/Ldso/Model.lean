import Kenux.Lib.Run
import Mathlib.Data.UInt

/-!
# The dynamic loader (`arch/x86_64/ldso.c`)

What a call reads, from files and from memory, is an argument of it; a `klib_t` pointer is an index into the table.
`ldso_call_init` is not modelled, so no library is `initialized` and no function of one is called.
-/

namespace Ldso

/-- A string, without the zero behind it. -/
abbrev CStr := List UInt8

def slash : UInt8 := 47

/-- The loop that finds what comes behind the last `/`. -/
def fileNameLoop : CStr → CStr → CStr
  | fname, [] => fname
  | fname, c :: cs => if c = slash then fileNameLoop cs cs else fileNameLoop fname cs

def fileName (path : CStr) : CStr := fileNameLoop path path

/-- `ldso_elf_hash`; `high` has only 8 bits. -/
def elfHash (name : CStr) : UInt32 :=
  name.foldl
    (fun h c =>
      let h := (h <<< 4) + c.toUInt32
      let high := (h &&& 0xF0000000).toUInt8
      let h := if high ≠ 0 then h ^^^ (high >>> 24).toUInt32 else h
      h &&& ~~~high.toUInt32)
    0

/-! ## What is read -/

/-- `kelf_sym_t`. -/
structure Sym where
  name : ℕ
  bind : ℕ
  shndx : ℕ
  value : ℕ

/-- `kelf_rela_t`, with the symbol and the type of `r_info`. -/
structure Rela where
  sym : ℕ
  type : ℕ

/-- What stands at an address, read as a string, a word, a symbol or a relocation. -/
structure Memory where
  str : ℕ → CStr
  u32 : ℕ → ℕ
  sym : ℕ → Sym
  rela : ℕ → Rela

/-- `Elf64_Phdr`, and whether the bytes of the segment can be read. -/
structure Phdr where
  type : ℕ
  vaddr : ℕ
  memsz : ℕ
  filesz : ℕ
  reads : Bool

/-- `kelf_dyn_t`. -/
structure Dyn where
  tag : ℤ
  val : ℕ

/-- What one call of `ldso_load_library` meets: whether the file can be opened and has the header of a library; its
program headers and dynamic entries, unless they cannot be read or there is no memory for them; and what stands in memory
when it is read, first for the dynamic entries and then for the relocations. -/
structure Attempt where
  opens : Bool
  verified : Bool
  phdrs : Option (List Phdr)
  dyn : Option (List Dyn)
  mem : ℕ → Memory
  relocMem : ℕ → Memory

/-! ## The table -/

def ldsoMaxLibs : ℕ := 64

def ldsoMaxRels : ℕ := 8192

def ldsoLibNameMax : ℕ := 256

def ldsoSymCacheSize : ℕ := 256

/-- `klib_t`; `id` tells the loads apart, `born` is how many libraries had been unloaded before. -/
structure Klib where
  baseAddr : ℕ
  loadSize : ℕ
  name : CStr
  symtab : ℕ
  symCount : ℕ
  strtab : ℕ
  hash : ℕ
  hashNbucket : ℕ
  pltRels : ℕ
  pltRelsz : ℕ
  rels : ℕ
  relsz : ℕ
  refCount : ℤ
  resolved : Bool
  mapStart : ℕ
  mapEnd : ℕ
  id : ℕ
  born : ℕ

def Klib.zero : Klib := ⟨0, 0, [], 0, 0, 0, 0, 0, 0, 0, 0, 0, 0, false, 0, 0, 0, 0⟩

/-- `sym_cache_entry_t`; `id` is the library that the address was taken from. -/
structure SymCacheEntry where
  name : ℕ
  addr : ℕ
  owner : Option ℕ
  id : ℕ

def SymCacheEntry.zero : SymCacheEntry := ⟨0, 0, none, 0⟩

/-- `ldso_state_t`, with the references that are out: those of callers, which hold a pointer to the entry, and those that
libraries hold of the ones they need. -/
structure State where
  libs : ℕ → Klib
  libCount : ℕ
  symCache : ℕ → SymCacheEntry
  direct : List (ℕ × ℕ)
  needed : List (ℕ × ℕ)
  nextId : ℕ
  unloads : ℕ

/-- `ldso_init_state`. -/
def initState : State := ⟨fun _ => .zero, 0, fun _ => .zero, [], [], 0, 0⟩

def State.setLib (s : State) (i : ℕ) (lib : Klib) : State := { s with libs := Function.update s.libs i lib }

/-- The table with one more entry. -/
def State.push (s : State) (lib : Klib) : State :=
  { s.setLib s.libCount lib with libCount := s.libCount + 1, nextId := s.nextId + 1 }

/-- `ldso_find_loaded`. -/
def findLoaded (path : CStr) (s : State) : Option ℕ :=
  (List.range s.libCount).find? fun i => fileName (s.libs i).name = fileName path

/-- Why a call does not return: a hash chain that never ends, or an overflow of a reference count. `fuel` is never met. -/
inductive Stop where
  | chain | overflow | fuel
  deriving DecidableEq

/-! ## Symbols -/

def stbGlobal : ℕ := 1

def stbWeak : ℕ := 2

/-- The address found so far, 0 for none, and the entry it was found in. -/
abbrev Found := ℕ × Option ℕ

/-- The walk along a hash chain; a chain longer than the table never ends. The result says whether a global symbol was
found. -/
def walk (mem : Memory) (lib : Klib) (slot : ℕ) (name : CStr) : ℕ → ℕ → Found → Except Stop (Bool × Found)
  | fuel, symIdx, found =>
    if symIdx = 0 ∨ lib.symCount ≤ symIdx then .ok (false, found)
    else
      match fuel with
      | 0 => .error .chain
      | fuel + 1 =>
        let sym := mem.sym (lib.symtab + 24 * symIdx)
        let next := mem.u32 (lib.hash + 8 + 4 * lib.hashNbucket + 4 * symIdx)
        if sym.shndx ≠ 0 ∧ sym.name ≠ 0 ∧ mem.str (lib.strtab + sym.name) = name then
          let symAddr := (lib.baseAddr + sym.value) % 2 ^ 64
          if sym.bind = stbGlobal then .ok (true, symAddr, some slot)
          else if sym.bind = stbWeak ∧ found.1 = 0 then walk mem lib slot name fuel next (symAddr, some slot)
          else walk mem lib slot name fuel next found
        else walk mem lib slot name fuel next found

/-- The loop over the libraries. -/
def search (mem : Memory) (s : State) (name : CStr) : List ℕ → Found → Except Stop Found
  | [], found => .ok found
  | slot :: slots, found =>
    let lib := s.libs slot
    if lib.symtab = 0 ∨ lib.hash = 0 ∨ lib.hashNbucket = 0 then search mem s name slots found
    else do
      let start := mem.u32 (lib.hash + 8 + 4 * ((elfHash name).toNat % lib.hashNbucket))
      let (isGlobal, found) ← walk mem lib slot name lib.symCount start found
      if isGlobal then .ok found else search mem s name slots found

/-- `ldso_lookup_symbol`; with the address it gives the library it was taken from. -/
def lookupSymbol (mem : Memory) (name : ℕ) (s : State) : Except Stop ((ℕ × ℕ) × State) :=
  if name = 0 ∨ mem.str name = [] then .ok ((0, 0), s)
  else
    let cacheIdx := (elfHash (mem.str name)).toNat % ldsoSymCacheSize
    let cached := s.symCache cacheIdx
    if cached.name ≠ 0 ∧ cached.addr ≠ 0 ∧ mem.str cached.name = mem.str name then .ok ((cached.addr, cached.id), s)
    else do
      let (addr, owner) ← search mem s (mem.str name) (List.range s.libCount) (0, none)
      let id := (owner.map fun slot => (s.libs slot).id).getD 0
      if addr ≠ 0 then
        .ok ((addr, id), { s with symCache := Function.update s.symCache cacheIdx ⟨name, addr, owner, id⟩ })
      else .ok ((0, 0), s)

/-! ## Loading -/

/-- `R_KENUX_64`, `R_KENUX_PC32`, `R_KENUX_GLOB_DAT` and `R_KENUX_JUMP_SLOT`: the symbol is looked up. -/
def pltSymbolic (type : ℕ) : Bool := type = 1 || type = 2 || type = 3 || type = 4

/-- The same without `R_KENUX_JUMP_SLOT`. -/
def relSymbolic (type : ℕ) : Bool := type = 1 || type = 2 || type = 3

/-- A loop of `ldso_relocate`, without what it writes; `time` counts the relocations. -/
def relocateLoop (mem : ℕ → Memory) (lib : Klib) (rels : ℕ) (symbolic : ℕ → Bool) (time : ℕ) :
    List ℕ → State → Except Stop State
  | [], s => .ok s
  | i :: is, s =>
    let rel := (mem (time + i)).rela (rels + 24 * i)
    if symbolic rel.type then do
      let sym := (mem (time + i)).sym (lib.symtab + 24 * rel.sym)
      let r ← lookupSymbol (mem (time + i)) (lib.strtab + sym.name) s
      relocateLoop mem lib rels symbolic time is r.2
    else relocateLoop mem lib rels symbolic time is s

/-- The relocations that a loop goes through. -/
def relocations (rels relsz : ℕ) : List ℕ := if rels = 0 then [] else List.range (min (relsz / 24) ldsoMaxRels)

/-- `ldso_relocate`. -/
def relocate (mem : ℕ → Memory) (slot : ℕ) (s : State) : Except Stop State :=
  let lib := s.libs slot
  if lib.resolved then .ok s
  else do
    let s ← relocateLoop mem lib lib.pltRels pltSymbolic 0 (relocations lib.pltRels lib.pltRelsz) s
    let s ← relocateLoop mem lib lib.rels relSymbolic ldsoMaxRels (relocations lib.rels lib.relsz) s
    .ok (s.setLib slot { s.libs slot with resolved := true })

/-- `ldso_parse_dynamic`. -/
def parseDynamic (mem : Memory) : List Dyn → Klib → Klib
  | [], lib => lib
  | d :: ds, lib =>
    if d.tag = 0 then lib
    else
      let ptr := (lib.baseAddr + d.val) % 2 ^ 64
      let lib :=
        if d.tag = 6 then { lib with symtab := ptr }
        else if d.tag = 5 then { lib with strtab := ptr }
        else if d.tag = 4 then
          { lib with hash := ptr, hashNbucket := mem.u32 ptr, symCount := mem.u32 (ptr + 4) }
        else if d.tag = 23 then { lib with pltRels := ptr }
        else if d.tag = 2 then { lib with pltRelsz := d.val }
        else if d.tag = 17 then { lib with rels := ptr }
        else if d.tag = 18 then { lib with relsz := d.val }
        else lib
      parseDynamic mem ds lib

/-- `/lib/`. -/
def libDir : CStr := [47, 108, 105, 98, 47]

/-- The path of a dependency, if it has one that fits. -/
def depPath (depName : CStr) : Option CStr :=
  if depName = [] then none
  else if depName.head? = some slash then if 512 ≤ depName.length then none else some depName
  else if 512 ≤ (libDir ++ depName).length then none
  else some (libDir ++ depName)

/-- A reference is taken: by a caller, which gets the pointer, or by a library. -/
def State.hold (s : State) (holder : Option ℕ) (slot : ℕ) : State :=
  match holder with
  | none => { s with direct := (slot, (s.libs slot).id) :: s.direct }
  | some d => { s with needed := (d, (s.libs slot).id) :: s.needed }

/-- `existing->ref_count++`. -/
def addRef (holder : Option ℕ) (slot : ℕ) (s : State) : Except Stop State :=
  if (s.libs slot).refCount = 2 ^ 31 - 1 then .error .overflow
  else .ok ((s.setLib slot { s.libs slot with refCount := (s.libs slot).refCount + 1 }).hold holder slot)

/-- `ldso_load_dependencies` for the library in `slot`; `load` is `ldso_load_library`, and the number counts the calls
of it. -/
def loadDependencies (load : CStr → ℕ × State → Except Stop (Option ℕ × ℕ × State)) (mem : ℕ → Memory) (slot : ℕ) :
    ℕ → List Dyn → ℕ × State → Except Stop (ℕ × State)
  | _, [], ks => .ok ks
  | i, d :: ds, ks =>
    if d.tag = 0 then .ok ks
    else if d.tag = 1 then
      match depPath ((mem i).str ((ks.2.libs slot).strtab + d.val)) with
      | none => loadDependencies load mem slot (i + 1) ds ks
      | some path =>
        match findLoaded path ks.2 with
        | some existing => do
          let s ← addRef (some (ks.2.libs slot).id) existing ks.2
          loadDependencies load mem slot (i + 1) ds (ks.1, s)
        | none => do
          let r ← load path ks
          loadDependencies load mem slot (i + 1) ds r.2
    else loadDependencies load mem slot (i + 1) ds ks

def pageSize : ℕ := 4096

/-- The loop over the segments for `vaddr_low` and `vaddr_high`. -/
def extent (phdrs : List Phdr) : ℕ × ℕ :=
  phdrs.foldl
    (fun (low, high) p =>
      if p.type = 1 then
        let segStart := p.vaddr - p.vaddr % pageSize
        let segEnd := ((p.vaddr + p.memsz) % 2 ^ 64 + (pageSize - 1)) % 2 ^ 64
        (min low segStart, max high (segEnd - segEnd % pageSize))
      else (low, high))
    (2 ^ 64 - 1, 0)

/-- `vma_alloc_range` of a `vma_t` that `vma_init` has just set up: `heap_end`. -/
def vmaAllocRange : ℕ := 0xFFFFFFFF80000000 + 0x100000

/-- The new entry, filled in by `memset` and `strncpy`. -/
def newLib (path : CStr) (s : State) : Klib :=
  { Klib.zero with
    name := path.take (ldsoLibNameMax - 1)
    refCount := 1
    id := s.nextId
    born := s.unloads }

/-- A library of this size at the address of all. -/
def Klib.mapped (lib : Klib) (loadSize : ℕ) : Klib :=
  { lib with
    loadSize := loadSize
    baseAddr := vmaAllocRange
    mapStart := vmaAllocRange
    mapEnd := (vmaAllocRange + loadSize) % 2 ^ 64 }

/-- `ldso_load_library` behind the checks, up to the dependencies: the new entry, and the dynamic entries if there are
any; or what is left in the entry by a failure. -/
def readLib (a : Attempt) (lib : Klib) : Klib ⊕ Klib × List Dyn :=
  match a.phdrs with
  | none => .inl lib
  | some phdrs =>
    let (low, high) := extent phdrs
    if low = 2 ^ 64 - 1 ∨ high ≤ low then .inl lib
    else
      let lib := lib.mapped (high - low)
      if phdrs.any fun p => p.type = 1 && p.filesz ≠ 0 && !p.reads then .inl lib
      else if phdrs.any fun p => p.type = 2 then
        match a.dyn with
        | none => .inl lib
        | some dyn => .inr (parseDynamic (a.mem 0) dyn lib, dyn)
      else .inr (lib, [])

/-- `ldso_load_library` for a caller or for the library that holds the reference. Its calls are counted; the first
argument bounds how deep they are nested. -/
def loadLibrary : ℕ → (ℕ → Attempt) → Option ℕ → CStr → ℕ × State → Except Stop (Option ℕ × ℕ × State)
  | 0, _, _, _, _ => .error .fuel
  | fuel + 1, env, holder, path, (k, s) =>
    let a := env k
    if a.opens = false ∨ a.verified = false then .ok (none, k + 1, s)
    else if ldsoMaxLibs ≤ s.libCount then .ok (none, k + 1, s)
    else
      match findLoaded path s with
      | some existing => do
        let s ← addRef holder existing s
        .ok (some existing, k + 1, s)
      | none =>
        let slot := s.libCount
        match readLib a (newLib path s) with
        | .inl lib => .ok (none, k + 1, s.setLib slot lib)
        | .inr (lib, dyn) => do
          let ks ← loadDependencies (loadLibrary fuel env (some lib.id)) a.mem slot 1 dyn
            (k + 1, (s.push lib).hold holder slot)
          let s ← relocate a.relocMem slot ks.2
          .ok (some slot, ks.1, s)

/-! ## Unloading -/

/-- `ldso_unload_library`, for a pointer that a load of the library `id` has returned. -/
def unloadLibrary (slot id : ℕ) (s : State) : State :=
  let s := { s with direct := s.direct.erase (slot, id) }
  let lib := s.libs slot
  let s := s.setLib slot { lib with refCount := lib.refCount - 1 }
  if 0 < lib.refCount - 1 then s
  else
    -- its memory goes, and with it that of all others
    let s := { s with unloads := s.unloads + 1, needed := s.needed.filter fun r => r.1 ≠ lib.id }
    let last := (s.libCount + (2 ^ 32 - 1)) % 2 ^ 32
    let s := if slot < last then s.setLib slot (s.libs last) else s
    { s with
      libCount := last
      symCache := fun i => if (s.symCache i).owner = some slot then .zero else s.symCache i }

/-! ## The calls -/

inductive Step where
  | load (env : ℕ → Attempt) (path : CStr)
  | lookup (mem : Memory) (name : ℕ)
  | unload (slot id : ℕ)

/-- `ldso_load_library` as it is called. -/
def load (env : ℕ → Attempt) (path : CStr) (s : State) : Except Stop (Option ℕ × ℕ × State) :=
  loadLibrary (ldsoMaxLibs + 1) env none path (0, s)

local instance lawfulPair : LawfulBEq (ℕ × ℕ) := inferInstance

def step (s : State) : Step → Option State
  | .load env path => (load env path s).toOption.map fun r => r.2.2
  | .lookup mem name => (lookupSymbol mem name s).toOption.map Prod.snd
  | .unload slot id => if (slot, id) ∈ s.direct then some (unloadLibrary slot id s) else none

end Ldso
