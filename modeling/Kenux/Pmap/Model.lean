import Kenux.Lib.Run
import Mathlib.Data.UInt

/-!
# Page tables (`arch/x86_64/memory.c`)

The `pmap_*` functions over physical memory. Memory is a function from the byte address of an aligned
64-bit word to its value; page tables are reached through it by the addresses the code computes.
`memory_alloc_aligned(PAGE_SIZE, PAGE_SIZE)` is a parameter: a source of page frames that hands out
each frame once. The `invlpg` and `cr3` instructions change no word of memory and are left out;
`pmap_switch` keeps its assignment to `current_pml4`.
-/

namespace Pmap

abbrev PhysMem := UInt64 → UInt64

def pageSize : UInt64 := 4096
def pagePresent : UInt64 := 0x1
def pageWritable : UInt64 := 0x2
def pageSize2M : UInt64 := 0x80

/-- `PTE_FLAGS(addr, flags)` -/
def pteFlags (addr flags : UInt64) : UInt64 := addr ||| flags

/-- `PTE_ADDR(pte)` -/
def pteAddr (pte : UInt64) : UInt64 := pte &&& 0x000FFFFFFFFFF000

/-- `memory_alloc_aligned(PAGE_SIZE, PAGE_SIZE)`: `alloc` returns the address of a frame, or 0 when
there is none. A frame handed out is page-aligned, below `2 ^ 52` and not in use before. -/
structure FrameSource (α : Type) where
  alloc : α → UInt64 × α
  inUse : α → Set UInt64
  keeps : ∀ a, inUse a ⊆ inUse (alloc a).2
  takes : ∀ a, (alloc a).1 ≠ 0 → (alloc a).1 ∈ inUse (alloc a).2
  fresh : ∀ a, (alloc a).1 ≠ 0 → (alloc a).1 ∉ inUse a
  aligned : ∀ a, (alloc a).1.toNat % 4096 = 0
  bounded : ∀ a, (alloc a).1.toNat < 2 ^ 52

/-- Physical memory, the state of the frame source and `current_pml4`. -/
structure State (α : Type) where
  mem : PhysMem
  heap : α
  currentPml4 : UInt64

/-- The address of slot `i` of the table at `t`, `&t[i]`. -/
def slot (t : UInt64) (i : Fin 512) : UInt64 := t + 8 * UInt64.ofNat i

/-- The word `t[i]` of a table. -/
def PhysMem.entry (m : PhysMem) (t : UInt64) (i : Fin 512) : UInt64 := m (slot t i)

/-- The address lies in the page that starts at `t`. -/
def InPage (t a : UInt64) : Prop := t.toNat ≤ a.toNat ∧ a.toNat < t.toNat + 4096

instance (t a : UInt64) : Decidable (InPage t a) := inferInstanceAs (Decidable (_ ∧ _))

/-- `memset(table, 0, PAGE_SIZE)` -/
def PhysMem.zeroPage (m : PhysMem) (t : UInt64) : PhysMem := fun a => if InPage t a then 0 else m a

/-- `memcpy(dst, src, PAGE_SIZE)` -/
def PhysMem.copyPage (m : PhysMem) (dst src : UInt64) : PhysMem :=
  fun a => if InPage dst a then m (src + (a - dst)) else m a

/-- `(vaddr >> shift) & 0x1FF` -/
def tableIndex (vaddr shift : UInt64) : Fin 512 :=
  ⟨((vaddr >>> shift) &&& 0x1FF).toNat, by
    rw [UInt64.toNat_and]
    exact lt_of_le_of_lt Nat.and_le_right (by decide)⟩

def idxPml4 (vaddr : UInt64) : Fin 512 := tableIndex vaddr 39
def idxPdpt (vaddr : UInt64) : Fin 512 := tableIndex vaddr 30
def idxPd (vaddr : UInt64) : Fin 512 := tableIndex vaddr 21
def idxPt (vaddr : UInt64) : Fin 512 := tableIndex vaddr 12

section

variable {α : Type} (src : FrameSource α)

/-- `__pmap_get_or_alloc_table`: the table that `entry` refers to, made on demand; 0 is `NULL`. -/
def pmapGetOrAllocTable (s : State α) (entry : UInt64) : UInt64 × State α :=
  if s.mem entry &&& pagePresent ≠ 0 then (pteAddr (s.mem entry), s)
  else
    let (table, heap) := src.alloc s.heap
    if table = 0 then (0, { s with heap := heap })
    else
      let mem := s.mem.zeroPage table
      let mem := Function.update mem entry (pteFlags table (pagePresent ||| pageWritable))
      (table, { s with mem := mem, heap := heap })

/-- `pmap_create`: a new top-level table, a copy of the current one. -/
def pmapCreate (s : State α) : UInt64 × State α :=
  let (pml4, heap) := src.alloc s.heap
  if pml4 = 0 then (0, { s with heap := heap })
  else
    let mem := s.mem.zeroPage pml4
    let mem := if s.currentPml4 ≠ 0 then mem.copyPage pml4 s.currentPml4 else mem
    (pml4, { s with mem := mem, heap := heap })

/-- `pmap_switch` -/
def pmapSwitch (s : State α) (pml4 : UInt64) : State α :=
  if pml4 = 0 then s else { s with currentPml4 := pml4 }

/-- `pmap_map_page`: 0 on success, -1 when a table cannot be made. -/
def pmapMapPage (s : State α) (pml4 vaddr paddr flags : UInt64) : ℤ × State α :=
  if pml4 = 0 then (-1, s)
  else
    let (pdpt, s) := pmapGetOrAllocTable src s (slot pml4 (idxPml4 vaddr))
    if pdpt = 0 then (-1, s)
    else
      let (pd, s) := pmapGetOrAllocTable src s (slot pdpt (idxPdpt vaddr))
      if pd = 0 then (-1, s)
      else
        let (pt, s) := pmapGetOrAllocTable src s (slot pd (idxPd vaddr))
        if pt = 0 then (-1, s)
        else
          (0, { s with
            mem := Function.update s.mem (slot pt (idxPt vaddr))
              (pteFlags paddr (flags ||| pagePresent)) })

/-- `pmap_unmap_page` -/
def pmapUnmapPage (s : State α) (pml4 vaddr : UInt64) : State α :=
  if pml4 = 0 then s
  else if s.mem.entry pml4 (idxPml4 vaddr) &&& pagePresent = 0 then s
  else
    let pdpt := pteAddr (s.mem.entry pml4 (idxPml4 vaddr))
    if s.mem.entry pdpt (idxPdpt vaddr) &&& pagePresent = 0 then s
    else
      let pd := pteAddr (s.mem.entry pdpt (idxPdpt vaddr))
      if s.mem.entry pd (idxPd vaddr) &&& pagePresent = 0 then s
      else
        let pt := pteAddr (s.mem.entry pd (idxPd vaddr))
        { s with mem := Function.update s.mem (slot pt (idxPt vaddr)) 0 }

end

/-- `pmap_get_physical` -/
def pmapGetPhysical (m : PhysMem) (pml4 vaddr : UInt64) : UInt64 :=
  if pml4 = 0 then 0
  else if m.entry pml4 (idxPml4 vaddr) &&& pagePresent = 0 then 0
  else
    let pdpt := pteAddr (m.entry pml4 (idxPml4 vaddr))
    if m.entry pdpt (idxPdpt vaddr) &&& pagePresent = 0 then 0
    else
      let pd := pteAddr (m.entry pdpt (idxPdpt vaddr))
      if m.entry pd (idxPd vaddr) &&& pagePresent = 0 then 0
      else if m.entry pd (idxPd vaddr) &&& pageSize2M ≠ 0 then
        pteAddr (m.entry pd (idxPd vaddr)) + (vaddr &&& 0x1FFFFF)
      else
        let pt := pteAddr (m.entry pd (idxPd vaddr))
        if m.entry pt (idxPt vaddr) &&& pagePresent = 0 then 0
        else pteAddr (m.entry pt (idxPt vaddr)) + (vaddr &&& 0xFFF)

/-- The 36-bit virtual page number. -/
def vpn (vaddr : UInt64) : ℕ := vaddr.toNat / 4096 % 2 ^ 36

end Pmap

/-!
## Copy on write (`arch/x86_64/pagefault.c`)

`cow_mark_page` and `cow_resolve_fault` walk the tables themselves. They clear only the lower twelve bits
of an entry to get an address. `alloc_pages(0)` is a parameter that answers with the page frame number of
the new page. Of the process only `rss` is kept; `invlpg` changes no word of memory.
-/

namespace Pmap

def pageCowFlag : UInt64 := 0x200

/-- `alloc_pages(0)` and `page_to_pfn` of its result. A new page is below `2 ^ 52` and not in use. -/
structure PageSource (α : Type) where
  allocPages : α → Option UInt64 × α
  inUse : α → Set UInt64
  fresh : ∀ a pfn, (allocPages a).1 = some pfn → pfn * pageSize ∉ inUse a
  bounded : ∀ a pfn, (allocPages a).1 = some pfn → pfn.toNat < 2 ^ 40

/-- Physical memory, the state of the page allocator, `cr3` and the current process's `rss`. -/
structure CowState (α : Type) where
  mem : PhysMem
  pages : α
  cr3 : UInt64
  rss : UInt64

/-- `entry & ~0xFFFULL` -/
def entryAddr (entry : UInt64) : UInt64 := entry &&& ~~~0xFFF

/-- The address of the page table entry of `vaddr`, if the tables above it are present. -/
def findPte (m : PhysMem) (pml4 vaddr : UInt64) : Option UInt64 :=
  let pml4e := m.entry pml4 (idxPml4 vaddr)
  if pml4e &&& 1 = 0 then none
  else
    let pdpte := m.entry (entryAddr pml4e) (idxPdpt vaddr)
    if pdpte &&& 1 = 0 then none
    else
      let pde := m.entry (entryAddr pdpte) (idxPd vaddr)
      if pde &&& 1 = 0 then none else some (slot (entryAddr pde) (idxPt vaddr))

/-- What `cow_mark_page` makes of an entry. -/
def cowMarked (entry : UInt64) : UInt64 := (entry &&& ~~~pageWritable) ||| pageCowFlag

/-- `cow_mark_page` -/
def cowMarkPage (m : PhysMem) (pml4 vaddr : UInt64) : ℤ × PhysMem :=
  match findPte m pml4 vaddr with
  | none => (-1, m)
  | some pte => if m pte &&& 1 = 0 then (-1, m) else (0, Function.update m pte (cowMarked (m pte)))

/-- The entry that `cow_resolve_fault` writes. -/
def cowResolved (newPaddr oldPte : UInt64) : UInt64 :=
  ((newPaddr ||| (oldPte &&& 0xFFF)) ||| pageWritable) &&& ~~~pageCowFlag

/-- `cow_resolve_fault` -/
def cowResolveFault {α : Type} (src : PageSource α) (s : CowState α) (vaddr : UInt64) :
    ℤ × CowState α :=
  match findPte s.mem s.cr3 vaddr with
  | none => (-1, s)
  | some pte =>
    let oldPte := s.mem pte
    if oldPte &&& pagePresent = 0 then (-1, s)
    else if oldPte &&& pageCowFlag = 0 then (-1, s)
    else
      match src.allocPages s.pages with
      | (none, pages) => (-1, { s with pages := pages })
      | (some pfn, pages) =>
        let newPaddr := pfn * pageSize
        let mem := s.mem.copyPage newPaddr (entryAddr oldPte)
        (0,
          { s with
            mem := Function.update mem pte (cowResolved newPaddr oldPte)
            pages := pages
            rss := s.rss + pageSize })

/-!
## A page table as a finite map

What a page table is for: a partial map from virtual page numbers to physical pages. The operations
on one address space act on the map as they report, and the map says what an address translates to.
-/

/-- The physical page of each mapped virtual page number. -/
abbrev VMap := ℕ → Option UInt64

/-- What `v` translates to: the physical page plus the offset in the page, 0 if it is not mapped. -/
def VMap.lookup (f : VMap) (v : UInt64) : UInt64 :=
  match f (vpn v) with
  | none => 0
  | some paddr => paddr + v % 4096

/-- The operations on the tables below one top-level table. -/
inductive PmapOp where
  | map (vaddr paddr flags : UInt64)
  | unmap (vaddr : UInt64)

def PmapOp.vaddr : PmapOp → UInt64
  | .map v _ _ => v
  | .unmap v => v

/-- A page is mapped with an aligned physical address below `2 ^ 52` and flags outside the address
bits that do not ask for a 2M page. -/
def PmapOp.Valid : PmapOp → Prop
  | .map _ paddr flags =>
      paddr.toNat % 4096 = 0 ∧ paddr.toNat < 2 ^ 52 ∧ pteAddr flags = 0 ∧ flags &&& pageSize2M = 0
  | .unmap _ => True

/-- The code's step: its return value (0 for `pmap_unmap_page`) and the state after it. -/
def pmapStep {α : Type} (src : FrameSource α) (pml4 : UInt64) (s : State α) : PmapOp → ℤ × State α
  | .map v p f => pmapMapPage src s pml4 v p f
  | .unmap v => (0, pmapUnmapPage s pml4 v)

/-- The map after an operation that returned `ret`. -/
def VMap.apply (f : VMap) (ret : ℤ) : PmapOp → VMap
  | .map v p _ => if ret = 0 then Function.update f (vpn v) (some p) else f
  | .unmap v => Function.update f (vpn v) none

/-- Code and map take the same operation. -/
def jointStep {α : Type} (src : FrameSource α) (pml4 : UInt64) (x : State α × VMap) (op : PmapOp) :
    Option (State α × VMap) :=
  some ((pmapStep src pml4 x.1 op).2, x.2.apply (pmapStep src pml4 x.1 op).1 op)

/-- A zeroed top-level table that the frame source has handed out. -/
structure ZeroedPml4 {α : Type} (src : FrameSource α) (s : State α) (pml4 : UInt64) : Prop where
  notNull : pml4 ≠ 0
  aligned : pml4.toNat % 4096 = 0
  inUse : pml4 ∈ src.inUse s.heap
  zeroed : ∀ i, s.mem.entry pml4 i = 0

end Pmap
