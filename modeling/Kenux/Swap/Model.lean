import Kenux.Lib.Bitmap
import Kenux.Lib.Files
import Kenux.Lib.Run

/-!
# Swap areas

Model of `kernel/arch/x86_64/swap.c`. An area is a run of slots in a partition or a file with a bitmap of
the slots in use; a swap entry packs the index of an area and a slot of it into one word. The calls on
files are a parameter. Locks, the statistics and the fields that are only written (`device`,
`file_path`, the two counters of calls) are left out.
-/

namespace Swap

variable {τ : Type*}

def swapSlotSize : ℕ := 4096
def swapMapMaxSlots : ℕ := 262144
def swapMaxAreas : ℕ := 16
def swapTypePartition : UInt32 := 1
def swapTypeFile : UInt32 := 2
def kernelVma : UInt64 := 0xFFFFFFFF80000000
/-- `PAGE_PRESENT | PAGE_WRITABLE | PAGE_USER`. -/
def pageFlags : UInt64 := 7

structure SwapArea where
  type : UInt32 := 0
  active : Bool := false
  fd : ℤ := 0
  totalSlots : ℕ := 0
  usedSlots : ℕ := 0
  freeSlots : ℕ := 0
  bitmap : Bitmap.Bytes := fun _ => 0
  /-- Not in the source: the number of the call that made the area. -/
  serial : ℕ := 0

/-- The global `g_swap`, and the files behind the areas. -/
structure State (τ : Type*) where
  areas : ℕ → SwapArea
  areaCount : ℕ
  initialized : Bool
  files : τ
  /-- Not in the source: how many areas were made so far. -/
  made : ℕ

def State.setArea (s : State τ) (i : ℕ) (area : SwapArea) : State τ :=
  { s with areas := Function.update s.areas i area }

@[simp] theorem State.setArea_areas (s : State τ) (i : ℕ) (area : SwapArea) :
    (s.setArea i area).areas = Function.update s.areas i area := rfl
@[simp] theorem State.setArea_areaCount (s : State τ) (i : ℕ) (area : SwapArea) :
    (s.setArea i area).areaCount = s.areaCount := rfl
@[simp] theorem State.setArea_initialized (s : State τ) (i : ℕ) (area : SwapArea) :
    (s.setArea i area).initialized = s.initialized := rfl
@[simp] theorem State.setArea_files (s : State τ) (i : ℕ) (area : SwapArea) :
    (s.setArea i area).files = s.files := rfl

/-- `swap_init`. -/
def swapInit (files : τ) : State τ :=
  { areas := fun _ => {}, areaCount := 0, initialized := true, files := files, made := 0 }

section Entries

def swapEntrySlotMask : UInt64 := 0x00FFFFFFFFFFFFFF

def swapEntryEncode (area slot : UInt64) : UInt64 := (area <<< 56) ||| (slot &&& swapEntrySlotMask)

def swapEntryGetArea (entry : UInt64) : ℕ := (entry >>> 56).toUInt32.toNat

def swapEntryGetSlot (entry : UInt64) : ℕ := (entry &&& swapEntrySlotMask).toNat

end Entries

section Areas

variable (vfs : Files.Ops τ)

/-- `current_total`, in 64 bits. -/
def currentTotal (s : State τ) : ℕ → ℕ
  | 0 => 0
  | n + 1 => (currentTotal s n + (s.areas n).totalSlots) % 2 ^ 64

/-- The loop that fills the file of an area with zero pages; a call of `vfs_write` that returns no
positive number ends it. -/
def fillZeros (fd : ℤ) (expectedSize current : ℕ) (files : τ) : τ :=
  if current < expectedSize then
    if (vfs.write files fd (fun _ => 0) swapSlotSize).1 ≤ 0 then
      (vfs.write files fd (fun _ => 0) swapSlotSize).2
    else
      fillZeros fd expectedSize
        (current + (vfs.write files fd (fun _ => 0) swapSlotSize).1.toNat)
        (vfs.write files fd (fun _ => 0) swapSlotSize).2
  else files
termination_by expectedSize - current

/-- An area as `swap_add_area` sets it up, with all slots free. -/
def newArea (type : UInt32) (sizePages : UInt64) (serial : ℕ) : SwapArea :=
  { type := type, active := true, totalSlots := sizePages.toNat, usedSlots := 0,
    freeSlots := sizePages.toNat, serial := serial }

/-- The area after the last one gets its file, if it has one; only then it counts. -/
def openArea (s : State τ) (area : SwapArea) (sizePages : UInt64) : Option String → ℤ × State τ
  | some path =>
    let (fd, files) := vfs.openFile s.files path
    let s := { s.setArea s.areaCount { area with fd := fd } with files := files }
    if fd < 0 then (-1, s)
    else
      let files := (vfs.lseek (fillZeros vfs fd (sizePages.toNat * swapSlotSize) 0 files) fd 0).2
      (0, { s with files := files, areaCount := s.areaCount + 1 })
  | none =>
    (0, { s.setArea s.areaCount { area with fd := -1 } with areaCount := s.areaCount + 1 })

/-- `swap_add_area`; `zalloc` says whether the bitmap is allocated. -/
def swapAddArea (s : State τ) (type : UInt32) (filePath : Option String) (sizePages : UInt64)
    (zalloc : Bool) : ℤ × State τ :=
  if ¬s.initialized then (-1, s)
  else if type ≠ swapTypePartition ∧ type ≠ swapTypeFile then (-1, s)
  else if sizePages = 0 ∨ sizePages.toNat > swapMapMaxSlots then (-1, s)
  else if s.areaCount ≥ swapMaxAreas then (-1, s)
  -- the sum is taken in 64 bits: this test never succeeds
  else if (currentTotal s s.areaCount + sizePages.toNat) % 2 ^ 64 > 2 ^ 64 - 1 then (-1, s)
  else
    let area := newArea type sizePages s.made
    if ¬zalloc then (-1, s.setArea s.areaCount area)
    else
      openArea vfs { s with made := s.made + 1 } area sizePages
        (if type = swapTypeFile then filePath else none)

/-- Deactivates an area and closes its file. -/
def State.closeArea (s : State τ) (i : ℕ) : State τ :=
  let area := s.areas i
  if area.fd ≥ 0 then
    { s.setArea i { area with active := false, fd := -1 } with files := vfs.close s.files area.fd }
  else s.setArea i { area with active := false }

/-- Copies the last area over area `i`. -/
def State.moveLast (s : State τ) (i : ℕ) : State τ :=
  if i < s.areaCount - 1 then s.setArea i (s.areas (s.areaCount - 1)) else s

/-- `swap_remove_area`: the last area takes the place of the removed one. -/
def swapRemoveArea (s : State τ) (areaIndex : ℕ) : ℤ × State τ :=
  if ¬s.initialized then (-1, s)
  else if areaIndex ≥ s.areaCount then (-1, s)
  else if (s.areas areaIndex).usedSlots ≠ 0 then (-1, s)
  else
    let s := (s.closeArea vfs areaIndex).moveLast areaIndex
    (0, { s with areaCount := s.areaCount - 1 })

end Areas

section Slots

/-- Marks a slot of an area as taken. -/
def SwapArea.take (area : SwapArea) (slot : ℕ) : SwapArea :=
  { area with
    bitmap := Bitmap.set area.bitmap slot
    usedSlots := area.usedSlots + 1
    freeSlots := area.freeSlots - 1 }

/-- Gives a slot of an area back. -/
def SwapArea.giveBack (area : SwapArea) (slot : ℕ) : SwapArea :=
  { area with
    bitmap := Bitmap.clear area.bitmap slot
    usedSlots := area.usedSlots - 1
    freeSlots := area.freeSlots + 1 }

/-- The loop of `swap_alloc_entry` over the `n` areas from `i` on. -/
def allocFrom (s : State τ) (i : ℕ) : ℕ → UInt64 × State τ
  | 0 => (0, s)
  | n + 1 =>
    let area := s.areas i
    if ¬area.active ∨ area.freeSlots = 0 then allocFrom s (i + 1) n
    else
      match Bitmap.findFreeFrom area.bitmap 0 area.totalSlots with
      | none => allocFrom s (i + 1) n
      | some slot =>
        (swapEntryEncode (UInt64.ofNat i) (UInt64.ofNat slot), s.setArea i (area.take slot))

def swapAllocEntry (s : State τ) : UInt64 × State τ :=
  if ¬s.initialized then (0, s) else allocFrom s 0 s.areaCount

def swapFreeEntry (s : State τ) (entry : UInt64) : ℤ × State τ :=
  if ¬s.initialized ∨ entry = 0 then (-1, s)
  else
    let areaIdx := swapEntryGetArea entry
    let slotIdx := swapEntryGetSlot entry
    if areaIdx ≥ s.areaCount then (-1, s)
    else
      let area := s.areas areaIdx
      if ¬area.active ∨ slotIdx ≥ area.totalSlots then (-1, s)
      else if ¬Bitmap.test area.bitmap slotIdx then (-1, s)
      else (0, s.setArea areaIdx (area.giveBack slotIdx))

end Slots

section Pages

/-- The bytes at a place of the kernel's address space. -/
abbrev Mem := UInt64 → UInt8

/-- Where the kernel sees a physical page. -/
def pageVirt (pagePhys : UInt64) : UInt64 :=
  if pagePhys + kernelVma = 0 then pagePhys else pagePhys + kernelVma

/-- The bytes from an address on. -/
def bytesAt (m : Mem) (virt : UInt64) (k : ℕ) : UInt8 := m (virt + UInt64.ofNat k)

/-- The memory after the slot-sized buffer at an address was overwritten. -/
def putBytes (m : Mem) (virt : UInt64) (data : ℕ → UInt8) : Mem := fun a =>
  if (a - virt).toNat < swapSlotSize then data (a - virt).toNat else m a

/-- What the swap code asks of the page tables and of the page allocator. -/
inductive VmCall where
  | unmapPage (pml4 vaddr : UInt64)
  | freePhysical (pagePhys : UInt64)
  | mapPage (pml4 vaddr pagePhys flags : UInt64)
  deriving DecidableEq

variable (vfs : Files.Ops τ)

/-- `swap_read_slot`: the return value, the buffer and the files. -/
def swapReadSlot (area : SwapArea) (slotIndex : ℕ) (buffer : ℕ → UInt8) (files : τ) :
    ℤ × (ℕ → UInt8) × τ :=
  if ¬area.active ∨ slotIndex ≥ area.totalSlots then (-1, buffer, files)
  else
    let offset := slotIndex * swapSlotSize
    if area.type = swapTypePartition then (0, fun _ => 0, files)
    else if area.type = swapTypeFile then
      if area.fd < 0 then (-1, buffer, files)
      else
        let (o, files) := vfs.lseek files area.fd offset
        if o ≠ offset then (-1, buffer, files)
        else
          let (bytes, data, files) := vfs.read files area.fd swapSlotSize
          let buffer := fun (k : ℕ) => if (k : ℤ) < bytes then data k else buffer k
          if bytes ≠ swapSlotSize then (-1, buffer, files) else (0, buffer, files)
    else (-1, buffer, files)

/-- `swap_write_slot`: the return value and the files. -/
def swapWriteSlot (area : SwapArea) (slotIndex : ℕ) (buffer : ℕ → UInt8) (files : τ) : ℤ × τ :=
  if ¬area.active ∨ slotIndex ≥ area.totalSlots then (-1, files)
  else
    let offset := slotIndex * swapSlotSize
    -- nothing is written to a partition
    if area.type = swapTypePartition then (0, files)
    else if area.type = swapTypeFile then
      if area.fd < 0 then (-1, files)
      else
        let (o, files) := vfs.lseek files area.fd offset
        if o ≠ offset then (-1, files)
        else
          let (bytes, files) := vfs.write files area.fd buffer swapSlotSize
          if bytes ≠ swapSlotSize then (-1, files) else (0, files)
    else (-1, files)

/-- `swap_out`; `pml4` is what `pmap_get` returns. -/
def swapOut (s : State τ) (m : Mem) (pml4 pagePhys vaddr : UInt64) :
    UInt64 × List VmCall × State τ :=
  if ¬s.initialized ∨ pagePhys = 0 then (0, [], s)
  else
    let (entry, s) := swapAllocEntry s
    if entry = 0 then (0, [], s)
    else
      let areaIdx := swapEntryGetArea entry
      let slotIdx := swapEntryGetSlot entry
      let area := s.areas areaIdx
      let (ret, files) := swapWriteSlot vfs area slotIdx (bytesAt m (pageVirt pagePhys)) s.files
      let s := { s with files := files }
      if ret < 0 then (0, [], s.setArea areaIdx (area.giveBack slotIdx))
      else
        let calls := if pml4 ≠ 0 ∧ vaddr ≠ 0 then [.unmapPage pml4 vaddr, .freePhysical pagePhys] else []
        (entry, calls, s)

/-- `swap_in`. -/
def swapIn (s : State τ) (m : Mem) (pml4 entry newPagePhys vaddr : UInt64) :
    ℤ × List VmCall × Mem × State τ :=
  if ¬s.initialized ∨ entry = 0 ∨ newPagePhys = 0 then (-1, [], m, s)
  else
    let areaIdx := swapEntryGetArea entry
    let slotIdx := swapEntryGetSlot entry
    if areaIdx ≥ s.areaCount then (-1, [], m, s)
    else
      let area := s.areas areaIdx
      if ¬area.active ∨ slotIdx ≥ area.totalSlots then (-1, [], m, s)
      else if ¬Bitmap.test area.bitmap slotIdx then (-1, [], m, s)
      else
        let virt := pageVirt newPagePhys
        let (ret, buffer, files) := swapReadSlot vfs area slotIdx (bytesAt m virt) s.files
        let s := { s with files := files }
        let m := putBytes m virt buffer
        if ret < 0 then (-1, [], m, s)
        else
          let calls := if vaddr ≠ 0 ∧ pml4 ≠ 0 then [.mapPage pml4 vaddr newPagePhys pageFlags] else []
          (0, calls, m, s.setArea areaIdx (area.giveBack slotIdx))

end Pages

end Swap

/-!
## What swap entries promise

A swap entry is a handle on one slot of one area. `World` keeps, beside the state of the code, the handles
that were given out and not yet freed, each with the area and the slot it was given for.
-/

namespace Swap

variable {τ : Type*}

/-- An entry that was given out, with the area and the slot it stands for. -/
structure Handle where
  entry : UInt64
  serial : ℕ
  slot : ℕ
  deriving DecidableEq

structure World (τ : Type*) where
  swap : State τ
  outstanding : List Handle

inductive Op where
  | addArea (type : UInt32) (filePath : Option String) (sizePages : UInt64) (zalloc : Bool)
  | removeArea (areaIndex : ℕ)
  | allocEntry
  | freeEntry (entry : UInt64)

/-- The handle an allocation gives out. -/
def newHandle (s : State τ) : Handle :=
  let (entry, s') := swapAllocEntry s
  ⟨entry, (s'.areas (swapEntryGetArea entry)).serial, swapEntryGetSlot entry⟩

/-- One call. -/
def step (vfs : Files.Ops τ) (w : World τ) : Op → Option (World τ)
  | .addArea type filePath sizePages zalloc =>
    some { w with swap := (swapAddArea vfs w.swap type filePath sizePages zalloc).2 }
  | .removeArea areaIndex => some { w with swap := (swapRemoveArea vfs w.swap areaIndex).2 }
  | .allocEntry => some
      { swap := (swapAllocEntry w.swap).2
        outstanding :=
          if (swapAllocEntry w.swap).1 = 0 then w.outstanding
          else newHandle w.swap :: w.outstanding }
  | .freeEntry entry => some
      { swap := (swapFreeEntry w.swap entry).2
        outstanding :=
          if (swapFreeEntry w.swap entry).1 = 0 then w.outstanding.filter (·.entry ≠ entry)
          else w.outstanding }

def start (files : τ) : World τ := { swap := swapInit files, outstanding := [] }

def World.entries (w : World τ) : List UInt64 := w.outstanding.map Handle.entry

/-- The entry leads to the area it was given for, and its slot there is taken. -/
structure Denotes (s : State τ) (h : Handle) : Prop where
  inRange : swapEntryGetArea h.entry < s.areaCount
  active : (s.areas (swapEntryGetArea h.entry)).active = true
  area : (s.areas (swapEntryGetArea h.entry)).serial = h.serial
  slot : swapEntryGetSlot h.entry = h.slot
  bound : h.slot < (s.areas (swapEntryGetArea h.entry)).totalSlots
  taken : Bitmap.test (s.areas (swapEntryGetArea h.entry)).bitmap h.slot = true

/-- The outstanding entries are distinct, each denotes its own slot, and they are the ones that can be
freed. -/
structure HandlesOk (w : World τ) : Prop where
  distinct : w.entries.Nodup
  denotes : ∀ h ∈ w.outstanding, Denotes w.swap h
  freeable : ∀ e, (swapFreeEntry w.swap e).1 = 0 ↔ e ∈ w.entries

/-- Some area can give a slot. -/
def HasFreeSlot (s : State τ) : Prop :=
  ∃ i < s.areaCount, (s.areas i).active = true ∧ (s.areas i).freeSlots ≠ 0

/-- An allocation fails exactly when no slot is free. -/
def FailsOnlyWhenFull (s : State τ) : Prop := (swapAllocEntry s).1 = 0 ↔ ¬HasFreeSlot s

/-- An allocation does not give an outstanding entry again. -/
def GivesNewEntry (w : World τ) : Prop :=
  (swapAllocEntry w.swap).1 ≠ 0 → (swapAllocEntry w.swap).1 ∉ w.entries

/-- The next allocation takes slot 0 of area 0. -/
def TakesFirstSlot (s : State τ) : Prop :=
  0 < s.areaCount ∧ (s.areas 0).active = true ∧ (s.areas 0).freeSlots ≠ 0 ∧
    Bitmap.test (s.areas 0).bitmap 0 = false

/-- Removing area `i` moves the last area, which has slots in use, to index `i`. -/
def MovesUsedArea (s : State τ) (i : ℕ) : Prop :=
  i < s.areaCount - 1 ∧ (s.areas i).usedSlots = 0 ∧ (s.areas (s.areaCount - 1)).usedSlots ≠ 0

/-- No call removes an area so that a used one moves. -/
def OpOk (w : World τ) : Op → Prop
  | .removeArea i => ¬MovesUsedArea w.swap i
  | _ => True

section Pages

/-- Every call of the swap code. -/
inductive Call where
  | addArea (type : UInt32) (filePath : Option String) (sizePages : UInt64) (zalloc : Bool)
  | removeArea (areaIndex : ℕ)
  | allocEntry
  | freeEntry (entry : UInt64)
  | swapOut (m : Mem) (pml4 pagePhys vaddr : UInt64)
  | swapIn (m : Mem) (pml4 entry newPagePhys vaddr : UInt64)

def callStep (vfs : Files.Ops τ) (s : State τ) : Call → Option (State τ)
  | .addArea type filePath sizePages zalloc =>
    some (swapAddArea vfs s type filePath sizePages zalloc).2
  | .removeArea areaIndex => some (swapRemoveArea vfs s areaIndex).2
  | .allocEntry => some (swapAllocEntry s).2
  | .freeEntry entry => some (swapFreeEntry s entry).2
  | .swapOut m pml4 pagePhys vaddr => some (swapOut vfs s m pml4 pagePhys vaddr).2.2
  | .swapIn m pml4 entry newPagePhys vaddr => some (swapIn vfs s m pml4 entry newPagePhys vaddr).2.2.2

variable {φ : Type*} {vfs : Files.Ops τ}

/-- The next slot taken has the same number as the slot of `e`, in another area on the same file. -/
def TakesSameBlock (rb : Files.ReadsBack vfs φ) (s : State τ) (e : UInt64) : Prop :=
  let e' := (swapAllocEntry s).1
  let area := s.areas (swapEntryGetArea e)
  let area' := s.areas (swapEntryGetArea e')
  e' ≠ 0 ∧ swapEntryGetSlot e' = swapEntryGetSlot e ∧ area.type = swapTypeFile ∧
    area'.type = swapTypeFile ∧ rb.file s.files area'.fd = rb.file s.files area.fd

/-- Swapping pages out and other entries in, none over the block of `e`. -/
def OfOthers (rb : Files.ReadsBack vfs φ) (e : UInt64) (s : State τ) : Call → Prop
  | .swapOut _ _ _ _ => ¬TakesSameBlock rb s e
  | .swapIn _ _ entry _ _ => entry ≠ e
  | _ => False

end Pages

end Swap

/-!
## Counters and double frees

Beside the state of the code, `Tracked` keeps the entries that were freed or swapped in and have not been given out
since. Any further call on one of these should be refused.
-/

namespace Swap

variable {τ : Type*}

/-- The counters of an area that counts agree with its bitmap, and none of them underflows. -/
structure CountersOk (s : State τ) : Prop where
  total : ∀ i < s.areaCount, (s.areas i).usedSlots + (s.areas i).freeSlots = (s.areas i).totalSlots
  used : ∀ i < s.areaCount, (s.areas i).usedSlots = Bitmap.count (s.areas i).bitmap (s.areas i).totalSlots
  givenBack : ∀ i < s.areaCount, ∀ slot < (s.areas i).totalSlots,
    Bitmap.test (s.areas i).bitmap slot = true → 0 < (s.areas i).usedSlots
  taken : ∀ i < s.areaCount, ∀ slot < (s.areas i).totalSlots,
    Bitmap.test (s.areas i).bitmap slot = false → 0 < (s.areas i).freeSlots

structure Tracked (τ : Type*) where
  swap : State τ
  freed : List UInt64

variable (vfs : Files.Ops τ)

/-- The entries that are freed and not given out after a call. -/
def freedAfter (t : Tracked τ) : Call → List UInt64
  | .allocEntry => t.freed.filter (· ≠ (swapAllocEntry t.swap).1)
  | .freeEntry entry => if (swapFreeEntry t.swap entry).1 = 0 then entry :: t.freed else t.freed
  | .swapOut m pml4 pagePhys vaddr => t.freed.filter (· ≠ (swapOut vfs t.swap m pml4 pagePhys vaddr).1)
  | .swapIn m pml4 entry newPagePhys vaddr =>
    if (swapIn vfs t.swap m pml4 entry newPagePhys vaddr).1 = 0 then entry :: t.freed else t.freed
  | _ => t.freed

def trackedStep (t : Tracked τ) (c : Call) : Option (Tracked τ) :=
  (callStep vfs t.swap c).map fun s => ⟨s, freedAfter vfs t c⟩

def startTracked (files : τ) : Tracked τ := ⟨swapInit files, []⟩

/-- Freeing or swapping in the entry fails and changes nothing. -/
structure Refuses (s : State τ) (e : UInt64) : Prop where
  free : swapFreeEntry s e = (-1, s)
  swapIn : ∀ m pml4 newPagePhys vaddr, swapIn vfs s m pml4 e newPagePhys vaddr = (-1, [], m, s)

def RefusesFreed (t : Tracked τ) : Prop := ∀ e ∈ t.freed, Refuses vfs t.swap e

/-- A removal does not put an area in place of the removed one in which the slot of a freed entry is in use. -/
def KeepsRefused (t : Tracked τ) : Call → Prop
  | .removeArea i => i < t.swap.areaCount - 1 → (t.swap.areas i).usedSlots = 0 →
    ∀ e ∈ t.freed, swapEntryGetArea e = i →
      ¬(swapEntryGetSlot e < (t.swap.areas (t.swap.areaCount - 1)).totalSlots ∧
        Bitmap.test (t.swap.areas (t.swap.areaCount - 1)).bitmap (swapEntryGetSlot e) = true)
  | _ => True

end Swap
