import Kenux.Lib.Run
import Mathlib.Data.UInt

/-!
# Memory mappings (`arch/x86_64/mmap.c`)

A context is an array of 256 areas. The functions take it and the state `ε` of what they call: the
page tables, the frame allocator and the page cache, given by `Services`. `cr3` is that of the one
address space the context belongs to, locks are held by one caller at a time, and the contents of
pages (`memset`, `memcpy`) are left out: no control flow depends on them.
-/

namespace Mmap

def pageSize : UInt64 := 4096
def mmapSearchStart : UInt64 := 0x7F0000000000
def mmapMinAddr : UInt64 := 0x000010000000
def pageAlignDown (addr : UInt64) : UInt64 := addr &&& ~~~(pageSize - 1)
def pageAlignUp (addr : UInt64) : UInt64 := (addr + pageSize - 1) &&& ~~~(pageSize - 1)

def mapShared : UInt32 := 0x01
def mapPrivate : UInt32 := 0x02
def mapFixed : UInt32 := 0x10
def mapAnonymous : UInt32 := 0x20
def mmapFlagDirty : UInt32 := 0x1000
def mmapFlagCow : UInt32 := 0x2000
def mmapFlagPopulated : UInt32 := 0x4000
def protNone : UInt32 := 0x0
def protRead : UInt32 := 0x1
def protWrite : UInt32 := 0x2
def protExec : UInt32 := 0x4
def pagePresent : UInt64 := 0x1
def pageWritable : UInt64 := 0x2
def pageUser : UInt64 := 0x4
def pageCowFlag : UInt64 := 0x200
def pageNoExec : UInt64 := 0x8000000000000000
def pfWrite : UInt64 := 0x2

/-- `flags & bit` as a condition. -/
def has (flags bit : UInt32) : Bool := flags &&& bit ≠ 0

/-- `mmap_area_t`; `file` is a pointer, 0 is `NULL`. -/
structure Area where
  start : UInt64
  length : UInt64
  prot : UInt32
  flags : UInt32
  offset : UInt64
  refCount : ℤ
  file : UInt64
  active : Bool
  deriving DecidableEq

/-- An area after `memset(area, 0, sizeof(mmap_area_t))`. -/
def Area.zero : Area := ⟨0, 0, 0, 0, 0, 0, 0, false⟩

/-- `area->start + area->length` -/
def Area.end (a : Area) : UInt64 := a.start + a.length

/-- The test of `mmap_check_overlap` and `mmap_find_covering_area`. -/
def Area.covers (a : Area) (addr length : UInt64) : Bool :=
  a.active && addr < a.end && addr + length > a.start

/-- `MMAP_MAX_AREAS` slots -/
abbrev Slot := Fin 256

scoped instance neZeroSlots : NeZero 256 := ⟨by decide⟩

/-- `mmap_context_t` -/
structure Context where
  areas : Slot → Area
  areaCount : ℤ

/-- `mmap_context_init` -/
def mmapContextInit : Context := ⟨fun _ => Area.zero, 0⟩

/-- The first slot in array order that satisfies a test. -/
def firstSlot (p : Slot → Bool) : Option Slot := (List.finRange 256).find? p

/-- What `mmap.c` calls. Frames are named by their page frame number and page cache entries by the
address of their page, with 0 for `NULL`. -/
structure Services (ε : Type) where
  allocPages : ε → Option UInt64 × ε
  freePages : ε → UInt64 → ε
  /-- `pfn_to_page(buddy_get_main_zone(), pfn) != NULL` -/
  inMainZone : UInt64 → Bool
  pmapMapPage : ε → UInt64 → UInt64 → UInt64 → Bool × ε
  pmapUnmapPage : ε → UInt64 → ε
  pmapGetPhysical : ε → UInt64 → UInt64
  pagecacheFindPage : ε → UInt64 → UInt64 → UInt64 × ε
  pagecacheGetPage : ε → UInt64 → UInt64 → UInt64 × ε
  pagecacheSetDirty : ε → UInt64 → ε
  pagecachePutPage : ε → UInt64 → ε
  pagecacheSyncNode : ε → UInt64 → ε

/-- The addresses `a, a + PAGE_SIZE, ..` of a loop that runs while they are below `b`. -/
def pagesBetween (a b : UInt64) : List UInt64 :=
  (List.range ((b.toNat - a.toNat) / 4096)).map fun i => a + pageSize * UInt64.ofNat i

/-- The addresses of the pages of an area or of a new mapping. -/
def pagesFrom (start : UInt64) (npages : ℕ) : List UInt64 :=
  (List.range npages).map fun i => start + pageSize * UInt64.ofNat i

/-- `prot_to_pte_flags` -/
def protToPteFlags (prot : UInt32) : UInt64 :=
  let flags := pagePresent ||| pageUser
  let flags := if has prot protWrite then flags ||| pageWritable else flags
  if has prot protExec then flags else flags ||| pageNoExec

/-! ## Searching the slots -/

/-- `mmap_check_overlap` -/
def mmapCheckOverlap (ctx : Context) (addr length : UInt64) : Bool :=
  (firstSlot fun i => (ctx.areas i).covers addr length).isSome

/-- `mmap_find_covering_area` -/
def mmapFindCoveringArea (ctx : Context) (addr length : UInt64) : Option Slot :=
  firstSlot fun i => (ctx.areas i).covers addr length

/-- `mmap_find_area_at` -/
def mmapFindAreaAt (ctx : Context) (vaddr : UInt64) : Option Slot :=
  firstSlot fun i =>
    (ctx.areas i).active && vaddr ≥ (ctx.areas i).start && vaddr < (ctx.areas i).end

/-- `mmap_alloc_slot` -/
def mmapAllocSlot (ctx : Context) : Option Slot := firstSlot fun i => !(ctx.areas i).active

/-- The area that `mmap_find_free_area` finds in the way of `[tryStart, tryStart + length)`. -/
def findConflict (ctx : Context) (tryStart length : UInt64) : Option Slot :=
  firstSlot fun i => (ctx.areas i).active && tryStart < (ctx.areas i).end &&
    tryStart + length > (ctx.areas i).start

theorem firstSlot_some {p : Slot → Bool} {i : Slot} (h : firstSlot p = some i) : p i = true :=
  List.find?_some h

/-- The loop of `mmap_find_free_area`: a conflict moves the candidate down to the area's start. -/
def findFreeLoop (ctx : Context) (alignedLen candidate : UInt64) : UInt64 :=
  if candidate ≥ mmapMinAddr + alignedLen then
    match _hc : findConflict ctx (candidate - alignedLen) alignedLen with
    | none => candidate - alignedLen
    | some i => findFreeLoop ctx alignedLen (ctx.areas i).start
  else 0
termination_by candidate.toNat
decreasing_by
  have h := firstSlot_some _hc
  simp only [Bool.and_eq_true, decide_eq_true_eq] at h
  have h2 := h.2
  rw [UInt64.sub_add_cancel] at h2
  exact h2

/-- `mmap_find_free_area` -/
def mmapFindFreeArea (ctx : Context) (length : UInt64) : UInt64 :=
  if length = 0 then 0 else findFreeLoop ctx (pageAlignUp length) mmapSearchStart

section

variable {ε : Type} (S : Services ε)

/-- `mmap_free_phys_page`: only a frame of the main zone is found again. -/
def mmapFreePhysPage (e : ε) (paddr : UInt64) : ε :=
  if S.inMainZone (paddr / pageSize) then S.freePages e (paddr / pageSize) else e

def unmapPages (e : ε) (pages : List UInt64) : ε := pages.foldl S.pmapUnmapPage e

/-- The cached pages of a file at the given offsets are marked dirty. -/
def dirtyPages (e : ε) (file : UInt64) (offsets : List UInt64) : ε :=
  offsets.foldl (fun e off =>
    let (pce, e) := S.pagecacheFindPage e file off
    if pce = 0 then e else S.pagecachePutPage (S.pagecacheSetDirty e pce) pce) e

/-! ## `mmap_do_munmap` -/

/-- The part of one area that `[addr, addr + alignedLen)` unmaps. -/
def unmapStart (a : Area) (addr : UInt64) : UInt64 := if addr > a.start then addr else a.start

def unmapEnd (a : Area) (addr alignedLen : UInt64) : UInt64 :=
  if addr + alignedLen < a.end then addr + alignedLen else a.end

/-- The area array after one round of the loop: the area goes, loses its head or its tail, or is
split, in which case the tail is kept only if a slot is free. -/
def trimArea (ctx : Context) (idx : Slot) (addr alignedLen : UInt64) : Context :=
  let area := ctx.areas idx
  let us := unmapStart area addr
  let ue := unmapEnd area addr alignedLen
  if us = area.start ∧ ue = area.end then
    { areas := Function.update ctx.areas idx Area.zero, areaCount := ctx.areaCount - 1 }
  else if us = area.start then
    let removed := ue - area.start
    let cut : Area :=
      { area with
        start := area.start + removed
        length := area.length - removed
        offset := if area.offset ≠ 0 then area.offset + removed else area.offset }
    { ctx with areas := Function.update ctx.areas idx cut }
  else if ue = area.end then
    let cut := { area with length := area.length - (ue - us) }
    { ctx with areas := Function.update ctx.areas idx cut }
  else
    let cut := { area with length := us - area.start }
    match mmapAllocSlot ctx with
    | some slot =>
        let tail : Area :=
          { start := ue, length := area.end - ue, prot := area.prot, flags := area.flags,
            offset := area.offset + (ue - area.start), file := area.file, refCount := 1,
            active := true }
        { areas := Function.update (Function.update ctx.areas slot tail) idx cut
          areaCount := ctx.areaCount + 1 }
    | none => { ctx with areas := Function.update ctx.areas idx cut }

/-- The page cache and page table work of one round. -/
def releaseRange (e : ε) (a : Area) (us ue : UInt64) : ε :=
  let pages := pagesBetween (pageAlignDown us) (pageAlignUp ue)
  let e :=
    if has a.flags mapShared && has a.flags mmapFlagDirty && a.file ≠ 0 then
      S.pagecacheSyncNode (dirtyPages S e a.file (pages.map fun v => a.offset + (v - a.start))) a.file
    else e
  unmapPages S e pages

/-- The loop of `mmap_do_munmap`. Every round leaves the area it treats outside the range, so more
rounds than slots are never needed (`munmapLoop_done`). -/
def munmapLoop (addr alignedLen : UInt64) : ℕ → Context × ε → Context × ε
  | 0, x => x
  | fuel + 1, (ctx, e) =>
    match mmapFindCoveringArea ctx addr alignedLen with
    | none => (ctx, e)
    | some idx =>
      let area := ctx.areas idx
      let e := releaseRange S e area (unmapStart area addr) (unmapEnd area addr alignedLen)
      munmapLoop addr alignedLen fuel (trimArea ctx idx addr alignedLen, e)

/-- `mmap_do_munmap`: 0, or -1 when nothing was found. -/
def mmapDoMunmap (ctx : Context) (e : ε) (addr length : UInt64) : ℤ × Context × ε :=
  if length = 0 then (-1, ctx, e)
  else
    let alignedLen := pageAlignUp length
    let found := (mmapFindCoveringArea ctx addr alignedLen).isSome
    (if found then 0 else -1, munmapLoop S addr alignedLen 257 (ctx, e))

/-! ## `mmap_do_mmap` -/

/-- Frees the pages mapped so far when populating fails. -/
def rollback (e : ε) (pages : List UInt64) : ε :=
  pages.foldl (fun e va =>
    let pa := S.pmapGetPhysical e va
    let e := S.pmapUnmapPage e va
    if pa ≠ 0 then mmapFreePhysPage S e pa else e) e

/-- Gives every page of the list a frame of its own. Populating an anonymous mapping (`strict`)
also fails when a page cannot be mapped; a shared mapping without a file ignores that. On failure
the pages `done` before are rolled back. -/
def populate (strict : Bool) (pteFlags : UInt64) (done : List UInt64) :
    List UInt64 → ε → Bool × ε
  | [], e => (true, e)
  | vaddr :: rest, e =>
    match S.allocPages e with
    | (none, e) => (false, rollback S e done)
    | (some pfn, e) =>
      match S.pmapMapPage e vaddr (pfn * pageSize) pteFlags with
      | (true, e) => populate strict pteFlags (done ++ [vaddr]) rest e
      | (false, e) =>
        if strict then (false, rollback S (S.freePages e pfn) done)
        else populate strict pteFlags (done ++ [vaddr]) rest e

/-- The requests that `mmap_do_mmap` refuses before it looks at the areas. -/
def mmapRefused (addr length : UInt64) (prot flags : UInt32) (offset : UInt64) : Bool :=
  length = 0 || length > 0x10000000000 ||
    (!has prot protRead && !has prot protWrite && !has prot protExec && prot ≠ protNone) ||
    (has flags mapShared && has flags mapPrivate) ||
    (!has flags mapAnonymous && offset &&& (pageSize - 1) ≠ 0) ||
    (addr ≠ 0 && addr &&& (pageSize - 1) ≠ 0)

/-- Where the mapping goes: at `addr` after unmapping what is there (`MAP_FIXED`), at `addr` if
nothing is there, or at a free place; `none` when there is no free place. -/
def mmapPlace (ctx : Context) (e : ε) (addr alignedLen : UInt64) (flags : UInt32) :
    Option UInt64 × Context × ε :=
  let free := mmapFindFreeArea ctx alignedLen
  let found := if free = 0 then none else some free
  if addr ≠ 0 then
    if has flags mapFixed then
      let res := mmapDoMunmap S ctx e addr alignedLen
      (some addr, res.2)
    else if mmapCheckOverlap ctx addr alignedLen then (found, ctx, e)
    else (some addr, ctx, e)
  else (found, ctx, e)

/-- The slot is given up again. -/
def dropSlot (ctx : Context) (slot : Slot) : Context :=
  { areas := Function.update ctx.areas slot { ctx.areas slot with active := false }
    areaCount := ctx.areaCount - 1 }

def addFlags (ctx : Context) (slot : Slot) (f : UInt32) : Context :=
  let area := { ctx.areas slot with flags := (ctx.areas slot).flags ||| f }
  { ctx with areas := Function.update ctx.areas slot area }

/-- `mmap_do_mmap`; the result -1 is `2 ^ 64 - 1`. A new area never has a file, so the branch of
`MAP_SHARED` for files is not entered. -/
def mmapDoMmap (ctx : Context) (e : ε) (addr length : UInt64) (prot flags : UInt32)
    (offset : UInt64) : UInt64 × Context × ε :=
  if mmapRefused addr length prot flags offset then (-1, ctx, e)
  else
    let alignedLen := pageAlignUp length
    match mmapPlace S ctx e addr alignedLen flags with
    | (none, ctx, e) => (-1, ctx, e)
    | (some mapAddr, ctx, e) =>
      match mmapAllocSlot ctx with
      | none => (-1, ctx, e)
      | some slot =>
        let area : Area :=
          { start := mapAddr, length := alignedLen, prot := prot, flags := flags, offset := offset,
            refCount := 1, active := true, file := 0 }
        let ctx : Context :=
          { areas := Function.update ctx.areas slot area, areaCount := ctx.areaCount + 1 }
        let pages := pagesFrom mapAddr (alignedLen.toNat / 4096)
        let pteFlags := protToPteFlags prot
        if has flags mapAnonymous then
          match populate S true pteFlags [] pages e with
          | (true, e) => (mapAddr, addFlags ctx slot mmapFlagPopulated, e)
          | (false, e) => (-1, dropSlot ctx slot, e)
        else if has flags mapPrivate then (mapAddr, addFlags ctx slot mmapFlagCow, e)
        else if has flags mapShared then
          match populate S false pteFlags [] pages e with
          | (true, e) => (mapAddr, addFlags ctx slot mmapFlagPopulated, e)
          | (false, e) => (-1, dropSlot ctx slot, e)
        else (mapAddr, ctx, e)

/-! ## `mmap_do_mprotect`, page faults and the end of a context -/

/-- Maps the pages that have a frame again, with other flags. -/
def remapPages (e : ε) (pteFlags : UInt64) (pages : List UInt64) : ε :=
  pages.foldl (fun e v =>
    let paddr := S.pmapGetPhysical e v
    if paddr ≠ 0 then (S.pmapMapPage (S.pmapUnmapPage e v) v paddr pteFlags).2 else e) e

/-- One slot of the loop of `mmap_do_mprotect`. -/
def mprotectSlot (addr alignedLen : UInt64) (prot : UInt32) (x : Bool × Context × ε) (i : Slot) :
    Bool × Context × ε :=
  let (modified, ctx, e) := x
  let area := ctx.areas i
  if !area.active then (modified, ctx, e)
  else if addr ≥ area.end ∨ addr + alignedLen ≤ area.start then (modified, ctx, e)
  else
    let pages := pagesBetween (pageAlignDown (unmapStart area addr))
      (pageAlignUp (unmapEnd area addr alignedLen))
    (true, { ctx with areas := Function.update ctx.areas i { area with prot := prot } },
      remapPages S e (protToPteFlags prot) pages)

/-- `mmap_do_mprotect` -/
def mmapDoMprotect (ctx : Context) (e : ε) (addr len : UInt64) (prot : UInt32) :
    ℤ × Context × ε :=
  if len = 0 then (-1, ctx, e)
  else
    let res := (List.finRange 256).foldl (mprotectSlot S addr (pageAlignUp len) prot) (false, ctx, e)
    (if res.1 then 0 else -1, res.2)

/-- Gives the page at `vaddr` a frame of its own, or fails without keeping the frame. -/
def faultPage (e : ε) (vaddr pteFlags : UInt64) : Bool × ε :=
  match S.allocPages e with
  | (none, e) => (false, e)
  | (some pfn, e) =>
    match S.pmapMapPage e vaddr (pfn * pageSize) pteFlags with
    | (true, e) => (true, e)
    | (false, e) => (false, S.freePages e pfn)

/-- The page cache page that a private mapping of a file is filled from is looked up and released
between the allocation and the mapping. -/
def faultPrivate (e : ε) (area : Area) (pageOffset vaddr pteFlags : UInt64) : Bool × ε :=
  match S.allocPages e with
  | (none, e) => (false, e)
  | (some pfn, e) =>
    let e :=
      if area.file ≠ 0 then
        let (pce, e) := S.pagecacheGetPage e area.file (area.offset + pageOffset)
        if pce = 0 then e else S.pagecachePutPage e pce
      else e
    match S.pmapMapPage e vaddr (pfn * pageSize) pteFlags with
    | (true, e) => (true, e)
    | (false, e) => (false, S.freePages e pfn)

/-- `mmap_page_fault_handler` -/
def mmapPageFaultHandler (ctx : Context) (e : ε) (vaddr errorCode : UInt64) : ℤ × Context × ε :=
  match mmapFindAreaAt ctx vaddr with
  | none => (-1, ctx, e)
  | some idx =>
    let area := ctx.areas idx
    let pageOffset := vaddr - area.start
    let pageVaddr := vaddr &&& ~~~(pageSize - 1)
    let pteFlags := protToPteFlags area.prot
    if has area.flags mapPrivate then
      if errorCode &&& pfWrite ≠ 0 then
        match faultPrivate S e area pageOffset pageVaddr (pteFlags ||| pageWritable) with
        | (true, e) => (0, addFlags ctx idx (mmapFlagDirty ||| mmapFlagPopulated), e)
        | (false, e) => (-1, ctx, e)
      else
        match faultPrivate S e area pageOffset pageVaddr
            ((pteFlags &&& ~~~pageWritable) ||| pageCowFlag) with
        | (true, e) => (0, addFlags ctx idx mmapFlagPopulated, e)
        | (false, e) => (-1, ctx, e)
    else if has area.flags mapShared && area.file ≠ 0 then
      let (pce, e) := S.pagecacheGetPage e area.file (area.offset + pageOffset)
      if pce = 0 then (-1, ctx, e)
      else
        match S.pmapMapPage e pageVaddr pce pteFlags with
        | (true, e) => (0, addFlags ctx idx mmapFlagPopulated, S.pagecachePutPage e pce)
        | (false, e) => (-1, ctx, S.pagecachePutPage e pce)
    else if has area.flags mapAnonymous then
      match faultPage S e pageVaddr pteFlags with
      | (true, e) => (0, addFlags ctx idx mmapFlagPopulated, e)
      | (false, e) => (-1, ctx, e)
    else (-1, ctx, e)

/-- Frees the frames of pages, as the page table has them. -/
def freeMapped (e : ε) (pages : List UInt64) : ε :=
  pages.foldl (fun e v =>
    let paddr := S.pmapGetPhysical e v
    if paddr ≠ 0 then mmapFreePhysPage S e paddr else e) e

/-- One slot of the loop of `mmap_context_destroy`. -/
def destroySlot (x : Context × ε) (i : Slot) : Context × ε :=
  let (ctx, e) := x
  let area := ctx.areas i
  if !area.active then (ctx, e)
  else
    let pages := pagesFrom area.start (area.length.toNat / 4096)
    let e :=
      if has area.flags mapShared && has area.flags mmapFlagDirty && area.file ≠ 0 then
        S.pagecacheSyncNode
          (dirtyPages S e area.file (pages.map fun v => area.offset + (v - area.start))) area.file
      else e
    let e := unmapPages S e pages
    let e :=
      if has area.flags mapAnonymous || has area.flags mapPrivate then freeMapped S e pages else e
    ({ ctx with areas := Function.update ctx.areas i Area.zero }, e)

/-- `mmap_context_destroy` -/
def mmapContextDestroy (ctx : Context) (e : ε) : Context × ε :=
  let res := (List.finRange 256).foldl (destroySlot S) (ctx, e)
  ({ res.1 with areaCount := 0 }, res.2)

end

end Mmap
