import Kenux.Pmap.Proofs.Entry

/-!
# Resolving a copy-on-write fault

`cow_resolve_fault` takes the address and the flags of the old entry apart with masks that know only the
lower twelve flag bits. A higher one is taken for a part of the address and lost.
-/

namespace Pmap

/-- `PTE_FLAGS_ONLY(pte)` -/
def pteFlagsOnly (pte : UInt64) : UInt64 := pte &&& 0xFFF0000000000FFF

/-- The flag bits 52 to 63. -/
def highFlags (pte : UInt64) : UInt64 := pte &&& 0xFFF0000000000000

variable {α : Type} {src : PageSource α} {s : CowState α} {m : PhysMem}
  {pml4 pdpt pd pt vaddr e f : UInt64}

/-- The tables of `vaddr`, with entries as `pmap_map_page` makes them. -/
structure WalksTo (m : PhysMem) (pml4 pdpt pd pt vaddr : UInt64) : Prop where
  pdpte : m.entry pml4 (idxPml4 vaddr) = pteFlags pdpt tableFlags
  pde : m.entry pdpt (idxPdpt vaddr) = pteFlags pd tableFlags
  pte : m.entry pd (idxPd vaddr) = pteFlags pt tableFlags
  pdptFrame : IsFrame pdpt
  pdFrame : IsFrame pd
  ptFrame : IsFrame pt

/-- The page table entry is one that `cow_mark_page` left. -/
def Marked (m : PhysMem) (pt vaddr : UInt64) : Prop :=
  ∃ m₀ pml4 pdpt pd, WalksTo m₀ pml4 pdpt pd pt vaddr ∧ (cowMarkPage m₀ pml4 vaddr).1 = 0 ∧
    (cowMarkPage m₀ pml4 vaddr).2.entry pt (idxPt vaddr) = m.entry pt (idxPt vaddr)

/-- The fault is resolved: the entry maps a fresh frame with the contents of the old one, has its flags but
for the two that change, and nothing else in use changes. -/
structure Resolves (src : PageSource α) (s s' : CowState α) (pt vaddr : UInt64) : Prop where
  fresh : pteAddr (s'.mem.entry pt (idxPt vaddr)) ∉ src.inUse s.pages
  contents : ∀ i, s'.mem.entry (pteAddr (s'.mem.entry pt (idxPt vaddr))) i =
    s.mem.entry (pteAddr (s.mem.entry pt (idxPt vaddr))) i
  flags : pteFlagsOnly (s'.mem.entry pt (idxPt vaddr)) =
    (pteFlagsOnly (s.mem.entry pt (idxPt vaddr)) ||| pageWritable) &&& ~~~pageCowFlag
  others : ∀ t ∈ src.inUse s.pages, t.toNat % 4096 = 0 → ∀ i, ¬ (t = pt ∧ i = idxPt vaddr) →
    s'.mem.entry t i = s.mem.entry t i
  oldFrame : ∀ i, ¬ (pteAddr (s.mem.entry pt (idxPt vaddr)) = pt ∧ i = idxPt vaddr) →
    s'.mem.entry (pteAddr (s.mem.entry pt (idxPt vaddr))) i =
      s.mem.entry (pteAddr (s.mem.entry pt (idxPt vaddr))) i

/-! ## Masks -/

/-- An address has no flag bits. -/
theorem frame_and_flags (hf : IsFrame f) (hm : 0x000FFFFFFFFFF000 &&& e = 0) : f &&& e = 0 := by
  rw [← pteAddr_of_isFrame hf, pteAddr, UInt64.and_assoc, hm]
  simp

theorem entryAddr_eq (e : UInt64) : entryAddr e = highFlags e ||| pteAddr e := by
  have hmask : ~~~(0xFFF : UInt64) = 0xFFF0000000000000 ||| 0x000FFFFFFFFFF000 := by decide
  unfold entryAddr highFlags pteAddr
  rw [hmask, UInt64.and_comm, Word.or_and, UInt64.and_comm e, UInt64.and_comm e]

/-- Without high flags the mask of the code is as good as `PTE_ADDR`. -/
theorem entryAddr_of_highFlags (h : highFlags e = 0) : entryAddr e = pteAddr e := by
  rw [entryAddr_eq, h, UInt64.zero_or]

theorem highFlags_frame (hf : IsFrame f) : highFlags f = 0 := frame_and_flags hf (by decide)

theorem entryAddr_table (hf : IsFrame f) : entryAddr (pteFlags f tableFlags) = f := by
  have hhigh : highFlags (pteFlags f tableFlags) = highFlags f ||| highFlags tableFlags :=
    Word.or_and _ _ _
  have hz : highFlags tableFlags = 0 := by decide
  rw [entryAddr_of_highFlags, pteAddr_table hf]
  rw [hhigh, highFlags_frame hf, hz, Word.or_zero]

theorem present_table_one (t : UInt64) : pteFlags t tableFlags &&& 1 ≠ 0 := present_table t

/-- The lower flags are all flags of an entry without high ones. -/
theorem pteFlagsOnly_eq (e : UInt64) : pteFlagsOnly e = highFlags e ||| e &&& 0xFFF := by
  have hmask : (0xFFF0000000000FFF : UInt64) = 0xFFF0000000000000 ||| 0xFFF := by decide
  unfold pteFlagsOnly highFlags
  rw [hmask, UInt64.and_comm, Word.or_and, UInt64.and_comm e, UInt64.and_comm e]

theorem pteAddr_cowResolved (hf : IsFrame f) (e : UInt64) : pteAddr (cowResolved f e) = f := by
  have hmask : ~~~pageCowFlag &&& 0x000FFFFFFFFFF000 = 0x000FFFFFFFFFF000 := by decide
  have hlow : e &&& 0xFFF &&& 0x000FFFFFFFFFF000 = 0 := by
    rw [UInt64.and_assoc]
    exact UInt64.and_zero
  have hw : pageWritable &&& 0x000FFFFFFFFFF000 = 0 := by decide
  unfold pteAddr cowResolved
  rw [UInt64.and_assoc, hmask, Word.or_and, Word.or_and, hlow, hw, Word.or_zero, Word.or_zero]
  exact pteAddr_of_isFrame hf

/-- The flags of the new entry: the lower ones of the old entry, and no high ones. -/
theorem pteFlagsOnly_cowResolved (hf : IsFrame f) (e : UInt64) :
    pteFlagsOnly (cowResolved f e) = ((e &&& 0xFFF) ||| pageWritable) &&& ~~~pageCowFlag := by
  have hfz : f &&& 0xFFF0000000000FFF = 0 := frame_and_flags hf (by decide)
  have hlow : e &&& 0xFFF &&& 0xFFF0000000000FFF = e &&& 0xFFF := by
    rw [UInt64.and_assoc]
    rfl
  have hw : pageWritable &&& 0xFFF0000000000FFF = pageWritable := by decide
  unfold pteFlagsOnly cowResolved
  rw [UInt64.and_assoc, UInt64.and_comm (~~~pageCowFlag), ← UInt64.and_assoc,
    Word.or_and (f ||| (e &&& 0xFFF)), Word.or_and f, hfz, hlow, hw, UInt64.zero_or]

theorem highFlags_keep (e : UInt64) :
    highFlags ((pteFlagsOnly e ||| pageWritable) &&& ~~~pageCowFlag) = highFlags e := by
  have hmask : ~~~pageCowFlag &&& 0xFFF0000000000000 = 0xFFF0000000000000 := by decide
  have hw : pageWritable &&& 0xFFF0000000000000 = 0 := by decide
  have hsub : (0xFFF0000000000FFF : UInt64) &&& 0xFFF0000000000000 = 0xFFF0000000000000 := by decide
  unfold highFlags pteFlagsOnly
  rw [UInt64.and_assoc, hmask, Word.or_and, hw, Word.or_zero, UInt64.and_assoc, hsub]

theorem highFlags_low (e : UInt64) :
    highFlags (((e &&& 0xFFF) ||| pageWritable) &&& ~~~pageCowFlag) = 0 := by
  have hmask : ~~~pageCowFlag &&& 0xFFF0000000000000 = 0xFFF0000000000000 := by decide
  have hw : pageWritable &&& 0xFFF0000000000000 = 0 := by decide
  have hlow : e &&& 0xFFF &&& 0xFFF0000000000000 = 0 := by
    rw [UInt64.and_assoc]
    exact UInt64.and_zero
  unfold highFlags
  rw [UInt64.and_assoc, hmask, Word.or_and, hw, hlow, Word.or_zero]

theorem flags_kept_iff (hf : IsFrame f) (e : UInt64) : pteFlagsOnly (cowResolved f e) =
    (pteFlagsOnly e ||| pageWritable) &&& ~~~pageCowFlag ↔ highFlags e = 0 := by
  rw [pteFlagsOnly_cowResolved hf]
  constructor
  · intro h
    rw [← highFlags_keep, ← h, highFlags_low]
  · intro h
    rw [pteFlagsOnly_eq, h, UInt64.zero_or]

/-! ## The walk and the marked entry -/

theorem WalksTo.findPte (h : WalksTo m pml4 pdpt pd pt vaddr) :
    findPte m pml4 vaddr = some (slot pt (idxPt vaddr)) := by
  unfold Pmap.findPte
  dsimp only
  rw [h.pdpte, if_neg (present_table_one _), entryAddr_table h.pdptFrame, h.pde,
    if_neg (present_table_one _), entryAddr_table h.pdFrame, h.pte, if_neg (present_table_one _),
    entryAddr_table h.ptFrame]

/-! ## Resolving -/

theorem PageSource.isFrame {a : α} {pfn : UInt64} (h : (src.allocPages a).1 = some pfn) :
    IsFrame (pfn * pageSize) := by
  have hlt := src.bounded a pfn h
  have hval : (pfn * pageSize).toNat = pfn.toNat * 4096 := by
    rw [UInt64.toNat_mul]
    exact Nat.mod_eq_of_lt (show pfn.toNat * 4096 < 2 ^ 64 by omega)
  unfold IsFrame
  rw [hval]
  omega

/-- What a successful call did: it copied what it took for the old frame and wrote the entry. -/
theorem cowResolveFault_spec (hwalk : WalksTo s.mem s.cr3 pdpt pd pt vaddr)
    (hok : (cowResolveFault src s vaddr).1 = 0) : ∃ frame, IsFrame frame ∧ frame ∉ src.inUse s.pages ∧
      (cowResolveFault src s vaddr).2.mem =
        Function.update (s.mem.copyPage frame (entryAddr (s.mem.entry pt (idxPt vaddr))))
          (slot pt (idxPt vaddr)) (cowResolved frame (s.mem.entry pt (idxPt vaddr))) := by
  unfold cowResolveFault at hok ⊢
  rw [hwalk.findPte] at hok ⊢
  dsimp only at hok ⊢
  split_ifs at hok ⊢ with hp hc
  · exact absurd hok (by simp)
  · exact absurd hok (by simp)
  cases halloc : src.allocPages s.pages with
  | mk r pages =>
    rw [halloc] at hok
    cases r with
    | none => exact absurd hok (by simp)
    | some pfn =>
      have hfst : (src.allocPages s.pages).1 = some pfn := by rw [halloc]
      exact ⟨pfn * pageSize, PageSource.isFrame hfst, src.fresh _ _ hfst, rfl⟩

/-- The entry that a successful call wrote. -/
theorem entry_update_pte {m' : PhysMem} (hpt : IsFrame pt) (hm : m' = Function.update m (slot pt (idxPt vaddr)) e) :
    m'.entry pt (idxPt vaddr) = e := by
  rw [hm, entry_update hpt.1 hpt.1, if_pos ⟨rfl, rfl⟩]

/-- A resolved fault had no high flags to lose. -/
theorem Resolves.highFlags (hwalk : WalksTo s.mem s.cr3 pdpt pd pt vaddr)
    (hok : (cowResolveFault src s vaddr).1 = 0)
    (h : Resolves src s (cowResolveFault src s vaddr).2 pt vaddr) :
    Pmap.highFlags (s.mem.entry pt (idxPt vaddr)) = 0 := by
  obtain ⟨frame, hframe, -, hmem⟩ := cowResolveFault_spec hwalk hok
  have hflags := h.flags
  rw [entry_update_pte hwalk.ptFrame hmem] at hflags
  exact (flags_kept_iff hframe _).mp hflags

/-- A successful call resolves the fault exactly if the entry has none of the flag bits 52 to 63. -/
theorem cow_resolves_iff (hwalk : WalksTo s.mem s.cr3 pdpt pd pt vaddr)
    (hpt : pt ∈ src.inUse s.pages)
    (hold : pteAddr (s.mem.entry pt (idxPt vaddr)) ∈ src.inUse s.pages)
    (hok : (cowResolveFault src s vaddr).1 = 0) :
    Resolves src s (cowResolveFault src s vaddr).2 pt vaddr ↔
      highFlags (s.mem.entry pt (idxPt vaddr)) = 0 := by
  refine ⟨Resolves.highFlags hwalk hok, fun h => ?_⟩
  obtain ⟨frame, hframe, hfresh, hmem⟩ := cowResolveFault_spec hwalk hok
  have hnew := entry_update_pte hwalk.ptFrame hmem
  have hother : ∀ t, t.toNat % 4096 = 0 → t ≠ frame → ∀ i, ¬ (t = pt ∧ i = idxPt vaddr) →
      (cowResolveFault src s vaddr).2.mem.entry t i = s.mem.entry t i := by
    intro t ht hne i hi
    rw [hmem, entry_update hwalk.ptFrame.1 ht, if_neg hi, entry_copyPage hframe.1 ht, if_neg hne]
  refine ⟨?_, fun i => ?_, ?_, fun t ht hal i hi => hother t hal ?_ i hi, fun i hi => ?_⟩
  · rw [hnew, pteAddr_cowResolved hframe]
    exact hfresh
  · -- the table is in use, so its entry does not lie in the new frame
    have hne : ¬ (frame = pt ∧ i = idxPt vaddr) := fun hc => hfresh (hc.1 ▸ hpt)
    rw [hnew, pteAddr_cowResolved hframe, hmem, entry_update hwalk.ptFrame.1 hframe.1, if_neg hne,
      entry_copyPage hframe.1 hframe.1, if_pos rfl, entryAddr_of_highFlags h]
  · rw [hnew]
    exact (flags_kept_iff hframe _).mpr h
  · rintro rfl
    exact hfresh ht
  · exact hother _ (pteAddr_isFrame _).1 (fun hc => hfresh (hc ▸ hold)) i hi

/-- Pages are handed out in the order of their numbers. -/
def nextPage : PageSource ℕ where
  allocPages n := if n < 2 ^ 40 then (some (UInt64.ofNat n), n + 1) else (none, n)
  inUse n := {t | t.toNat < 4096 * n}
  fresh n pfn h := by
    split_ifs at h with hlt
    obtain rfl := Option.some.inj h
    have hn : (UInt64.ofNat n).toNat = n :=
      UInt64.toNat_ofNat_of_lt' (hlt.trans (by decide))
    have hval : (UInt64.ofNat n * pageSize).toNat = n * 4096 := by
      rw [UInt64.toNat_mul, hn]
      exact Nat.mod_eq_of_lt (show n * 4096 < 2 ^ 64 by omega)
    intro hmem
    have hmem' : (UInt64.ofNat n * pageSize).toNat < 4096 * n := hmem
    omega
  bounded n pfn h := by
    split_ifs at h with hlt
    obtain rfl := Option.some.inj h
    rw [UInt64.toNat_ofNat_of_lt' (hlt.trans (by decide))]
    exact hlt

/-- Tables at `0x1000` to `0x4000` whose first entries lead to a page with the given entry. -/
def oneLeaf (entry : UInt64) : PhysMem := fun a =>
  if a = 0x1000 then pteFlags 0x2000 tableFlags
  else if a = 0x2000 then pteFlags 0x3000 tableFlags
  else if a = 0x3000 then pteFlags 0x4000 tableFlags
  else if a = 0x4000 then entry
  else 0

theorem oneLeaf_walks (entry : UInt64) : WalksTo (oneLeaf entry) 0x1000 0x2000 0x3000 0x4000 0 :=
  ⟨rfl, rfl, rfl, ⟨rfl, by decide⟩, ⟨rfl, by decide⟩, ⟨rfl, by decide⟩⟩

/-- The tables and the page of `oneLeaf` are in use. -/
theorem oneLeaf_inUse {t : UInt64} (h : t.toNat < 4096 * 6) : t ∈ nextPage.inUse 6 := h

/-- A page at `0x5000` that had been writable. -/
theorem cow_resolves_user : Resolves nextPage ⟨oneLeaf 0x5205, 6, 0x1000, 0⟩
    (cowResolveFault nextPage ⟨oneLeaf 0x5205, 6, 0x1000, 0⟩ 0).2 0x4000 0 :=
  (cow_resolves_iff (oneLeaf_walks _) (oneLeaf_inUse (by decide)) (oneLeaf_inUse (by decide))
    (by decide)).mpr (by decide)

/-- A marked page that is not executable becomes executable. -/
theorem cow_loses_no_exec : ¬ ∀ (src : PageSource ℕ) (s : CowState ℕ) (pdpt pd pt vaddr : UInt64),
    WalksTo s.mem s.cr3 pdpt pd pt vaddr → pt ∈ src.inUse s.pages →
      pteAddr (s.mem.entry pt (idxPt vaddr)) ∈ src.inUse s.pages → Marked s.mem pt vaddr →
        (cowResolveFault src s vaddr).1 = 0 →
          Resolves src s (cowResolveFault src s vaddr).2 pt vaddr := by
  intro h
  have hwalk := oneLeaf_walks 0x8000000000005205
  have hmarked : Marked (oneLeaf 0x8000000000005205) 0x4000 0 :=
    ⟨oneLeaf 0x8000000000005007, 0x1000, 0x2000, 0x3000, oneLeaf_walks _, by decide, by decide⟩
  have hok : (cowResolveFault nextPage ⟨oneLeaf 0x8000000000005205, 6, 0x1000, 0⟩ 0).1 = 0 := by decide
  have hres := h nextPage ⟨oneLeaf 0x8000000000005205, 6, 0x1000, 0⟩ _ _ _ _ hwalk
    (oneLeaf_inUse (by decide)) (oneLeaf_inUse (by decide)) hmarked hok
  have hhigh := Resolves.highFlags hwalk hok hres
  exact absurd hhigh (by decide)

end Pmap
