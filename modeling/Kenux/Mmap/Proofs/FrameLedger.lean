import Kenux.Lib.Ledger
import Kenux.Mmap.Proofs.Invariant
import Kenux.Pmap.Model

/-!
# Where the frames of an address space go

Only the rollback of a failed call ever gives frames back: `mmap_do_munmap` removes the page table
entries, which are the only record of the frames, and `mmap_context_destroy` looks the frames up
after removing them. So the ledger is settled exactly as long as every call that takes frames runs
short of them.
-/

/-!
## Frames of one address space

The services of `mmap.c` for an address space whose page table is a finite map. The frame allocator
and the allocations of `pmap_map_page` answer from a state of their own, in any way. The ledger
records the frames that `alloc_pages` gives and `free_pages` takes back.
-/

namespace Mmap

open Ledger
open Pmap (VMap vpn)

/-- The answers of the frame allocator, and of `pmap_map_page`, which needs memory for tables. -/
structure Supply (φ : Type) where
  alloc : φ → Option UInt64 × φ
  free : φ → UInt64 → φ
  canMap : φ → UInt64 → Bool × φ
  inMainZone : UInt64 → Bool

structure AddressSpace (φ : Type) where
  supply : φ
  pages : VMap
  ledger : List (Event UInt64)

variable {φ : Type} (σ : Supply φ)

/-- Areas have no file here, so there is no page cache. -/
def services : Services (AddressSpace φ) where
  allocPages e :=
    match σ.alloc e.supply with
    | (none, s) => (none, { e with supply := s })
    | (some pfn, s) => (some pfn, { e with supply := s, ledger := e.ledger ++ [.acquire pfn] })
  freePages e pfn :=
    { e with supply := σ.free e.supply pfn, ledger := e.ledger ++ [.release pfn] }
  inMainZone := σ.inMainZone
  pmapMapPage e vaddr paddr _ :=
    match σ.canMap e.supply vaddr with
    | (true, s) => (true, { e with supply := s, pages := Function.update e.pages (vpn vaddr) (some paddr) })
    | (false, s) => (false, { e with supply := s })
  pmapUnmapPage e vaddr := { e with pages := Function.update e.pages (vpn vaddr) none }
  pmapGetPhysical e vaddr := e.pages.lookup vaddr
  pagecacheFindPage e _ _ := (0, e)
  pagecacheGetPage e _ _ := (0, e)
  pagecacheSetDirty e _ := e
  pagecachePutPage e _ := e
  pagecacheSyncNode e _ := e

inductive FrameOp where
  | mmap (addr length : UInt64) (prot flags : UInt32) (offset : UInt64)
  | fault (vaddr errorCode : UInt64)
  | munmap (addr length : UInt64)

def frameStep (x : Context × AddressSpace φ) : FrameOp → Option (Context × AddressSpace φ)
  | .mmap addr length prot flags offset =>
      some (mmapDoMmap (services σ) x.1 x.2 addr length prot flags offset).2
  | .fault vaddr errorCode => some (mmapPageFaultHandler (services σ) x.1 x.2 vaddr errorCode).2
  | .munmap addr length => some (mmapDoMunmap (services σ) x.1 x.2 addr length).2

/-- Nothing was released that was not held, and what is held is mapped somewhere. -/
def Conserved (e : AddressSpace φ) : Prop :=
  ∃ held, replay 0 e.ledger = some held ∧
    ∀ pfn ∈ held, ∃ n, e.pages n = some (pfn * pageSize)

/-- Every frame was given back exactly once. -/
def AllReleased (e : AddressSpace φ) : Prop := replay 0 e.ledger = some 0

/-! ## When a call gives back what it took -/

/-- A frame that `mmap_free_phys_page` finds again from its address. -/
def Supply.Recoverable (pfn : UInt64) : Prop :=
  0 < pfn.toNat ∧ pfn.toNat < 2 ^ 52 ∧ σ.inMainZone pfn = true

/-- A frame is refused to one of the pages, and the frames given before can be recovered. A page that
cannot be mapped counts as refused where the code looks at that (`strict`) and must not occur where
it does not. -/
def Supply.RunsShort (strict : Bool) : List UInt64 → φ → Prop
  | [], _ => False
  | vaddr :: rest, s =>
    match σ.alloc s with
    | (none, _) => True
    | (some pfn, s) =>
      match σ.canMap s vaddr with
      | (true, s) => σ.Recoverable pfn ∧ Supply.RunsShort strict rest s
      | (false, _) => strict = true

/-- The areas for which a fault takes a frame. -/
def Area.NeedsFrame (a : Area) : Prop :=
  has a.flags mapPrivate = true ∨
    has a.flags mapAnonymous = true ∧ (has a.flags mapShared && a.file ≠ 0) = false

/-- A mapping takes no frames, or runs short of them; so does a fault. -/
def FramesOk (x : Context × AddressSpace φ) : FrameOp → Prop
  | .mmap addr length prot flags offset =>
      mmapRefused addr length prot flags offset = true ∨
      has flags mapAnonymous = false ∧
        (has flags mapPrivate = true ∨ has flags mapShared = false) ∨
      ∀ mapAddr ctx e slot,
        mmapPlace (services σ) x.1 x.2 addr (pageAlignUp length) flags = (some mapAddr, ctx, e) →
        mmapAllocSlot ctx = some slot →
        σ.RunsShort (has flags mapAnonymous)
          (pagesFrom mapAddr ((pageAlignUp length).toNat / 4096)) x.2.supply
  | .fault vaddr _ =>
      ∀ idx, mmapFindAreaAt x.1 vaddr = some idx → (x.1.areas idx).NeedsFrame →
        σ.RunsShort true [vaddr &&& ~~~(pageSize - 1)] x.2.supply
  | .munmap _ _ => True

end Mmap

namespace Mmap

open Ledger Run
open Pmap (VMap vpn)

variable {φ : Type} {σ : Supply φ}

/-! ## Unmapping -/

@[simp] theorem pmapUnmapPage_supply (e : AddressSpace φ) (v : UInt64) :
    ((services σ).pmapUnmapPage e v).supply = e.supply := rfl

@[simp] theorem pmapUnmapPage_ledger (e : AddressSpace φ) (v : UInt64) :
    ((services σ).pmapUnmapPage e v).ledger = e.ledger := rfl

theorem unmapPages_frame (e : AddressSpace φ) (pages : List UInt64) :
    (unmapPages (services σ) e pages).supply = e.supply ∧
      (unmapPages (services σ) e pages).ledger = e.ledger := by
  unfold unmapPages
  induction pages generalizing e with
  | nil => exact ⟨rfl, rfl⟩
  | cons v pages ih => exact ih _

theorem dirtyPages_eq (e : AddressSpace φ) (file : UInt64) (offsets : List UInt64) :
    dirtyPages (services σ) e file offsets = e := by
  unfold dirtyPages
  induction offsets with
  | nil => rfl
  | cons off offsets ih => exact ih

theorem releaseRange_frame (e : AddressSpace φ) (a : Area) (us ue : UInt64) :
    (releaseRange (services σ) e a us ue).supply = e.supply ∧
      (releaseRange (services σ) e a us ue).ledger = e.ledger := by
  unfold releaseRange
  dsimp only
  split_ifs
  · rw [dirtyPages_eq]
    exact unmapPages_frame e _
  · exact unmapPages_frame e _

theorem munmapLoop_frame (ctx : Context) (e : AddressSpace φ) (addr al : UInt64) (fuel : ℕ) :
    (munmapLoop (services σ) addr al fuel (ctx, e)).2.supply = e.supply ∧
      (munmapLoop (services σ) addr al fuel (ctx, e)).2.ledger = e.ledger := by
  refine munmapLoop_invariant addr al (P := fun x => x.2.supply = e.supply ∧ x.2.ledger = e.ledger)
    ?_ fuel (ctx, e) ⟨rfl, rfl⟩
  rintro ctx' e' idx ⟨h1, h2⟩ -
  obtain ⟨r1, r2⟩ := releaseRange_frame (σ := σ) e' (ctx'.areas idx)
    (unmapStart (ctx'.areas idx) addr) (unmapEnd (ctx'.areas idx) addr al)
  exact ⟨r1.trans h1, r2.trans h2⟩

theorem mmapDoMunmap_frame (ctx : Context) (e : AddressSpace φ) (addr length : UInt64) :
    (mmapDoMunmap (services σ) ctx e addr length).2.2.supply = e.supply ∧
      (mmapDoMunmap (services σ) ctx e addr length).2.2.ledger = e.ledger := by
  unfold mmapDoMunmap
  split_ifs
  · exact ⟨rfl, rfl⟩
  · exact munmapLoop_frame ctx e addr _ 257

theorem mmapPlace_frame (ctx : Context) (e : AddressSpace φ) (addr al : UInt64) (flags : UInt32) :
    (mmapPlace (services σ) ctx e addr al flags).2.2.supply = e.supply ∧
      (mmapPlace (services σ) ctx e addr al flags).2.2.ledger = e.ledger := by
  unfold mmapPlace
  dsimp only
  split_ifs
  · exact mmapDoMunmap_frame ctx e addr al
  all_goals exact ⟨rfl, rfl⟩

/-! ## Rollback -/

/-- The page at `v` maps to the frame, which can be found again from there. -/
def MapsFrame (σ : Supply φ) (e : AddressSpace φ) (v pfn : UInt64) : Prop :=
  e.pages (vpn v) = some (pfn * pageSize) ∧ σ.Recoverable pfn

/-- A frame number is recovered from any address in the frame. -/
theorem frame_of_address {pfn v : UInt64} (h0 : 0 < pfn.toNat) (h : pfn.toNat < 2 ^ 52) :
    pfn * pageSize + v % 4096 ≠ 0 ∧ (pfn * pageSize + v % 4096) / pageSize = pfn := by
  have hp : pageSize.toNat = 4096 := by decide
  have h4 : (4096 : UInt64).toNat = 4096 := by decide
  have hmul : (pfn * pageSize).toNat = pfn.toNat * 4096 := by
    rw [UInt64.toNat_mul, hp, Nat.mod_eq_of_lt (by omega)]
  have hmod : (v % 4096).toNat = v.toNat % 4096 := by rw [UInt64.toNat_mod, h4]
  have hsum : (pfn * pageSize + v % 4096).toNat = pfn.toNat * 4096 + v.toNat % 4096 := by
    rw [Word.toNat_add_lt (by omega), hmul, hmod]
  constructor
  · intro hc
    rw [hc] at hsum
    have : (0 : UInt64).toNat = 0 := rfl
    omega
  · apply UInt64.toNat_inj.mp
    rw [UInt64.toNat_div, hsum, hp]
    omega

theorem MapsFrame.free {e : AddressSpace φ} {v pfn : UInt64} (h : MapsFrame σ e v pfn)
    (e' : AddressSpace φ) :
    e.pages.lookup v ≠ 0 ∧
      mmapFreePhysPage (services σ) e' (e.pages.lookup v) = (services σ).freePages e' pfn := by
  obtain ⟨hv, h0, hlt, hz⟩ := h
  have hl : e.pages.lookup v = pfn * pageSize + v % 4096 := by
    unfold VMap.lookup
    rw [hv]
  obtain ⟨h1, h2⟩ := frame_of_address (v := v) h0 hlt
  rw [hl]
  refine ⟨h1, ?_⟩
  unfold mmapFreePhysPage
  rw [h2]
  exact if_pos hz

theorem mapsFrame_congr {e e' : AddressSpace φ} {done frames : List UInt64}
    (h : List.Forall₂ (MapsFrame σ e) done frames)
    (he : ∀ w ∈ done, e'.pages (vpn w) = e.pages (vpn w)) :
    List.Forall₂ (MapsFrame σ e') done frames := by
  rw [List.forall₂_iff_get] at h ⊢
  refine ⟨h.1, fun i h1 h2 => ?_⟩
  obtain ⟨hp, hr⟩ := h.2 i h1 h2
  exact ⟨(he _ (List.get_mem _ _)).trans hp, hr⟩

/-- Rolling back pages with frames of their own releases these frames. -/
theorem rollback_ledger (done : List UInt64) : ∀ (frames : List UInt64) (e : AddressSpace φ),
    List.Forall₂ (MapsFrame σ e) done frames → (done.map vpn).Nodup →
    (rollback (services σ) e done).ledger = e.ledger ++ frames.map .release := by
  induction done with
  | nil =>
    intro frames e h _
    cases h
    simp [rollback]
  | cons v done ih =>
    intro frames e h hnd
    cases h with
    | cons hv hrest =>
      rename_i pfn frames
      rw [List.map_cons, List.nodup_cons] at hnd
      obtain ⟨hl, hfree⟩ := hv.free ((services σ).pmapUnmapPage e v)
      have hstep : rollback (services σ) e (v :: done) =
          rollback (services σ)
            ((services σ).freePages ((services σ).pmapUnmapPage e v) pfn) done := by
        unfold rollback
        rw [List.foldl_cons]
        congr 1
        change (if e.pages.lookup v ≠ 0 then mmapFreePhysPage (services σ)
          ((services σ).pmapUnmapPage e v) (e.pages.lookup v) else _) = _
        rw [if_pos hl, hfree]
      rw [hstep, ih frames _ ?_ hnd.2]
      · change e.ledger ++ [.release pfn] ++ frames.map .release = _
        simp
      · refine mapsFrame_congr hrest fun w hw => Function.update_of_ne (fun hc => hnd.1 ?_) _ _
        exact hc ▸ List.mem_map_of_mem hw

/-! ## Populating -/

section Answers

variable {e : AddressSpace φ} {s : φ} {pfn v paddr flags : UInt64}

theorem allocPages_none (h : σ.alloc e.supply = (none, s)) :
    (services σ).allocPages e = (none, { e with supply := s }) := by
  unfold services
  dsimp only
  rw [h]

theorem allocPages_some (h : σ.alloc e.supply = (some pfn, s)) :
    (services σ).allocPages e =
      (some pfn, { e with supply := s, ledger := e.ledger ++ [.acquire pfn] }) := by
  unfold services
  dsimp only
  rw [h]

theorem pmapMapPage_true (h : σ.canMap e.supply v = (true, s)) :
    (services σ).pmapMapPage e v paddr flags =
      (true, { e with supply := s, pages := Function.update e.pages (vpn v) (some paddr) }) := by
  unfold services
  dsimp only
  rw [h]

theorem pmapMapPage_false (h : σ.canMap e.supply v = (false, s)) :
    (services σ).pmapMapPage e v paddr flags = (false, { e with supply := s }) := by
  unfold services
  dsimp only
  rw [h]

end Answers

/-- A population that runs short fails, and gives back the frames of the pages before and its own. -/
theorem populate_settles (strict : Bool) (pteFlags : UInt64) (rest : List UInt64) :
    ∀ (done frames : List UInt64) (e : AddressSpace φ),
      List.Forall₂ (MapsFrame σ e) done frames → ((done ++ rest).map vpn).Nodup →
      σ.RunsShort strict rest e.supply →
      (populate (services σ) strict pteFlags done rest e).1 = false ∧
        ∃ es, (populate (services σ) strict pteFlags done rest e).2.ledger = e.ledger ++ es ∧
          ∀ held, replay ((frames : Multiset UInt64) + held) es = some held := by
  induction rest with
  | nil =>
    intro done frames e _ _ hs
    exact hs.elim
  | cons v rest ih =>
    intro done frames e hdone hnd hs
    have hnd' : (done.map vpn).Nodup := by
      rw [List.map_append] at hnd
      exact hnd.of_append_left
    unfold Supply.RunsShort at hs
    unfold populate
    rcases ha : σ.alloc e.supply with ⟨_ | pfn, s⟩
    · rw [allocPages_none ha]
      refine ⟨rfl, frames.map .release, ?_, fun held => replay_releases held frames⟩
      exact rollback_ledger done frames { e with supply := s } hdone hnd'
    rw [ha] at hs
    rw [allocPages_some ha]
    dsimp only at hs ⊢
    rcases hm : σ.canMap s v with ⟨_ | _, s'⟩
    · -- the frame just given goes back first, then those of the pages before
      rw [hm] at hs
      obtain rfl : strict = true := hs
      rw [pmapMapPage_false hm]
      refine ⟨rfl, [.acquire pfn, .release pfn] ++ frames.map .release, ?_, fun held => ?_⟩
      · have hroll := rollback_ledger done frames ((services σ).freePages
          { e with supply := s', ledger := e.ledger ++ [.acquire pfn] } pfn) hdone hnd'
        refine hroll.trans ?_
        change e.ledger ++ [.acquire pfn] ++ [.release pfn] ++ _ = _
        simp
      · rw [replay_append, Settled.acquire_release pfn]
        exact replay_releases held frames
    · rw [hm] at hs
      obtain ⟨hrec, hs⟩ := hs
      rw [pmapMapPage_true hm]
      dsimp only
      have hnew : ∀ w ∈ done, vpn w ≠ vpn v := by
        rw [List.map_append, List.nodup_append] at hnd
        exact fun w hw => hnd.2.2 _ (List.mem_map_of_mem hw) _ (by simp)
      generalize he' : AddressSpace.mk s' (Function.update e.pages (vpn v) (some (pfn * pageSize)))
        (e.ledger ++ [.acquire pfn]) = e'
      have hmaps : List.Forall₂ (MapsFrame σ e') (done ++ [v]) (frames ++ [pfn]) := by
        subst he'
        refine List.rel_append (mapsFrame_congr hdone fun w hw => ?_) (.cons ⟨?_, hrec⟩ .nil)
        · exact Function.update_of_ne (hnew w hw) _ _
        · exact Function.update_self ..
      have hs' : σ.RunsShort strict rest e'.supply := by
        rw [← he']
        exact hs
      obtain ⟨hfail, es, hes, hreplay⟩ := ih (done ++ [v]) (frames ++ [pfn]) e' hmaps
        (by simpa using hnd) hs'
      refine ⟨hfail, .acquire pfn :: es, ?_, fun held => ?_⟩
      · rw [hes, ← he', List.append_assoc]
        rfl
      · rw [replay_acquire, ← hreplay held]
        congr 1
        rw [← Multiset.coe_add, Multiset.coe_singleton, ← Multiset.singleton_add,
          ← Multiset.add_assoc, Multiset.add_comm {pfn}]

/-- The pages of a mapping of at most `2 ^ 40` bytes are different pages for the page table. -/
theorem pagesFrom_nodup (start : UInt64) {n : ℕ} (hn : n ≤ 2 ^ 28) :
    ((pagesFrom start n).map vpn).Nodup := by
  have hp : pageSize.toNat = 4096 := by decide
  have hsz : 2 ^ 32 < UInt64.size := by decide
  have hv : ∀ i < n, vpn (start + pageSize * UInt64.ofNat i) =
      (start.toNat / 4096 + i) % 2 ^ 36 := by
    intro i hi
    have hmul : (pageSize * UInt64.ofNat i).toNat = 4096 * i := by
      rw [UInt64.toNat_mul, hp, UInt64.toNat_ofNat_of_lt' (lt_trans (by omega) hsz),
        Nat.mod_eq_of_lt (by omega)]
    unfold vpn
    rw [UInt64.toNat_add, hmul]
    omega
  unfold pagesFrom
  rw [List.map_map]
  refine List.Nodup.map_on (fun i hi j hj hij => ?_) List.nodup_range
  rw [List.mem_range] at hi hj
  simp only [Function.comp_apply] at hij
  rw [hv i hi, hv j hj] at hij
  omega

/-! ## What a call does to the address space -/

theorem faultPrivate_eq (e : AddressSpace φ) (area : Area) (off vaddr pteFlags : UInt64) :
    faultPrivate (services σ) e area off vaddr pteFlags =
      faultPage (services σ) e vaddr pteFlags := by
  unfold faultPrivate faultPage
  rcases (services σ).allocPages e with ⟨_ | pfn, e'⟩
  · rfl
  · have hcache : (if area.file ≠ 0 then
        let (pce, e) := (services σ).pagecacheGetPage e' area.file (area.offset + off)
        if pce = 0 then e else (services σ).pagecachePutPage e pce else e') = e' := by
      split_ifs <;> rfl
    dsimp only
    rw [hcache]

/-- A fault populates one page. -/
theorem faultPage_eq (e : AddressSpace φ) (vaddr pteFlags : UInt64) :
    faultPage (services σ) e vaddr pteFlags =
      populate (services σ) true pteFlags [] [vaddr] e := by
  unfold faultPage populate
  rcases (services σ).allocPages e with ⟨_ | pfn, e'⟩
  · rfl
  · dsimp only
    rcases (services σ).pmapMapPage e' vaddr (pfn * pageSize) pteFlags with ⟨_ | _, e''⟩
    · rfl
    · rfl

theorem mmapPageFaultHandler_space (ctx : Context) (e : AddressSpace φ)
    (vaddr errorCode : UInt64) :
    (mmapPageFaultHandler (services σ) ctx e vaddr errorCode).2.2 = e ∨
      ∃ idx pteFlags, mmapFindAreaAt ctx vaddr = some idx ∧ (ctx.areas idx).NeedsFrame ∧
        (mmapPageFaultHandler (services σ) ctx e vaddr errorCode).2.2 =
          (populate (services σ) true pteFlags [] [vaddr &&& ~~~(pageSize - 1)] e).2 := by
  unfold mmapPageFaultHandler
  cases hf : mmapFindAreaAt ctx vaddr with
  | none => exact Or.inl rfl
  | some idx =>
    dsimp only
    simp only [faultPrivate_eq, faultPage_eq]
    by_cases hp : has (ctx.areas idx).flags mapPrivate = true
    · rw [if_pos hp]
      refine Or.inr ?_
      split_ifs
      · refine ⟨idx, protToPteFlags (ctx.areas idx).prot ||| pageWritable, rfl, Or.inl hp, ?_⟩
        split <;> rename_i heq <;> rw [heq]
      · refine ⟨idx, (protToPteFlags (ctx.areas idx).prot &&& ~~~pageWritable) ||| pageCowFlag, rfl,
          Or.inl hp, ?_⟩
        split <;> rename_i heq <;> rw [heq]
    rw [if_neg hp]
    by_cases hs : (has (ctx.areas idx).flags mapShared && (ctx.areas idx).file ≠ 0) = true
    · rw [if_pos hs]
      exact Or.inl rfl
    rw [if_neg hs]
    split_ifs with ha
    · refine Or.inr ⟨idx, protToPteFlags (ctx.areas idx).prot, rfl,
        Or.inr ⟨ha, by simpa using hs⟩, ?_⟩
      split <;> rename_i heq <;> rw [heq]
    · exact Or.inl rfl

theorem mmapDoMmap_space {addr length : UInt64} {prot flags : UInt32} {offset : UInt64}
    (ctx : Context) (e : AddressSpace φ)
    (hr : ¬ mmapRefused addr length prot flags offset = true) :
    ∃ place ctx₁ e₁, mmapPlace (services σ) ctx e addr (pageAlignUp length) flags =
        (place, ctx₁, e₁) ∧
      ((mmapDoMmap (services σ) ctx e addr length prot flags offset).2.2 = e₁ ∨
        ∃ mapAddr slot pteFlags, place = some mapAddr ∧ mmapAllocSlot ctx₁ = some slot ∧
          ¬(has flags mapAnonymous = false ∧
            (has flags mapPrivate = true ∨ has flags mapShared = false)) ∧
          (mmapDoMmap (services σ) ctx e addr length prot flags offset).2.2 =
            (populate (services σ) (has flags mapAnonymous) pteFlags []
              (pagesFrom mapAddr ((pageAlignUp length).toNat / 4096)) e₁).2) := by
  unfold mmapDoMmap
  rw [if_neg hr]
  dsimp only
  obtain ⟨place, ctx₁, e₁⟩ := mmapPlace (services σ) ctx e addr (pageAlignUp length) flags
  refine ⟨place, ctx₁, e₁, rfl, ?_⟩
  cases place with
  | none => exact Or.inl rfl
  | some mapAddr =>
    dsimp only
    cases hslot : mmapAllocSlot ctx₁ with
    | none => exact Or.inl rfl
    | some slot =>
      dsimp only
      by_cases ha : has flags mapAnonymous = true
      · rw [if_pos ha, ha]
        refine Or.inr ⟨mapAddr, slot, protToPteFlags prot, rfl, rfl, by simp, ?_⟩
        split <;> rename_i heq <;> rw [heq]
      rw [if_neg ha, Bool.eq_false_iff.mpr ha]
      by_cases hp : has flags mapPrivate = true
      · rw [if_pos hp]
        exact Or.inl rfl
      rw [if_neg hp]
      split_ifs with hs
      · refine Or.inr ⟨mapAddr, slot, protToPteFlags prot, rfl, rfl, by simp [hp, hs], ?_⟩
        split <;> rename_i heq <;> rw [heq]
      · exact Or.inl rfl

/-! ## Calls that run short -/

/-- What was held before is held after. -/
def SettledStep (e e' : AddressSpace φ) : Prop := ∃ es, e'.ledger = e.ledger ++ es ∧ Settled es

theorem SettledStep.of_eq {e e' : AddressSpace φ} (h : e'.ledger = e.ledger) : SettledStep e e' :=
  ⟨[], by simpa using h, Settled.nil⟩

theorem populate_settledStep (strict : Bool) (pteFlags : UInt64) {pages : List UInt64}
    {e : AddressSpace φ} (hnd : (pages.map vpn).Nodup) (hs : σ.RunsShort strict pages e.supply) :
    SettledStep e (populate (services σ) strict pteFlags [] pages e).2 := by
  obtain ⟨-, es, hes, hreplay⟩ := populate_settles strict pteFlags pages [] [] e .nil
    (by simpa using hnd) hs
  exact ⟨es, hes, fun held => by simpa using hreplay held⟩

/-- A call that meets the condition leaves the ledger settled. -/
theorem frameStep_settledStep {x y : Context × AddressSpace φ} {op : FrameOp}
    (hok : FramesOk σ x op) (hst : frameStep σ x op = some y) : SettledStep x.2 y.2 := by
  obtain ⟨ctx, e⟩ := x
  cases op with
  | mmap addr length prot flags offset =>
    obtain rfl := Option.some.inj hst
    by_cases hr : mmapRefused addr length prot flags offset = true
    · refine .of_eq ?_
      unfold mmapDoMmap
      rw [if_pos hr]
    obtain ⟨place, ctx₁, e₁, hplace, hspace⟩ := mmapDoMmap_space (σ := σ) ctx e hr
    have hframe := mmapPlace_frame (σ := σ) ctx e addr (pageAlignUp length) flags
    rw [hplace] at hframe
    obtain ⟨hsup, hled⟩ := hframe
    rcases hspace with hspace | ⟨mapAddr, slot, pteFlags, rfl, hslot, hflags, hspace⟩
    · exact .of_eq ((congrArg _ hspace).trans hled)
    · obtain ⟨-, hl, -⟩ := mmapRefused_eq_false hr
      have hs := ((hok.resolve_left hr).resolve_left hflags) mapAddr ctx₁ e₁ slot hplace hslot
      dsimp only at hs hsup hled
      rw [← hsup] at hs
      obtain ⟨es, hes, hset⟩ := populate_settledStep (σ := σ) _ pteFlags
        (pagesFrom_nodup mapAddr (by rw [pageAlignUp_toNat]; omega)) hs
      exact ⟨es, by rw [hspace, hes, hled], hset⟩
  | fault vaddr errorCode =>
    obtain rfl := Option.some.inj hst
    rcases mmapPageFaultHandler_space (σ := σ) ctx e vaddr errorCode with
      hspace | ⟨idx, pteFlags, hidx, hneeds, hspace⟩
    · exact .of_eq (congrArg _ hspace)
    · obtain ⟨es, hes, hset⟩ := populate_settledStep (σ := σ) true pteFlags
        (by simp) (hok idx hidx hneeds)
      exact ⟨es, by rw [hspace, hes], hset⟩
  | munmap addr length =>
    obtain rfl := Option.some.inj hst
    exact .of_eq (mmapDoMunmap_frame ctx e addr length).2

/-! ## The end of the context -/

theorem unmapPages_none (pages : List UInt64) : ∀ e : AddressSpace φ, ∀ v,
    v ∈ pages ∨ e.pages (vpn v) = none →
    (unmapPages (services σ) e pages).pages (vpn v) = none := by
  induction pages with
  | nil =>
    rintro e v (hv | hv)
    · exact absurd hv (by simp)
    · exact hv
  | cons w pages ih =>
    intro e v hv
    refine ih _ v ?_
    by_cases hw : vpn v = vpn w
    · refine Or.inr ?_
      rw [hw]
      exact Function.update_self ..
    · rcases hv with hv | hv
      · rcases List.mem_cons.mp hv with rfl | hv
        · exact absurd rfl hw
        · exact Or.inl hv
      · exact Or.inr ((Function.update_of_ne hw _ _).trans hv)

/-- No frame is found for pages that are not mapped. -/
theorem freeMapped_eq (pages : List UInt64) (e : AddressSpace φ)
    (h : ∀ v ∈ pages, e.pages (vpn v) = none) : freeMapped (services σ) e pages = e := by
  unfold freeMapped
  induction pages with
  | nil => rfl
  | cons v pages ih =>
    have h0 : (services σ).pmapGetPhysical e v = 0 := by
      change e.pages.lookup v = 0
      unfold VMap.lookup
      rw [h v (by simp)]
    rw [List.foldl_cons]
    simp only [h0]
    exact ih fun w hw => h w (by simp [hw])

/-- The frames are looked up after the pages have been unmapped, so none is freed. -/
theorem destroySlot_ledger (x : Context × AddressSpace φ) (i : Slot) :
    (destroySlot (services σ) x i).2.ledger = x.2.ledger := by
  obtain ⟨ctx, e⟩ := x
  unfold destroySlot
  dsimp only
  split_ifs with h1 h2 h3 h3
  · rfl
  · rw [freeMapped_eq _ _ fun v hv => unmapPages_none _ _ v (Or.inl hv)]
    refine (unmapPages_frame _ _).2.trans ?_
    rw [dirtyPages_eq]
    rfl
  · rw [freeMapped_eq _ _ fun v hv => unmapPages_none _ _ v (Or.inl hv)]
    exact (unmapPages_frame e _).2
  · refine (unmapPages_frame _ _).2.trans ?_
    rw [dirtyPages_eq]
    rfl
  · exact (unmapPages_frame e _).2

theorem mmapContextDestroy_ledger (ctx : Context) (e : AddressSpace φ) :
    (mmapContextDestroy (services σ) ctx e).2.ledger = e.ledger := by
  unfold mmapContextDestroy
  dsimp only
  generalize List.finRange 256 = l
  exact List.foldlRecOn l _ (motive := fun x : Context × AddressSpace φ => x.2.ledger = e.ledger) rfl
    fun x hx i _ => (destroySlot_ledger x i).trans hx

/-! ## Nothing makes up for a frame that a call keeps -/

/-- A stretch of ledger was added that releases at most `n` more than it acquires. -/
def Grows (e e' : AddressSpace φ) (n : ℕ) : Prop :=
  ∃ es, e'.ledger = e.ledger ++ es ∧ -(n : ℤ) ≤ balance es

theorem Grows.of_eq {e e' : AddressSpace φ} (h : e'.ledger = e.ledger) : Grows e e' 0 :=
  ⟨[], by simpa using h, by simp [balance]⟩

theorem Grows.trans {e e' e'' : AddressSpace φ} {m n : ℕ} (h : Grows e e' m) (h' : Grows e' e'' n) :
    Grows e e'' (m + n) := by
  obtain ⟨es, h1, h2⟩ := h
  obtain ⟨fs, h3, h4⟩ := h'
  refine ⟨es ++ fs, by rw [h3, h1, List.append_assoc], ?_⟩
  rw [balance_append]
  push_cast
  omega

/-- Rolling back `n` pages releases at most `n` frames. -/
theorem rollback_grows (done : List UInt64) :
    ∀ e : AddressSpace φ, Grows e (rollback (services σ) e done) done.length := by
  induction done with
  | nil => exact fun e => .of_eq rfl
  | cons v done ih =>
    intro e
    have hstep : Grows e (if e.pages.lookup v ≠ 0 then
        mmapFreePhysPage (services σ) ((services σ).pmapUnmapPage e v) (e.pages.lookup v)
        else (services σ).pmapUnmapPage e v) 1 := by
      unfold mmapFreePhysPage
      split_ifs
      · exact ⟨[.release _], rfl, by simp [balance, Event.weight]⟩
      · exact ⟨[], by simp, by simp [balance]⟩
      · exact ⟨[], by simp, by simp [balance]⟩
    have := hstep.trans (ih _)
    rw [Nat.add_comm] at this
    exact this

/-- A population acquires a frame for every page before it can release that of any. -/
theorem populate_grows (strict : Bool) (pteFlags : UInt64) (rest : List UInt64) :
    ∀ (done : List UInt64) (e : AddressSpace φ),
      Grows e (populate (services σ) strict pteFlags done rest e).2 done.length := by
  induction rest with
  | nil => exact fun done e => ⟨[], by simp [populate], by simp [balance]⟩
  | cons v rest ih =>
    intro done e
    unfold populate
    rcases ha : σ.alloc e.supply with ⟨_ | pfn, s⟩
    · rw [allocPages_none ha]
      exact rollback_grows done { e with supply := s }
    rw [allocPages_some ha]
    dsimp only
    -- one frame acquired, and the rest of the loop with one more page done
    have hnext : ∀ e' : AddressSpace φ, e'.ledger = e.ledger ++ [.acquire pfn] →
        Grows e (populate (services σ) strict pteFlags (done ++ [v]) rest e').2 done.length := by
      intro e' he'
      obtain ⟨es, hes, hb⟩ := ih (done ++ [v]) e'
      refine ⟨.acquire pfn :: es, by rw [hes, he']; simp, ?_⟩
      have : balance (.acquire pfn :: es) = 1 + balance es := by simp [balance, Event.weight]
      rw [this]
      rw [List.length_append] at hb
      push_cast at hb
      simp only [List.length_singleton] at hb
      omega
    rcases hm : σ.canMap s v with ⟨_ | _, s'⟩
    · rw [pmapMapPage_false hm]
      cases strict with
      | false => exact hnext _ rfl
      | true =>
        have hback : Grows e ((services σ).freePages
            { e with supply := s', ledger := e.ledger ++ [.acquire pfn] } pfn) 0 :=
          ⟨[.acquire pfn, .release pfn], by simp [services], by simp [balance, Event.weight]⟩
        have := hback.trans (rollback_grows (σ := σ) done _)
        rw [Nat.zero_add] at this
        exact this
    · rw [pmapMapPage_true hm]
      exact hnext _ rfl

/-- No call releases more frames than it acquires. -/
theorem frameStep_grows {x y : Context × AddressSpace φ} {op : FrameOp}
    (hst : frameStep σ x op = some y) : Grows x.2 y.2 0 := by
  obtain ⟨ctx, e⟩ := x
  cases op with
  | mmap addr length prot flags offset =>
    obtain rfl := Option.some.inj hst
    by_cases hr : mmapRefused addr length prot flags offset = true
    · refine .of_eq ?_
      unfold mmapDoMmap
      rw [if_pos hr]
    obtain ⟨place, ctx₁, e₁, hplace, hspace⟩ := mmapDoMmap_space (σ := σ) ctx e hr
    have hled := (mmapPlace_frame (σ := σ) ctx e addr (pageAlignUp length) flags).2
    rw [hplace] at hled
    rcases hspace with hspace | ⟨mapAddr, slot, pteFlags, rfl, -, -, hspace⟩
    · exact .of_eq ((congrArg _ hspace).trans hled)
    · obtain ⟨es, hes, hb⟩ := populate_grows (σ := σ) (has flags mapAnonymous) pteFlags
        (pagesFrom mapAddr ((pageAlignUp length).toNat / 4096)) [] e₁
      exact ⟨es, by rw [hspace, hes, hled], hb⟩
  | fault vaddr errorCode =>
    obtain rfl := Option.some.inj hst
    rcases mmapPageFaultHandler_space (σ := σ) ctx e vaddr errorCode with
      hspace | ⟨idx, pteFlags, -, -, hspace⟩
    · exact .of_eq (congrArg _ hspace)
    · obtain ⟨es, hes, hb⟩ := populate_grows (σ := σ) true pteFlags
        [vaddr &&& ~~~(pageSize - 1)] [] e
      exact ⟨es, by rw [hspace, hes], hb⟩
  | munmap addr length =>
    obtain rfl := Option.some.inj hst
    exact .of_eq (mmapDoMunmap_frame ctx e addr length).2

theorem AllReleased.of_grows {e e' : AddressSpace φ} (h : Grows e e' 0) (h' : AllReleased e') :
    AllReleased e := by
  obtain ⟨es, hes, hb⟩ := h
  unfold AllReleased at h' ⊢
  have hcard := replay_card h'
  rw [hes, replay_append] at h'
  obtain ⟨held, hheld, -⟩ := Option.bind_eq_some_iff.mp h'
  rw [hes, balance_append, Multiset.card_zero] at hcard
  rw [hheld, replay_eq_zero hheld (by push_cast at hcard hb; omega)]

/-- In a run whose calls run short of frames whenever they take some, every frame is given back
exactly once, in the call that took it. In any run, a frame that a call keeps is not given back by
the calls after it nor by `mmap_context_destroy`. -/
theorem mmap_frames_released (σ : Supply φ) (e₀ : AddressSpace φ) (h₀ : e₀.ledger = []) :
    (∀ x, Reach (frameStep σ) (FramesOk σ) (mmapContextInit, e₀) x →
      Conserved x.2 ∧ AllReleased (mmapContextDestroy (services σ) x.1 x.2).2) ∧
    (∀ y z, Reach (frameStep σ) (fun _ _ => True) (mmapContextInit, e₀) y →
      Reach (frameStep σ) (fun _ _ => True) y z →
      AllReleased (mmapContextDestroy (services σ) z.1 z.2).2 → AllReleased y.2) := by
  constructor
  · intro x h
    have hall : AllReleased x.2 := by
      refine Reach.invariant (I := fun x => AllReleased x.2) ?_ ?_ h
      · unfold AllReleased
        rw [h₀]
        rfl
      · intro x op y hx hok hst
        obtain ⟨es, hes, hset⟩ := frameStep_settledStep hok hst
        unfold AllReleased at hx ⊢
        rw [hes, replay_append, hx]
        exact hset 0
    refine ⟨⟨0, hall, by simp⟩, ?_⟩
    unfold AllReleased
    rw [mmapContextDestroy_ledger]
    exact hall
  · intro y z _ hz hd
    unfold AllReleased at hd
    rw [mmapContextDestroy_ledger] at hd
    have hgrows : Grows y.2 z.2 0 :=
      Reach.invariant (I := fun z => Grows y.2 z.2 0) (.of_eq rfl)
        (fun z op w hg _ hst => hg.trans (frameStep_grows hst)) hz
    exact AllReleased.of_grows hgrows hd

/-- A supply of a given number of frames. -/
def countedSupply : Supply ℕ where
  alloc s := if s = 0 then (none, 0) else (some (0x5000 + UInt64.ofNat s), s - 1)
  free s _ := s
  canMap s _ := (true, s)
  inMainZone _ := true

/-- Two anonymous pages when one frame is left. -/
theorem mmap_frames_released_one_frame :
    AllReleased (mmapContextDestroy (services countedSupply)
      (mmapDoMmap (services countedSupply) mmapContextInit ⟨1, fun _ => none, []⟩ 0x400000 0x2000
        protRead (mapAnonymous ||| mapPrivate) 0).2.1
      (mmapDoMmap (services countedSupply) mmapContextInit ⟨1, fun _ => none, []⟩ 0x400000 0x2000
        protRead (mapAnonymous ||| mapPrivate) 0).2.2).2 := by
  refine ((mmap_frames_released countedSupply ⟨1, fun _ => none, []⟩ rfl).1 _
    (.step (.mmap 0x400000 0x2000 protRead (mapAnonymous ||| mapPrivate) 0) .start
      (Or.inr (Or.inr ?_)) rfl)).2
  intro mapAddr ctx e slot _ _
  have hpages : (pageAlignUp 0x2000).toNat / 4096 = 2 := by decide
  rw [hpages]
  exact ⟨⟨by decide, by decide, rfl⟩, trivial⟩

/-- One anonymous page is mapped and the context destroyed: its frame is lost. -/
theorem mmap_destroy_leaks :
    ¬ ∀ (φ : Type) (σ : Supply φ) (e₀ : AddressSpace φ), e₀.ledger = [] →
      ∀ x, Reach (frameStep σ) (fun _ _ => True) (mmapContextInit, e₀) x →
        Conserved x.2 ∧ AllReleased (mmapContextDestroy (services σ) x.1 x.2).2 := by
  intro h
  have h := (h ℕ countedSupply ⟨1, fun _ => none, []⟩ rfl _
    (.step (.mmap 0x400000 0x1000 protRead (mapAnonymous ||| mapPrivate) 0) .start trivial rfl)).2
  unfold AllReleased at h
  rw [mmapContextDestroy_ledger] at h
  revert h
  decide +kernel

end Mmap
