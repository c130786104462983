import Kenux.Slab.Proofs.FirstSlab

/-!
# Runs on a cache

As long as no call gets a slab the cache stays as it was created, and every `NULL` is a failure of
the page allocator. The first call that gets one breaks the lists.
-/

namespace Slab

open DList Memory Run

/-- A cache that has not got a slab yet. -/
structure Unused (cache : Cache) (x : Usage) : Prop where
  cache_eq : x.state.cache = cache
  blocks : x.blocks = []
  live : x.live = []
  nullOk : x.nullOk = true

section

variable {cache : Cache} {x y : Usage} {pages : ℕ}

theorem Unused.asks (h : Unused cache x) (hc : Created cache) : AsksForPages x.state.cache := by
  rw [h.cache_eq]
  exact ⟨hc.head _, hc.head _⟩

/-- Without pages there is no object. -/
theorem kmemCacheAlloc_none {s : State} (h : AsksForPages s.cache) : kmemCacheAlloc s 0 = (0, s) := by
  unfold kmemCacheAlloc takeSlab slabCreate
  simp [h.1, h.2]

theorem Unused.step (h : Unused cache x) (hc : Created cache) {op : SlabOp} (hok : NoSlab x op)
    (hst : slabStep x op = some y) : Unused cache y := by
  have hasks := h.asks hc
  cases op with
  | alloc pages =>
    have h0 : pages = 0 := by
      by_contra hne
      exact hok ⟨hasks, hne⟩
    subst h0
    unfold slabStep at hst
    have hget : ¬ GetsSlab x 0 := fun hg => hg.2 rfl
    dsimp only at hst
    rw [if_neg fun hc => hget hc.1, kmemCacheAlloc_none hasks] at hst
    obtain rfl := Option.some.inj hst
    unfold Usage.allocated
    refine ⟨h.cache_eq, ?_, h.live, ?_⟩
    · dsimp only
      rw [if_neg hget]
      exact h.blocks
    · simp [h.nullOk, hasks]
  | free obj fuel =>
    unfold slabStep at hst
    dsimp only at hst
    rw [if_neg (by simp [h.live])] at hst
    exact absurd hst (by simp)

theorem Unused.slabsOk (h : Unused cache x) (hc : Created cache) : SlabsOk x := by
  refine ⟨fun l => ?_, ?_, ?_, h.nullOk⟩
  · rw [h.cache_eq, hc.head]
    exact .nil
  · rw [h.blocks]
    simp
  · rw [h.live]
    exact List.nodup_nil

/-- Taking an object writes to the free list and the count only. -/
theorem Misplaced.popObj {s : State} {slab : ℕ} (obj : ℕ) (h : Misplaced s slab) :
    Misplaced (popObj s slab obj) slab := by
  have hptr : ∀ off, off + 8 ≤ offFreeCount →
      readPtr (Slab.popObj s slab obj).mem (slab + off) = readPtr s.mem (slab + off) := by
    intro off hoff
    refine (readPtr_write32_apart (by omega)).trans (readPtr_write_apart ?_)
    unfold offFreeCount at hoff
    simp only [offFreeList]
    omega
  have hstate : read32 (Slab.popObj s slab obj).mem (slab + offState) =
      read32 s.mem (slab + offState) := by
    refine (read32_write32_apart ?_).trans (read32_write_apart ?_) <;>
      simp only [offFreeCount, offFreeList, offState] <;> omega
  refine ⟨h.ne_zero, h.lt, h.part, h.other, ?_, ?_, ?_⟩
  · rw [hptr _ (by decide), h.next]
  · rw [hptr _ (by decide), h.prev]
  · rw [hstate]
    exact h.state

/-- The first slab of a cache is put on the partial list and is misplaced there. -/
theorem Created.takeSlab {s : State} (hc : Created s.cache) (h0 : pages ≠ 0)
    (halign : pages % 4096 = 0) (hlt : pages + s.cache.slabSize ≤ 2 ^ 64)
    (hs : s.cache.objSize.toNat ∉ stateSizes) :
    ∃ t, takeSlab s pages = (slabOf s.cache pages, t) ∧ Misplaced t (slabOf s.cache pages) ∧
      readPtr t.mem (slabOf s.cache pages + offFreeList) ≠ 0 ∧
      t.cache.slabSize = s.cache.slabSize := by
  obtain ⟨m, hcreate, hfree, hstate⟩ := hc.slabCreate (m := s.mem) h0 halign hlt hs
  have hne : slabOf s.cache pages ≠ 0 := by
    unfold slabOf
    omega
  have hslab : slabOf s.cache pages < 2 ^ 64 := by
    have := slabSize_ge s.cache
    unfold slabOf sizeofSlab
    omega
  have hadd : slabAdd { s with mem := m } .part (slabOf s.cache pages) =
      ((({ s with mem := m } : State).write (slabOf s.cache pages + offNext) 0).write
        (slabOf s.cache pages + offPrev) 0).setHead .part (slabOf s.cache pages) := by
    unfold slabAdd
    dsimp only
    rw [hc.head .part, if_neg (not_not.mpr rfl)]
  unfold Slab.takeSlab
  rw [hc.head .part, hc.head .empty, if_neg (not_not.mpr rfl), if_neg (not_not.mpr rfl), hcreate]
  dsimp only
  rw [if_neg hne, hadd]
  refine ⟨_, rfl, ⟨hne, hslab, ?_, fun l hl => ?_, ?_, ?_, ?_⟩, ?_, rfl⟩
  · rw [setHead_head, if_pos rfl]
  · rw [setHead_head, if_neg hl]
    exact hc.head l
  · refine (readPtr_write_apart ?_).trans (readPtr_write_same (by decide))
    simp only [offNext, offPrev]
    omega
  · exact readPtr_write_same (by decide)
  · have hread : read32 (((({ s with mem := m } : State).write (slabOf s.cache pages + offNext)
        0).write (slabOf s.cache pages + offPrev) 0).setHead .part (slabOf s.cache pages)).mem
          (slabOf s.cache pages + offState) = read32 m (slabOf s.cache pages + offState) := by
      refine (read32_write_apart ?_).trans (read32_write_apart ?_) <;>
        simp only [offNext, offPrev, offState] <;> omega
    rw [hread]
    exact hstate
  · have hread : readPtr (((({ s with mem := m } : State).write (slabOf s.cache pages + offNext)
        0).write (slabOf s.cache pages + offPrev) 0).setHead .part (slabOf s.cache pages)).mem
          (slabOf s.cache pages + offFreeList) = readPtr m (slabOf s.cache pages + offFreeList) := by
      refine (readPtr_write_apart ?_).trans (readPtr_write_apart ?_) <;>
        simp only [offNext, offPrev, offFreeList] <;> omega
    rw [hread]
    exact hfree

theorem slabStep_alloc (h : Fresh x pages) :
    slabStep x (.alloc pages) = some (x.allocated pages (kmemCacheAlloc x.state pages)) :=
  if_neg fun hc => hc.2 h

/-- The call that gets the first slab breaks the lists. -/
theorem Unused.broken (h : Unused cache x) (hc : Created cache) (hget : GetsSlab x pages)
    (hs : cache.objSize.toNat ∉ stateSizes) (hst : slabStep x (.alloc pages) = some y) :
    ¬ SlabsOk y := by
  have heq := h.cache_eq
  subst heq
  have hfresh : Fresh x pages := by
    by_contra hno
    unfold slabStep at hst
    dsimp only at hst
    rw [if_pos ⟨hget, hno⟩] at hst
    exact absurd hst (by simp)
  obtain rfl := Option.some.inj ((slabStep_alloc hfresh).symm.trans hst)
  obtain ⟨t, htake, hmis, hobj, hsize⟩ := hc.takeSlab hget.2 hfresh.1 hfresh.2.1 hs
  unfold kmemCacheAlloc
  rw [htake]
  dsimp only
  rw [if_neg hmis.ne_zero, if_pos hobj]
  have hre := (hmis.popObj (readPtr t.mem (slabOf x.state.cache pages + offFreeList))).rehome
  generalize hu : slabRehome (popObj t (slabOf x.state.cache pages) _) _ = u at hre ⊢
  have hslab : slabOf u.cache pages = slabOf x.state.cache pages := by
    unfold slabOf
    rw [hre.slabSize]
    exact congrArg (fun n => pages + (n - sizeofSlab)) hsize
  rw [← hslab] at hre
  refine hre.broken (b := pages) ?_ ?_
  · unfold Usage.allocated
    dsimp only
    rw [if_pos hget]
    exact List.mem_cons_self ..
  · change slabOf u.cache pages ≠ 0
    rw [hslab]
    exact hmis.ne_zero

end

/-- A cache that is in use for the first time, in any memory. -/
def startUsage (mem : Mem) (cache : Cache) : Usage := ⟨⟨mem, cache⟩, [], [], true⟩

/-- Over every run in which no call gets a slab the cache is in order, and the first call that gets
one breaks it. -/
theorem slabs_ok_without_slab {cacheCount size align : UInt32} {cache : Cache} (mem : Mem)
    (hc : kmemCacheCreate cacheCount size align = some cache) :
    (∀ x, Reach slabStep NoSlab (startUsage mem cache) x → SlabsOk x) ∧
      ∀ x op y, Reach slabStep NoSlab (startUsage mem cache) x → ¬ NoSlab x op →
        cache.objSize.toNat ∉ stateSizes → slabStep x op = some y → ¬ SlabsOk y := by
  have hcreated := kmemCacheCreate_spec hc
  have hstart : Unused cache (startUsage mem cache) := ⟨rfl, rfl, rfl, rfl⟩
  have hinv : ∀ x, Reach slabStep NoSlab (startUsage mem cache) x → Unused cache x := fun x hx =>
    hx.invariant hstart fun _ _ _ h hok hst => h.step hcreated hok hst
  refine ⟨fun x hx => (hinv x hx).slabsOk hcreated, fun x op y hx hnok hs hst => ?_⟩
  cases op with
  | alloc pages => exact (hinv x hx).broken hcreated (not_not.mp hnok) hs hst
  | free obj fuel => exact absurd trivial hnok

/-- The cache that `slab_init` creates for objects of 64 bytes. -/
def cache64 : Cache := ⟨64, 64, 128, 1, fun _ => 0, 0, 0⟩

theorem cache64_created : kmemCacheCreate 0 64 64 = some cache64 := by rfl

theorem slabs_ok_failed_alloc :
    SlabsOk ((startUsage (fun _ => 0) cache64).allocated 0 (0, ⟨fun _ => 0, cache64⟩)) :=
  (slabs_ok_without_slab (fun _ => 0) cache64_created).1 _
    (.step (.alloc 0) .start (fun hget => hget.2 rfl) (by rfl))

/-- After the first successful `kmem_cache_alloc` on this cache, its slab is its own successor. -/
theorem first_slab_loops :
    ¬ ∀ (cacheCount size align : UInt32) (cache : Cache) (mem : Mem) (x : Usage),
      kmemCacheCreate cacheCount size align = some cache →
      Reach slabStep (fun _ _ => True) (startUsage mem cache) x → SlabsOk x := by
  intro h
  have hget : GetsSlab (startUsage (fun _ => 0) cache64) 0x100000 := by decide
  have hfresh : Fresh (startUsage (fun _ => 0) cache64) 0x100000 := by decide
  have hst := slabStep_alloc hfresh
  generalize (startUsage (fun _ => 0) cache64).allocated 0x100000
    (kmemCacheAlloc (startUsage (fun _ => 0) cache64).state 0x100000) = y at hst
  have hunused : Unused cache64 (startUsage (fun _ => 0) cache64) := ⟨rfl, rfl, rfl, rfl⟩
  exact hunused.broken (kmemCacheCreate_spec cache64_created) hget (by decide) hst
    (h 0 64 64 cache64 _ y cache64_created (.step (.alloc 0x100000) .start trivial hst))

end Slab
