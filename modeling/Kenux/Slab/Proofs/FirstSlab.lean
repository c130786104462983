import Kenux.Slab.Model

/-!
# The first slab of a cache

`kmem_cache_alloc` puts a new slab on the partial list, but its state is still `SLAB_EMPTY`.
`__slab_rehome` takes it for a slab on the empty list: it does not unlink it, and adds it once more.
-/

namespace Slab

open DList Memory Run

/-! ## Fields -/

section Fields

variable {m : Mem} {a b v : ℕ} {w : UInt32}

theorem readPtr_write_apart (h : b + 8 ≤ a ∨ a + 8 ≤ b) :
    readPtr (writePtr m a v) b = readPtr m b := load_store_apart h

theorem readPtr_write_same (hv : v < 2 ^ 64) : readPtr (writePtr m a v) a = v :=
  load_store_of_lt hv

theorem readPtr_write32_apart (h : b + 8 ≤ a ∨ a + 4 ≤ b) :
    readPtr (write32 m a w) b = readPtr m b := load_store_apart h

theorem read32_write_apart (h : b + 4 ≤ a ∨ a + 8 ≤ b) :
    read32 (writePtr m a v) b = read32 m b := congrArg UInt32.ofNat (load_store_apart h)

theorem read32_write32_apart (h : b + 4 ≤ a ∨ a + 4 ≤ b) :
    read32 (write32 m a w) b = read32 m b := congrArg UInt32.ofNat (load_store_apart h)

theorem read32_write32_same : read32 (write32 m a w) a = w := by
  unfold read32 write32
  rw [load_store_of_lt w.toNat_lt]
  exact UInt32.ofNat_toNat

/-- The lower half of a pointer. -/
theorem read32_write_same : read32 (writePtr m a v) a = UInt32.ofNat v := by
  unfold read32 writePtr
  rw [load_store_le (by omega)]
  refine UInt32.toNat_inj.mp ?_
  rw [UInt32.toNat_ofNat', UInt32.toNat_ofNat']
  exact Nat.mod_mod v (2 ^ 32)

end Fields

/-! ## Rehoming a slab that is not where its state says -/

section Rehome

variable {s : State} {slab : ℕ}

/-- The slab is alone on the partial list, its state names another list, and the other lists are
empty. -/
structure Misplaced (s : State) (slab : ℕ) : Prop where
  ne_zero : slab ≠ 0
  lt : slab < 2 ^ 64
  part : s.cache.head .part = slab
  other : ∀ l, l ≠ .part → s.cache.head l = 0
  next : readPtr s.mem (slab + offNext) = 0
  prev : readPtr s.mem (slab + offPrev) = 0
  state : listOfState (read32 s.mem (slab + offState)) ≠ .part

theorem slabRemove_alone {l : SlabList} (hn : readPtr s.mem (slab + offNext) = 0)
    (hp : readPtr s.mem (slab + offPrev) = 0) :
    slabRemove s l slab = ((s.setHead l 0).write (slab + offPrev) 0).write (slab + offNext) 0 := by
  have hn' : readPtr (s.setHead l 0).mem (slab + offNext) = 0 := hn
  unfold slabRemove
  dsimp only
  rw [hp, hn, if_neg (not_not.mpr rfl), hn', if_neg (not_not.mpr rfl)]

theorem home_congr {t : State}
    (hf : read32 t.mem (slab + offFreeCount) = read32 s.mem (slab + offFreeCount))
    (hc : read32 t.mem (slab + offObjCount) = read32 s.mem (slab + offObjCount)) :
    t.home slab = s.home slab := by
  unfold State.home
  rw [hf, hc]

/-- Writes to the links of a slab do not change its counts. -/
theorem home_write {off v : ℕ} (h : off + 8 ≤ offObjCount) :
    (s.write (slab + off) v).home slab = s.home slab := by
  unfold offObjCount at h
  refine home_congr (read32_write_apart ?_) (read32_write_apart ?_) <;>
    simp only [offFreeCount, offObjCount] <;> omega

@[simp] theorem home_writeNext {v : ℕ} : (s.write (slab + offNext) v).home slab = s.home slab :=
  home_write (by decide)

@[simp] theorem home_writePrev {v : ℕ} : (s.write (slab + offPrev) v).home slab = s.home slab :=
  home_write (by decide)

@[simp] theorem home_setHead {l : SlabList} {v : ℕ} : (s.setHead l v).home slab = s.home slab := rfl

@[simp] theorem home_setState {state : ℕ} : (s.setState slab state).home slab = s.home slab := by
  refine home_congr (read32_write32_apart ?_) (read32_write32_apart ?_) <;>
    simp only [offFreeCount, offObjCount, offState] <;> omega

@[simp] theorem write_cache {a v : ℕ} : (s.write a v).cache = s.cache := rfl

@[simp] theorem setState_cache {state : ℕ} : (s.setState slab state).cache = s.cache := rfl

theorem setHead_head {l l' : SlabList} {v : ℕ} :
    (s.setHead l v).cache.head l' = if l' = l then v else s.cache.head l' := by
  unfold State.setHead
  exact Function.update_apply ..

@[simp] theorem setHead_slabSize {l : SlabList} {v : ℕ} :
    (s.setHead l v).cache.slabSize = s.cache.slabSize := rfl

theorem readPtr_setState (state : ℕ) {off : ℕ} (h : off + 8 ≤ offState) :
    readPtr (s.setState slab state).mem (slab + off) = readPtr s.mem (slab + off) :=
  readPtr_write32_apart (by omega)

/-- What rehoming a misplaced slab leaves: it is still first on the partial list, and if it belongs
there it is its own successor. -/
structure Rehomed (s t : State) (slab : ℕ) : Prop where
  part : t.cache.head .part = slab
  home : t.home slab = s.home slab
  slabSize : t.cache.slabSize = s.cache.slabSize
  loop : s.home slab = .part → t.next slab = some slab

/-- A slab that is first on the partial list is added to it once more. -/
theorem slabAdd_loop (h0 : slab ≠ 0) (hlt : slab < 2 ^ 64) (hp : s.cache.head .part = slab) :
    Rehomed s (slabAdd s .part slab) slab := by
  unfold slabAdd
  dsimp only
  rw [hp, if_pos h0]
  refine ⟨by rw [setHead_head, if_pos rfl], by simp, by simp, fun _ => ?_⟩
  have hloop : readPtr ((((s.write (slab + offNext) slab).write (slab + offPrev) 0).write
      (slab + offPrev) slab).setHead .part slab).mem (slab + offNext) = slab := by
    refine (readPtr_write_apart ?_).trans ((readPtr_write_apart ?_).trans (readPtr_write_same hlt))
      <;> simp only [offNext, offPrev] <;> omega
  unfold State.next ptr
  rw [hloop, if_neg h0]

/-- A slab that is first on the partial list is added to another list. -/
theorem slabAdd_other {l : SlabList} (hl : l ≠ .part) (hp : s.cache.head .part = slab)
    (hz : s.cache.head l = 0) (hhome : s.home slab = l) : Rehomed s (slabAdd s l slab) slab := by
  unfold slabAdd
  dsimp only
  rw [hz, if_neg (not_not.mpr rfl)]
  refine ⟨?_, by simp, by simp, fun hc => absurd (hhome.symm.trans hc) hl⟩
  rw [setHead_head, if_neg (Ne.symm hl)]
  exact hp

theorem Misplaced.rehome (h : Misplaced s slab) : Rehomed s (slabRehome s slab) slab := by
  have hhome : listOfCount (read32 s.mem (slab + offFreeCount))
      (read32 s.mem (slab + offObjCount)) = s.home slab := rfl
  unfold slabRehome
  rw [hhome]
  have hold := h.state
  generalize listOfState (read32 s.mem (slab + offState)) = old at hold
  dsimp only
  have hoff : offNext + 8 ≤ offState ∧ offPrev + 8 ≤ offState := by decide
  have hnext := (readPtr_setState (stateOf (s.home slab)) hoff.1).trans h.next
  have hprev := (readPtr_setState (stateOf (s.home slab)) hoff.2).trans h.prev
  by_cases hsame : old = s.home slab
  · rw [if_neg (not_not.mpr hsame)]
    exact ⟨h.part, home_setState, rfl, fun hc => absurd (hsame.trans hc) hold⟩
  rw [if_pos hsame, slabRemove_alone hnext hprev]
  generalize hu : (((s.setState slab (stateOf (s.home slab))).setHead old 0).write
    (slab + offPrev) 0).write (slab + offNext) 0 = u
  have huhome : u.home slab = s.home slab := by
    rw [← hu]
    simp
  have husize : u.cache.slabSize = s.cache.slabSize := by
    rw [← hu]
    rfl
  have huhead : ∀ l, u.cache.head l = if l = old then 0 else s.cache.head l := by
    intro l
    rw [← hu]
    exact setHead_head
  have hupart : u.cache.head .part = slab := by
    rw [huhead, if_neg (Ne.symm hold), h.part]
  have hr : Rehomed u (slabAdd u (s.home slab) slab) slab := by
    by_cases hp : s.home slab = .part
    · rw [hp]
      exact slabAdd_loop h.ne_zero h.lt hupart
    · refine slabAdd_other hp hupart ?_ huhome
      rw [huhead]
      split_ifs
      · rfl
      · exact h.other _ hp
  exact ⟨hr.part, hr.home.trans huhome, hr.slabSize.trans husize, fun hc => hr.loop (huhome.trans hc)⟩

/-- A rehomed slab breaks the lists: it is its own successor, or on a list that it is not to be on. -/
theorem Rehomed.broken {x : Usage} {s : State} {b : ℕ} (hb : b ∈ x.blocks)
    (h : Rehomed s x.state (slabOf x.state.cache b)) (h0 : slabOf x.state.cache b ≠ 0) :
    ¬ SlabsOk x := by
  intro hok
  have hptr : ptr (x.state.cache.head .part) = some (slabOf x.state.cache b) := by
    unfold ptr
    rw [h.part, if_neg h0]
  by_cases hp : x.state.home (slabOf x.state.cache b) = .part
  · have hends := hok.acyclic .part
    rw [hptr] at hends
    exact not_ends_self (h.loop (h.home ▸ hp)) hends
  · have hon : OnList x.state .part (slabOf x.state.cache b) := by
      unfold OnList
      rw [hptr]
      exact .here _
    exact hp ((hok.placed b hb .part).mp hon).symm

end Rehome

/-! ## Creating a slab -/

section Create

variable {m : Mem} {cache : Cache} {b objSize i n cur a : ℕ}

/-- The last round of the loop that links the objects. -/
theorem linkObjs_succ (n : ℕ) : ∀ (i cur : ℕ) (m : Mem), linkObjs b objSize (n + 1) i cur m =
    (b + (i + n) * objSize, writePtr (linkObjs b objSize n i cur m).2 (b + (i + n) * objSize)
      (linkObjs b objSize n i cur m).1) := by
  induction n with
  | zero => exact fun _ _ _ => rfl
  | succ n ih =>
    intro i cur m
    have hi : i + 1 + n = i + (n + 1) := by omega
    unfold linkObjs
    rw [ih, hi]

theorem linkObjs_read32 (h : ∀ j, j < n → b + (i + j) * objSize + 8 ≤ a) :
    read32 (linkObjs b objSize n i cur m).2 a = read32 m a := by
  induction n with
  | zero => rfl
  | succ n ih =>
    rw [linkObjs_succ]
    exact (read32_write_apart (Or.inr (h n (by omega)))).trans (ih fun j hj => h j (by omega))

theorem slabOrderLoop_ge (need : UInt32) (fuel : ℕ) : ∀ order, order ≤ slabOrderLoop need fuel order := by
  induction fuel with
  | zero => exact fun order => Nat.le_refl order
  | succ fuel ih =>
    intro order
    unfold slabOrderLoop
    split_ifs
    · exact Nat.le_trans (Nat.le_succ order) (ih (order + 1))
    · exact Nat.le_refl order

/-- More than a page of objects takes at least two pages. -/
theorem slabOrder_pos {objSize objs : UInt32} (h : 4096 < (objSize * objs).toNat) :
    1 ≤ slabOrder objSize objs := by
  have hlt : pageSize <<< UInt32.ofNat 0 < objSize * objs := UInt32.lt_iff_toNat_lt.mpr h
  unfold slabOrder buddyMaxOrder slabOrderLoop
  rw [if_pos hlt]
  exact slabOrderLoop_ge _ 10 1

/-- What `kmem_cache_create` fixes. -/
structure Created (cache : Cache) : Prop where
  objSize : 8 ≤ cache.objSize.toNat
  objs : cache.objsPerSlab.toNat = max 1 (8192 / cache.objSize.toNat)
  order : cache.slabOrder = slabOrder cache.objSize cache.objsPerSlab
  head : ∀ l, cache.head l = 0

theorem kmemCacheCreate_spec {cacheCount size align : UInt32}
    (h : kmemCacheCreate cacheCount size align = some cache) : Created cache := by
  unfold kmemCacheCreate at h
  by_cases hsize : size = 0 ∨ size > pageSize <<< UInt32.ofNat buddyMaxOrder
  · rw [if_pos hsize] at h
    exact absurd h (by simp)
  rw [if_neg hsize] at h
  dsimp only at h
  generalize (size + (if align = 0 then 8 else align) - 1) &&&
    ~~~((if align = 0 then 8 else align) - 1) = objSize at h
  generalize hobj : (if objSize < 8 then 8 else objSize) = o at h
  have ho : 8 ≤ o.toNat := by
    rw [← hobj]
    split_ifs with hlt
    · decide
    · exact UInt32.le_iff_toNat_le.mp (UInt32.not_lt.mp hlt)
  have hobjs : (if pageSize * 2 / o < 1 then 1 else pageSize * 2 / o).toNat =
      max 1 (8192 / o.toNat) := by
    have hdiv : (pageSize * 2 / o).toNat = 8192 / o.toNat := UInt32.toNat_div ..
    split_ifs with hlt
    · have := UInt32.lt_iff_toNat_lt.mp hlt
      rw [hdiv] at this
      have h1 : (1 : UInt32).toNat = 1 := rfl
      omega
    · have := mt UInt32.lt_iff_toNat_lt.mpr hlt
      rw [hdiv] at this ⊢
      have h1 : (1 : UInt32).toNat = 1 := rfl
      omega
  by_cases hcount : cacheCount ≥ slabMaxCaches
  · rw [if_pos hcount] at h
    exact absurd h (by simp)
  rw [if_neg hcount] at h
  obtain rfl := Option.some.inj h
  exact ⟨ho, hobjs, rfl, fun _ => rfl⟩

theorem Created.objs_pos (h : Created cache) : 1 ≤ cache.objsPerSlab.toNat := by
  rw [h.objs]
  exact Nat.le_max_left ..

/-- With more than one object to a slab, the slab has exactly the two pages that the number of
objects is computed from. -/
theorem Created.slabSize_eq (h : Created cache) (hn : 2 ≤ cache.objsPerSlab.toNat) :
    8192 ≤ cache.slabSize := by
  have hobjs := h.objs
  have hsize := h.objSize
  have hmul := Nat.div_mul_le_self 8192 cache.objSize.toNat
  have hgt := Nat.lt_div_mul_add (a := 8192) (b := cache.objSize.toNat) (by omega)
  have hn' : cache.objsPerSlab.toNat = 8192 / cache.objSize.toNat := by omega
  rw [← hn'] at hmul hgt
  have hprod : (cache.objSize * cache.objsPerSlab).toNat =
      cache.objsPerSlab.toNat * cache.objSize.toNat := by
    rw [UInt32.toNat_mul, Nat.mul_comm]
    exact Nat.mod_eq_of_lt (by omega)
  have htwo : 2 * cache.objSize.toNat ≤ cache.objsPerSlab.toNat * cache.objSize.toNat :=
    Nat.mul_le_mul_right _ hn
  have hpos : 1 ≤ cache.slabOrder := by
    rw [h.order]
    exact slabOrder_pos (by rw [hprod]; omega)
  have hpow : 2 ^ 1 ≤ 2 ^ cache.slabOrder := Nat.pow_le_pow_right (by omega) hpos
  unfold Cache.slabSize
  omega

/-- A slab has at least a page. -/
theorem slabSize_ge (cache : Cache) : 4096 ≤ cache.slabSize := by
  have := Nat.two_pow_pos cache.slabOrder
  unfold Cache.slabSize
  omega

/-- The sizes of objects for which the last link of a new slab reaches into its state, and may make
it any number. -/
def stateSizes : List ℕ := [9, 10, 13]

/-- The last link of a new slab ends before its state. -/
theorem Created.links_end (h : Created cache) (h8 : cache.objSize.toNat ≠ 8)
    (hs : cache.objSize.toNat ∉ stateSizes) :
    (cache.objsPerSlab.toNat - 1) * cache.objSize.toNat + 16 ≤ cache.slabSize := by
  have hobjs := h.objs
  have hsize := h.objSize
  have hpos := h.objs_pos
  have hpage := slabSize_ge cache
  by_cases hn : 2 ≤ cache.objsPerSlab.toNat
  · have hslab := h.slabSize_eq hn
    have hn' : cache.objsPerSlab.toNat = 8192 / cache.objSize.toNat := by omega
    have hmul := Nat.div_mul_le_self 8192 cache.objSize.toNat
    rw [← hn'] at hmul
    rw [Nat.sub_mul, Nat.one_mul]
    by_cases hbig : 16 ≤ cache.objSize.toNat
    · omega
    · unfold stateSizes at hs
      have hcases : cache.objSize.toNat = 11 ∨ cache.objSize.toNat = 12 ∨
          cache.objSize.toNat = 14 ∨ cache.objSize.toNat = 15 := by
        simp only [List.mem_cons, List.not_mem_nil, or_false, not_or] at hs
        omega
      rcases hcases with ho | ho | ho | ho <;> rw [ho] at hn' ⊢ <;> omega
  · have h1 : cache.objsPerSlab.toNat - 1 = 0 := by omega
    rw [h1, Nat.zero_mul]
    omega

/-- The memory of a new slab before its free list is set. -/
theorem slabCreate_eq (m : Mem) (cache : Cache) (h0 : b ≠ 0) :
    ∃ m', read32 m' (slabOf cache b + offState) =
      UInt32.ofNat slabEmpty ∧
    slabCreate m cache b = (slabOf cache b,
      writePtr (linkObjs b cache.objSize.toNat cache.objsPerSlab.toNat 0 0 m').2
        (slabOf cache b + offFreeList)
        (linkObjs b cache.objSize.toNat cache.objsPerSlab.toNat 0 0 m').1) := by
  unfold slabCreate
  rw [if_neg h0]
  exact ⟨_, read32_write32_same, rfl⟩

theorem state_of_list {state : UInt32} (h : listOfState state = .part) :
    state.toNat = slabPartial := by
  unfold listOfState at h
  split_ifs at h with _ hp
  rw [hp]
  rfl

/-- With objects of eight bytes the last link lies over the state of the slab. -/
theorem Created.small (h : Created cache) (h8 : cache.objSize.toNat = 8) :
    cache.objsPerSlab.toNat = 1024 ∧ cache.slabSize = 8192 := by
  have hobjs := h.objs
  rw [h8] at hobjs
  have hsize : cache.objSize = 8 := UInt32.toNat_inj.mp h8
  have hcount : cache.objsPerSlab = 1024 := UInt32.toNat_inj.mp hobjs
  have horder := h.order
  rw [hsize, hcount] at horder
  refine ⟨hobjs, ?_⟩
  unfold Cache.slabSize
  rw [horder]
  decide

/-- A new slab has a free object, and its state is not `SLAB_PARTIAL`. -/
theorem Created.slabCreate (h : Created cache) (h0 : b ≠ 0) (halign : b % 4096 = 0)
    (hlt : b + cache.slabSize ≤ 2 ^ 64) (hs : cache.objSize.toNat ∉ stateSizes) :
    ∃ m', slabCreate m cache b = (slabOf cache b, m') ∧
      readPtr m' (slabOf cache b + offFreeList) ≠ 0 ∧
      listOfState (read32 m' (slabOf cache b + offState)) ≠ .part := by
  obtain ⟨m₁, hstate, heq⟩ := slabCreate_eq m cache h0
  have hpos := h.objs_pos
  have hpage := slabSize_ge cache
  have hslab : slabOf cache b + offState = b + cache.slabSize - 8 := by
    unfold slabOf sizeofSlab offState
    omega
  obtain ⟨n, hn⟩ : ∃ n, cache.objsPerSlab.toNat = n + 1 := ⟨cache.objsPerSlab.toNat - 1, by omega⟩
  rw [hn] at heq
  have hbound : n * cache.objSize.toNat + 8 ≤ cache.slabSize := by
    by_cases h8 : cache.objSize.toNat = 8
    · obtain ⟨hobjs, hsize⟩ := h.small h8
      rw [h8, hsize]
      omega
    · have hend := h.links_end h8 hs
      rw [hn, Nat.add_sub_cancel] at hend
      omega
  have hfree : (linkObjs b cache.objSize.toNat (n + 1) 0 0 m₁).1 =
      b + n * cache.objSize.toNat := by
    rw [linkObjs_succ, Nat.zero_add]
  have hread : ∀ m v, read32 (writePtr m (slabOf cache b + offFreeList) v)
      (slabOf cache b + offState) = read32 m (slabOf cache b + offState) := fun m v =>
    read32_write_apart (Or.inr (by simp only [offFreeList, offState]; omega))
  refine ⟨_, heq, ?_, ?_⟩
  · rw [hfree, readPtr_write_same (by omega)]
    omega
  · intro hpart
    have hpart := state_of_list hpart
    rw [hread] at hpart
    by_cases h8 : cache.objSize.toNat = 8
    · obtain ⟨hobjs, hsize⟩ := h.small h8
      obtain rfl : n = 1022 + 1 := by omega
      have haddr : slabOf cache b + offState = b + (0 + (1022 + 1)) * 8 := by omega
      rw [h8, haddr, linkObjs_succ, linkObjs_succ, read32_write_same, UInt32.toNat_ofNat'] at hpart
      unfold slabPartial at hpart
      omega
    · have hend := h.links_end h8 hs
      rw [hn, Nat.add_sub_cancel] at hend
      rw [linkObjs_read32, hstate] at hpart
      · exact absurd hpart (by decide)
      · intro j hj
        have hmul : j * cache.objSize.toNat ≤ n * cache.objSize.toNat :=
          Nat.mul_le_mul_right _ (by omega)
        rw [hslab, Nat.zero_add]
        omega

end Create

end Slab
