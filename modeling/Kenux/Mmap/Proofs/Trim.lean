import Kenux.Mmap.Proofs.Areas

/-!
# One round and the whole loop of `mmap_do_munmap`

A round treats one area that the range `[addr, S)` overlaps, where `S` is `addr + aligned_len` as
the code computes it. `Trimmed` lists its outcomes in terms of intervals. Whatever the arguments,
the pieces that stay no longer meet the overlap test, so the loop ends with no area left to treat.
-/

namespace Mmap

open Function (update_self update_of_ne)

/-- `b` is a part of `a` that occupies `[lo, hi)`. -/
structure Area.Part (a b : Area) (lo hi : ℕ) : Prop where
  active : b.active = true
  prot : b.prot = a.prot
  flags : b.flags = a.flags
  file : b.file = a.file
  lo_eq : b.lo = lo
  hi_eq : b.hi = hi

/-- The outcomes of one round on slot `idx`. -/
inductive Trimmed (ctx : Context) (idx : Slot) (addr S : ℕ) : Context → Prop where
  | whole (hlo : addr ≤ (ctx.areas idx).lo) (hhi : (ctx.areas idx).hi ≤ S) :
      Trimmed ctx idx addr S
        { areas := Function.update ctx.areas idx Area.zero, areaCount := ctx.areaCount - 1 }
  | head (b : Area) (hlo : addr ≤ (ctx.areas idx).lo) (hhi : S < (ctx.areas idx).hi)
      (hb : (ctx.areas idx).Part b S (ctx.areas idx).hi)
      (ho : b.offset = if (ctx.areas idx).offset ≠ 0
        then (ctx.areas idx).offset + (b.start - (ctx.areas idx).start) else (ctx.areas idx).offset) :
      Trimmed ctx idx addr S { ctx with areas := Function.update ctx.areas idx b }
  | tail (b : Area) (hlo : (ctx.areas idx).lo < addr) (hhi : (ctx.areas idx).hi ≤ S)
      (hb : (ctx.areas idx).Part b (ctx.areas idx).lo addr)
      (ho : b.offset = (ctx.areas idx).offset) :
      Trimmed ctx idx addr S { ctx with areas := Function.update ctx.areas idx b }
  | hole (b : Area) (hlo : (ctx.areas idx).lo < addr) (hhi : S < (ctx.areas idx).hi)
      (hfull : mmapAllocSlot ctx = none)
      (hb : (ctx.areas idx).Part b (ctx.areas idx).lo addr)
      (ho : b.offset = (ctx.areas idx).offset) :
      Trimmed ctx idx addr S { ctx with areas := Function.update ctx.areas idx b }
  | split (b t : Area) (slot : Slot) (hlo : (ctx.areas idx).lo < addr)
      (hhi : S < (ctx.areas idx).hi) (hfree : mmapAllocSlot ctx = some slot)
      (hb : (ctx.areas idx).Part b (ctx.areas idx).lo addr)
      (ho : b.offset = (ctx.areas idx).offset)
      (ht : (ctx.areas idx).Part t S (ctx.areas idx).hi)
      (hto : t.offset = (ctx.areas idx).offset + (t.start - (ctx.areas idx).start)) :
      Trimmed ctx idx addr S
        { areas := Function.update (Function.update ctx.areas slot t) idx b
          areaCount := ctx.areaCount + 1 }

section Round

variable {ctx : Context} {idx : Slot} {addr al : UInt64}

theorem unmapStart_eq (a : Area) (addr : UInt64) :
    (unmapStart a addr = a.start ↔ addr.toNat ≤ a.lo) ∧
      (a.lo < addr.toNat → unmapStart a addr = addr) := by
  unfold unmapStart Area.lo
  simp only [gt_iff_lt, UInt64.lt_iff_toNat_lt]
  constructor
  · constructor
    · intro h
      split_ifs at h with hc
      · rw [h]
      · omega
    · intro h
      rw [if_neg (by omega)]
  · intro h
    rw [if_pos h]

theorem unmapStart_of_ne {a : Area} (h : unmapStart a addr ≠ a.start) : unmapStart a addr = addr := by
  unfold unmapStart at h ⊢
  split_ifs at h ⊢
  · rfl
  · exact absurd rfl h

theorem unmapEnd_of_ne {a : Area} (h : unmapEnd a addr al ≠ a.end) :
    unmapEnd a addr al = addr + al := by
  unfold unmapEnd at h ⊢
  split_ifs at h ⊢
  · rfl
  · exact absurd rfl h

theorem unmapEnd_eq {a : Area} (h : a.hi < 2 ^ 64) (addr al : UInt64) :
    (unmapEnd a addr al = a.end ↔ a.hi ≤ (addr + al).toNat) ∧
      ((addr + al).toNat < a.hi → unmapEnd a addr al = addr + al) := by
  have he := Area.end_toNat h
  unfold unmapEnd
  simp only [UInt64.lt_iff_toNat_lt, he]
  constructor
  · constructor
    · intro hx
      split_ifs at hx with hc
      · rw [hx, he] at hc
        omega
      · omega
    · intro hx
      rw [if_neg (by omega)]
  · intro hx
    rw [if_pos hx]

theorem trimArea_cases (hhi : (ctx.areas idx).hi < 2 ^ 64)
    (hc : (ctx.areas idx).covers addr al = true) :
    Trimmed ctx idx addr.toNat (addr + al).toNat (trimArea ctx idx addr al) := by
  obtain ⟨hact, h1, h2⟩ := (Area.covers_iff hhi addr al).mp hc
  obtain ⟨hs1, hs2⟩ := unmapStart_eq (ctx.areas idx) addr
  obtain ⟨he1, he2⟩ := unmapEnd_eq hhi addr al
  have hend := Area.end_toNat hhi
  generalize hS : addr + al = S at *
  have hlen : (ctx.areas idx).hi = (ctx.areas idx).start.toNat + (ctx.areas idx).length.toNat := rfl
  have hlo : (ctx.areas idx).lo = (ctx.areas idx).start.toNat := rfl
  -- lengths of the pieces, as numbers
  have hcut : ∀ x : UInt64, (ctx.areas idx).start.toNat ≤ x.toNat →
      (x - (ctx.areas idx).start).toNat = x.toNat - (ctx.areas idx).start.toNat :=
    fun x hx => UInt64.toNat_sub_of_le _ _ hx
  unfold trimArea
  simp only
  by_cases c1 : addr.toNat ≤ (ctx.areas idx).lo
  · have hus := hs1.mpr c1
    by_cases c2 : (ctx.areas idx).hi ≤ S.toNat
    · rw [if_pos ⟨hus, he1.mpr c2⟩]
      exact .whole c1 c2
    · have hue := he2 (by omega)
      have hne : unmapEnd (ctx.areas idx) addr al ≠ (ctx.areas idx).end := fun h => c2 (he1.mp h)
      rw [if_neg (fun h => hne h.2), if_pos hus, hue]
      have hr := hcut S (by omega)
      have hstart : (ctx.areas idx).start + (S - (ctx.areas idx).start) = S := by grind
      refine .head _ c1 (by omega) ⟨hact, rfl, rfl, rfl, ?_, ?_⟩ ?_
      · change ((ctx.areas idx).start + (S - (ctx.areas idx).start)).toNat = S.toNat
        rw [hstart]
      · change ((ctx.areas idx).start + (S - (ctx.areas idx).start)).toNat +
          ((ctx.areas idx).length - (S - (ctx.areas idx).start)).toNat = (ctx.areas idx).hi
        rw [hstart, UInt64.toNat_sub_of_le _ _ (by rw [UInt64.le_iff_toNat_le]; omega), hr]
        omega
      · dsimp only
        rw [hstart]
  · have hus := hs2 (by omega)
    have hne : unmapStart (ctx.areas idx) addr ≠ (ctx.areas idx).start := fun h => c1 (hs1.mp h)
    rw [if_neg (fun h => hne h.1), if_neg hne, hus]
    have hr := hcut addr (by omega)
    by_cases c2 : (ctx.areas idx).hi ≤ S.toNat
    · have hsub : ((ctx.areas idx).end - addr).toNat = (ctx.areas idx).hi - addr.toNat := by
        rw [UInt64.toNat_sub_of_le _ _ (by rw [UInt64.le_iff_toNat_le]; omega), hend]
      rw [if_pos (he1.mpr c2), he1.mpr c2]
      refine .tail _ (by omega) c2 ⟨hact, rfl, rfl, rfl, rfl, ?_⟩ rfl
      change (ctx.areas idx).start.toNat +
        ((ctx.areas idx).length - ((ctx.areas idx).end - addr)).toNat = addr.toNat
      rw [UInt64.toNat_sub_of_le _ _ (by rw [UInt64.le_iff_toNat_le]; omega), hsub]
      omega
    · have hue := he2 (by omega)
      have hne' : unmapEnd (ctx.areas idx) addr al ≠ (ctx.areas idx).end := fun h => c2 (he1.mp h)
      rw [if_neg hne', hue]
      have hhiCut : (ctx.areas idx).start.toNat + (addr - (ctx.areas idx).start).toNat =
          addr.toNat := by
        rw [hr]
        omega
      cases hslot : mmapAllocSlot ctx with
      | none =>
        exact .hole _ (by omega) (by omega) hslot ⟨hact, rfl, rfl, rfl, rfl, hhiCut⟩ rfl
      | some slot =>
        refine .split _ _ slot (by omega) (by omega) hslot ⟨hact, rfl, rfl, rfl, rfl, hhiCut⟩ rfl
          ⟨rfl, rfl, rfl, rfl, rfl, ?_⟩ rfl
        change S.toNat + ((ctx.areas idx).end - S).toNat = (ctx.areas idx).hi
        rw [UInt64.toNat_sub_of_le _ _ (by rw [UInt64.le_iff_toNat_le]; omega), hend]
        omega

/-- No wrap-around in terms of numbers. -/
theorem noWrap_toNat (h : addr ≤ addr + al) : (addr + al).toNat = addr.toNat + al.toNat := by
  have h1 := addr.toNat_lt
  have h2 := al.toNat_lt
  rw [UInt64.le_iff_toNat_le, UInt64.toNat_add] at h
  rw [UInt64.toNat_add]
  omega

theorem Area.covers_active {a : Area} (h : a.covers addr al = true) : a.active = true := by
  unfold Area.covers at h
  simp only [Bool.and_eq_true] at h
  exact h.1.1

/-- The pieces of the treated area are separated from the rest and from each other when every cut
inside it is made at aligned addresses. -/
theorem Separated.trimArea {top : ℕ} (h : Separated ctx.areas top)
    (hhi : (ctx.areas idx).hi < 2 ^ 64) (hc : (ctx.areas idx).covers addr al = true)
    (hw : addr ≤ addr + al)
    (hcut : (ctx.areas idx).lo < addr.toNat ∨ (addr + al).toNat < (ctx.areas idx).hi →
      addr.toNat % 4096 = 0 ∧ (addr + al).toNat % 4096 = 0) :
    Separated (Mmap.trimArea ctx idx addr al).areas top := by
  have hact := Area.covers_active hc
  have hs := h.sound idx hact
  obtain ⟨-, h1, h2⟩ := (Area.covers_iff hhi addr al).mp hc
  have hsum := noWrap_toNat hw
  have hsound := hs.startAligned
  have heound := hs.endAligned
  have hb64 := hs.below
  have htrim := trimArea_cases hhi hc
  generalize Mmap.trimArea ctx idx addr al = ctx' at htrim ⊢
  cases htrim with
  | whole hlo hhi' => exact h.drop rfl
  | head b hlo hhi' hb ho =>
    obtain ⟨-, ha⟩ := hcut (Or.inr hhi')
    obtain ⟨b1, -, -, -, b5, b6⟩ := hb
    exact h.shrink hact ⟨by omega, by omega, by omega, by omega⟩ (by omega) (by omega)
  | tail b hlo hhi' hb ho =>
    obtain ⟨ha, -⟩ := hcut (Or.inl hlo)
    obtain ⟨b1, -, -, -, b5, b6⟩ := hb
    exact h.shrink hact ⟨by omega, by omega, by omega, by omega⟩ (by omega) (by omega)
  | hole b hlo hhi' hfull hb ho =>
    obtain ⟨ha, -⟩ := hcut (Or.inl hlo)
    obtain ⟨b1, -, -, -, b5, b6⟩ := hb
    exact h.shrink hact ⟨by omega, by omega, by omega, by omega⟩ (by omega) (by omega)
  | split b t slot hlo hhi' hfree hb ho ht hto =>
    obtain ⟨ha, ha'⟩ := hcut (Or.inl hlo)
    obtain ⟨b1, -, -, -, b5, b6⟩ := hb
    obtain ⟨t1, -, -, -, t5, t6⟩ := ht
    have hslot := mmapAllocSlot_some hfree
    have hne : slot ≠ idx := by
      rintro rfl
      rw [hact] at hslot
      exact absurd hslot (by simp)
    have hcutSep := h.shrink (b := b) hact ⟨by omega, by omega, by omega, by omega⟩ (by omega)
      (by omega)
    dsimp only
    rw [Function.update_comm hne]
    refine hcutSep.update fun _ => ⟨⟨by omega, by omega, by omega, by omega⟩, fun k _ hk => ?_⟩
    by_cases hki : k = idx
    · subst hki
      rw [update_self]
      exact Or.inr (by omega)
    · rw [update_of_ne hki] at hk ⊢
      rcases h.disjoint idx k (Ne.symm hki) hact hk with hd | hd
      · exact Or.inl (by omega)
      · exact Or.inr (by omega)

/-- `area_count` follows the active slots. -/
theorem trimArea_count (hhi : (ctx.areas idx).hi < 2 ^ 64)
    (hc : (ctx.areas idx).covers addr al = true) (hn : ctx.areaCount = activeCount ctx.areas) :
    (trimArea ctx idx addr al).areaCount = activeCount (trimArea ctx idx addr al).areas := by
  have hact := Area.covers_active hc
  have htrim := trimArea_cases hhi hc
  generalize trimArea ctx idx addr al = ctx' at htrim ⊢
  cases htrim with
  | whole hlo hhi' =>
    have := activeCount_deactivate (a := Area.zero) hact rfl
    dsimp only
    omega
  | head b hlo hhi' hb ho =>
    dsimp only
    rw [activeCount_update_same (by rw [hb.active, hact]), hn]
  | tail b hlo hhi' hb ho =>
    dsimp only
    rw [activeCount_update_same (by rw [hb.active, hact]), hn]
  | hole b hlo hhi' hfull hb ho =>
    dsimp only
    rw [activeCount_update_same (by rw [hb.active, hact]), hn]
  | split b t slot hlo hhi' hfree hb ho ht hto =>
    have hslot := mmapAllocSlot_some hfree
    have hne : idx ≠ slot := by
      rintro rfl
      rw [hact] at hslot
      exact absurd hslot (by simp)
    dsimp only
    rw [activeCount_update_same (by rw [update_of_ne hne, hb.active, hact]),
      activeCount_activate hslot ht.active, hn]
    push_cast
    rfl

end Round

/-! ## The loop -/

section Loop

variable {ctx : Context} {idx : Slot} {addr al : UInt64}

/-- The pieces of a treated area no longer meet the overlap test, wrapped or not: an area that does
was there before and is another one. -/
theorem trimArea_covers (j : Slot)
    (hj : ((trimArea ctx idx addr al).areas j).covers addr al = true) :
    j ≠ idx ∧ (trimArea ctx idx addr al).areas j = ctx.areas j := by
  have hpiece : ∀ b : Area, b.end = addr ∨ b.start = addr + al → b.covers addr al = false := by
    intro b hb
    unfold Area.covers
    rcases hb with hb | hb <;> simp [hb]
  have key : ∀ f : Slot → Area, ∀ b : Area, (∀ k, (f k).covers addr al = true →
      f k = ctx.areas k) → b.covers addr al = false →
      (Function.update f idx b j).covers addr al = true →
      j ≠ idx ∧ Function.update f idx b j = ctx.areas j := by
    intro f b hf hb hu
    by_cases hji : j = idx
    · subst hji
      rw [update_self, hb] at hu
      exact absurd hu (by simp)
    · rw [update_of_ne hji] at hu ⊢
      exact ⟨hji, hf j hu⟩
  unfold trimArea at hj ⊢
  simp only at hj ⊢
  by_cases h1 : unmapStart (ctx.areas idx) addr = (ctx.areas idx).start
  · by_cases h2 : unmapEnd (ctx.areas idx) addr al = (ctx.areas idx).end
    · rw [if_pos ⟨h1, h2⟩] at hj ⊢
      exact key _ _ (fun k _ => rfl) rfl hj
    · rw [if_neg (fun h => h2 h.2), if_pos h1, unmapEnd_of_ne h2] at hj ⊢
      refine key _ _ (fun k _ => rfl) (hpiece _ (Or.inr ?_)) hj
      dsimp only
      grind
  · have hus := unmapStart_of_ne h1
    rw [if_neg (fun h => h1 h.1), if_neg h1] at hj ⊢
    by_cases h2 : unmapEnd (ctx.areas idx) addr al = (ctx.areas idx).end
    · rw [if_pos h2, h2, hus] at hj ⊢
      refine key _ _ (fun k _ => rfl) (hpiece _ (Or.inl ?_)) hj
      unfold Area.end
      dsimp only
      grind
    · rw [if_neg h2, hus, unmapEnd_of_ne h2] at hj ⊢
      have hcut : ({ ctx.areas idx with length := addr - (ctx.areas idx).start } : Area).end =
          addr := by
        unfold Area.end
        dsimp only
        grind
      cases hslot : mmapAllocSlot ctx with
      | none =>
        rw [hslot] at hj
        exact key _ _ (fun k _ => rfl) (hpiece _ (Or.inl hcut)) hj
      | some slot =>
        rw [hslot] at hj
        refine key _ _ (fun k h => ?_) (hpiece _ (Or.inl hcut)) hj
        by_cases hks : k = slot
        · subst hks
          rw [update_self, hpiece _ (Or.inr rfl)] at h
          exact absurd h (by simp)
        · rw [update_of_ne hks]

/-- The number of slots that meet the overlap test. -/
def coverCount (ctx : Context) (addr al : UInt64) : ℕ :=
  (Finset.univ.filter fun i => (ctx.areas i).covers addr al = true).card

theorem coverCount_trimArea (hc : (ctx.areas idx).covers addr al = true) :
    coverCount (trimArea ctx idx addr al) addr al < coverCount ctx addr al := by
  refine Finset.card_lt_card (Finset.ssubset_iff_subset_ne.mpr ⟨fun j hj => ?_, fun h => ?_⟩)
  · simp only [Finset.mem_filter, Finset.mem_univ, true_and] at hj ⊢
    rw [← (trimArea_covers j hj).2]
    exact hj
  · have hm : idx ∈ Finset.univ.filter fun i =>
        ((trimArea ctx idx addr al).areas i).covers addr al = true := by
      rw [h]
      simpa using hc
    simp only [Finset.mem_filter, Finset.mem_univ, true_and] at hm
    exact (trimArea_covers idx hm).1 rfl

variable {ε : Type} {S : Services ε}

theorem mmapFindCoveringArea_some (h : mmapFindCoveringArea ctx addr al = some idx) :
    (ctx.areas idx).covers addr al = true := firstSlot_some h

/-- A property kept by every round holds after the loop. -/
theorem munmapLoop_invariant (addr al : UInt64) {P : Context × ε → Prop}
    (hstep : ∀ ctx e idx, P (ctx, e) → mmapFindCoveringArea ctx addr al = some idx →
      P (trimArea ctx idx addr al, releaseRange S e (ctx.areas idx)
        (unmapStart (ctx.areas idx) addr) (unmapEnd (ctx.areas idx) addr al)))
    (fuel : ℕ) : ∀ x : Context × ε, P x → P (munmapLoop S addr al fuel x) := by
  induction fuel with
  | zero => exact fun x h => h
  | succ fuel ih =>
    rintro ⟨ctx, e⟩ h
    unfold munmapLoop
    cases hf : mmapFindCoveringArea ctx addr al with
    | none => exact h
    | some idx => exact ih _ (hstep ctx e idx h hf)

theorem munmapLoop_exhausts (fuel : ℕ) : ∀ x : Context × ε, coverCount x.1 addr al < fuel →
    mmapFindCoveringArea (munmapLoop S addr al fuel x).1 addr al = none := by
  induction fuel with
  | zero => exact fun x h => absurd h (by omega)
  | succ fuel ih =>
    rintro ⟨ctx, e⟩ h
    unfold munmapLoop
    cases hf : mmapFindCoveringArea ctx addr al with
    | none => exact hf
    | some idx =>
      have := coverCount_trimArea (mmapFindCoveringArea_some hf)
      exact ih _ (by dsimp only at h ⊢; omega)

/-- 257 rounds are enough for every context: the loop has no area left to treat. -/
theorem munmapLoop_done (addr al : UInt64) (x : Context × ε) (i : Slot) :
    ((munmapLoop S addr al 257 x).1.areas i).covers addr al = false := by
  have hle : coverCount x.1 addr al < 257 := by
    have h := Finset.card_filter_le (Finset.univ : Finset Slot)
      fun i => (x.1.areas i).covers addr al = true
    rw [Finset.card_univ, Fintype.card_fin] at h
    unfold coverCount
    omega
  exact firstSlot_none (munmapLoop_exhausts 257 x hle) i

end Loop

end Mmap
