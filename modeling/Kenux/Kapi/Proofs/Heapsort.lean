import Kenux.Kapi.Sort

/-!
# Heapsort

While an element is sifted down, the heap has a hole where it stands; the parent of the hole does not go before its
children. Both sorts have one result, up to elements that compare as equal.
-/

namespace KapiSort

open Memory Rearrange

variable {num size : ℕ} {cmp : List UInt8 → List UInt8 → ℤ} {m m' : Mem} {i j k n r root c fuel : ℕ}

def Child (k c : ℕ) : Prop := c = 2 * k + 1 ∨ c = 2 * k + 2

/-- Among the first `n` elements, no child of an element from `r` on goes behind it. -/
def HeapFrom (size : ℕ) (cmp : List UInt8 → List UInt8 → ℤ) (r n : ℕ) (m : Mem) : Prop :=
  ∀ k c, r ≤ k → Child k c → c < n → Le cmp (element size m c) (element size m k)

/-- A heap but for the element in the hole. -/
structure HeapExcept (size : ℕ) (cmp : List UInt8 → List UInt8 → ℤ) (r n hole : ℕ) (m : Mem) : Prop where
  other : ∀ k c, r ≤ k → k ≠ hole → Child k c → c < n → Le cmp (element size m c) (element size m k)
  across : ∀ k c, r ≤ k → Child k hole → Child hole c → c < n → Le cmp (element size m c) (element size m k)

/-- The child that is chosen does not go before the other one. -/
theorem child_spec (hcmp : Preorder size cmp) (m : Mem) (hn : n ≤ num) (hchild : 2 * root + 1 < n) :
    ∃ c, (if 2 * root + 1 + 1 < n then
        (cmpAt num size cmp m (2 * root + 1 + 1) (2 * root + 1)).map fun c =>
          if c > 0 then 2 * root + 1 + 1 else 2 * root + 1
      else some (2 * root + 1)) = some c ∧ Child root c ∧ c < n ∧
      ∀ c', Child root c' → c' < n → Le cmp (element size m c') (element size m c) := by
  by_cases htwo : 2 * root + 1 + 1 < n
  · rw [if_pos htwo, cmpAt_of_lt (by omega) (by omega), Option.map_some]
    by_cases hc : cmp (element size m (2 * root + 1 + 1)) (element size m (2 * root + 1)) > 0
    · refine ⟨2 * root + 2, by rw [if_pos hc], .inr rfl, htwo, fun c' hc' hlt => ?_⟩
      rcases hc' with rfl | rfl
      · exact (hcmp.le_total m m _ _).resolve_right (not_le.mpr hc)
      · exact hcmp.le_refl m _
    · refine ⟨2 * root + 1, by rw [if_neg hc], .inl rfl, hchild, fun c' hc' hlt => ?_⟩
      rcases hc' with rfl | rfl
      · exact hcmp.le_refl m _
      · exact not_lt.mp hc
  · refine ⟨2 * root + 1, if_neg htwo, .inl rfl, hchild, fun c' hc' hlt => ?_⟩
    rcases hc' with rfl | rfl
    · exact hcmp.le_refl m _
    · exact absurd hlt htwo

/-- The hole goes to the child that is put in its place. -/
theorem HeapExcept.down (h : HeapExcept size cmp r n root m) (hr : r ≤ root)
    (hchild : Child root c) (hc : c < n) (hbest : ∀ c', Child root c' → c' < n →
      Le cmp (element size m c') (element size m c)) (hle : Le cmp (element size m root) (element size m c))
    (helement : ∀ k, element size m' k = element size m (Equiv.swap root c k)) : HeapExcept size cmp r n c m' := by
  unfold Child at hchild
  have hroot : element size m' root = element size m c := by rw [helement, Equiv.swap_apply_left]
  have hhole : element size m' c = element size m root := by rw [helement, Equiv.swap_apply_right]
  have hother : ∀ x, x ≠ root → x ≠ c → element size m' x = element size m x := by
    intro x hx hxc
    rw [helement, Equiv.swap_apply_of_ne_of_ne hx hxc]
  constructor
  · intro k c' hk hkc hc' hlt
    unfold Child at hc'
    by_cases hkr : k = root
    · rw [hkr, hroot]
      by_cases hcc : c' = c
      · rw [hcc, hhole]
        exact hle
      · rw [hother c' (by omega) hcc]
        exact hbest c' (by unfold Child; omega) hlt
    · rw [hother k hkr hkc]
      by_cases hcr : c' = root
      · rw [hcr, hroot]
        exact h.across k c hk (by unfold Child; omega) hchild hc
      · rw [hother c' hcr (by omega)]
        exact h.other k c' hk hkr hc' hlt
  · intro k c' hk hkc hc' hlt
    unfold Child at hkc hc'
    obtain rfl : k = root := by omega
    rw [hroot, hother c' (by omega) (by omega)]
    exact h.other c c' (by omega) (by omega) hc' hlt

theorem siftDown_spec (hcmp : Preorder size cmp) (hn : n ≤ num) (m : Mem) (root : ℕ) (hr : r ≤ root)
    (hfuel : n ≤ root + fuel) (hpos : 0 < fuel) (h : HeapExcept size cmp r n root m) :
    ∃ m', siftDown num size cmp n fuel root m = some m' ∧ Moves num size root n m m' ∧ HeapFrom size cmp r n m' := by
  induction fuel generalizing m root with
  | zero => exact absurd hpos (Nat.lt_irrefl 0)
  | succ fuel ih =>
    unfold siftDown
    dsimp only
    by_cases hchild : 2 * root + 1 ≥ n
    · rw [if_pos hchild]
      refine ⟨m, rfl, .refl m, fun k c hk hc hlt => ?_⟩
      refine h.other k c hk ?_ hc hlt
      rintro rfl
      unfold Child at hc
      omega
    obtain ⟨c, hchosen, hc, hlt, hbest⟩ := child_spec hcmp m hn (Nat.not_le.mp hchild)
    have hrc : root < c := by
      unfold Child at hc
      omega
    rw [if_neg hchild, hchosen, Option.bind_eq_bind, Option.bind_some, cmpAt_of_lt (by omega) (by omega),
      Option.bind_eq_bind, Option.bind_some]
    by_cases hle : cmp (element size m c) (element size m root) ≤ 0
    · rw [if_pos hle]
      refine ⟨m, rfl, .refl m, fun k c' hk hc' hlt' => ?_⟩
      by_cases hkr : k = root
      · rw [hkr] at hc' ⊢
        exact hcmp.le_trans (length_element m c') (length_element m c) (length_element m root) (hbest c' hc' hlt') hle
      · exact h.other k c' hk hkr hc' hlt'
    · obtain ⟨m₁, hswap, hmoves, helement⟩ := swapAt_spec size m (show root ≠ c by omega)
        (show root ≤ root ∧ root < n by omega) (by omega) hn
      have hle' : Le cmp (element size m root) (element size m c) := (hcmp.le_total m m root c).resolve_right hle
      obtain ⟨m₂, hrun, hmoves', hheap⟩ := ih m₁ c (by omega) (by omega) (by omega)
        (h.down hr hc hlt hbest hle' helement)
      rw [if_neg hle, hswap, Option.bind_eq_bind, Option.bind_some]
      exact ⟨m₂, hrun, hmoves.trans (hmoves'.mono (by omega) (Nat.le_refl n)), hheap⟩

/-! ## The two loops -/

/-- The first loop makes a heap. -/
theorem heapLoop_spec (hcmp : Preorder size cmp) (i : ℕ) (m : Mem) (hi : i ≤ num) (h : HeapFrom size cmp i num m) :
    ∃ m', heapLoop num size cmp i m = some m' ∧ Moves num size 0 num m m' ∧ HeapFrom size cmp 0 num m' := by
  induction i generalizing m with
  | zero => exact ⟨m, rfl, .refl m, h⟩
  | succ i ih =>
    have hexcept : HeapExcept size cmp i num i m := by
      constructor
      · intro k c hk hne hc hlt
        exact h k c (by omega) hc hlt
      · intro k c hk hki _ _
        unfold Child at hki
        omega
    obtain ⟨m₁, hsift, hmoves, hheap⟩ := siftDown_spec hcmp (Nat.le_refl num) m i (Nat.le_refl i)
      (show num ≤ i + num by omega) (by omega) hexcept
    obtain ⟨m₂, hrun, hmoves', hheap'⟩ := ih m₁ (by omega) hheap
    unfold heapLoop
    rw [hsift, Option.bind_eq_bind, Option.bind_some]
    exact ⟨m₂, hrun, (hmoves.mono (Nat.zero_le i) (Nat.le_refl num)).trans hmoves', hheap'⟩

/-- The first element of a heap goes before none. -/
theorem HeapFrom.le_first (hcmp : Preorder size cmp) (h : HeapFrom size cmp 0 n m) (hk : k < n) :
    Le cmp (element size m k) (element size m 0) := by
  induction k using Nat.strong_induction_on with
  | _ k ih =>
    rcases Nat.eq_zero_or_pos k with rfl | hpos
    · exact hcmp.le_refl m 0
    · have hparent : Child ((k - 1) / 2) k := by
        unfold Child
        omega
      exact hcmp.le_trans (length_element m k) (length_element m _) (length_element m 0)
        (h ((k - 1) / 2) k (Nat.zero_le _) hparent hk) (ih ((k - 1) / 2) (by omega) (by omega))

/-- What the second loop keeps: a heap, and behind it what is sorted and goes before nothing in the heap. -/
structure Taken (num size : ℕ) (cmp : List UInt8 → List UInt8 → ℤ) (n : ℕ) (m : Mem) : Prop where
  heap : HeapFrom size cmp 0 n m
  sorted : SortedIn (Le cmp) n num (element size m)
  behind : ∀ x y, x < n → n ≤ y → y < num → Le cmp (element size m x) (element size m y)

theorem takeLoop_spec (hcmp : Preorder size cmp) (i : ℕ) (m : Mem) (hi : i < num)
    (h : Taken num size cmp (i + 1) m) : ∃ m', takeLoop num size cmp i m = some m' ∧ Moves num size 0 num m m' ∧
      SortedIn (Le cmp) 0 num (element size m') := by
  induction i generalizing m with
  | zero =>
    refine ⟨m, rfl, .refl m, fun x y _ hxy hy => ?_⟩
    rcases Nat.eq_or_lt_of_le hxy with rfl | hlt
    · exact hcmp.le_refl m x
    · by_cases hx : x < 1
      · exact h.behind x y hx (by omega) hy
      · exact h.sorted x y (by omega) hxy hy
  | succ i ih =>
    obtain ⟨m₁, hswap, hmoves₁, helement⟩ := swapAt_spec size m (show 0 ≠ i + 1 by omega)
      (show 0 ≤ 0 ∧ 0 < i + 2 by omega) (by omega) (show i + 2 ≤ num by omega)
    have hother : ∀ x, x ≠ 0 → x ≠ i + 1 → element size m₁ x = element size m x := by
      intro x hx hxi
      rw [helement, Equiv.swap_apply_of_ne_of_ne hx hxi]
    have hexcept : HeapExcept size cmp 0 (i + 1) 0 m₁ := by
      constructor
      · intro k c hk hne hc hlt
        have hkc : k < c := by
          unfold Child at hc
          omega
        rw [hother k hne (by omega), hother c (by omega) (by omega)]
        exact h.heap k c hk hc (by omega)
      · intro k c hk hk0 _ _
        unfold Child at hk0
        omega
    obtain ⟨m₂, hsift, hmoves₂, hheap⟩ := siftDown_spec hcmp (show i + 1 ≤ num by omega) m₁ 0 (Nat.le_refl 0)
      (show i + 1 ≤ 0 + num by omega) (by omega) hexcept
    have hlast : element size m₂ (i + 1) = element size m 0 := by
      rw [hmoves₂.1.outside (by omega), helement, Equiv.swap_apply_right]
    have hbehind : ∀ y, i + 2 ≤ y → element size m₂ y = element size m y := by
      intro y hy
      rw [hmoves₂.1.outside (by omega), hother y (by omega) (by omega)]
    -- what is left in the heap was in it before
    have hinside : ∀ p : List UInt8 → Prop, (∀ x, x < i + 2 → p (element size m x)) →
        ∀ x, x < i + 1 → p (element size m₂ x) := by
      intro p hp x hx
      have hp₁ := hmoves₁.1.forall_inside p fun x _ hx => hp x hx
      exact hmoves₂.1.forall_inside p (fun x hx hlt => hp₁ x hx (by omega)) x (Nat.zero_le x) hx
    have htaken : Taken num size cmp (i + 1) m₂ := by
      refine ⟨hheap, fun x y hx hxy hy => ?_, fun x y hx hy hyn => ?_⟩
      · rcases Nat.eq_or_lt_of_le hxy with rfl | hlt
        · exact hcmp.le_refl m₂ x
        · rw [hbehind y (by omega)]
          rcases Nat.eq_or_lt_of_le hx with rfl | hx'
          · rw [hlast]
            exact h.behind 0 y (by omega) (by omega) hy
          · rw [hbehind x hx']
            exact h.sorted x y hx' hxy hy
      · rcases Nat.eq_or_lt_of_le hy with rfl | hy'
        · rw [hlast]
          exact hinside (fun v => Le cmp v (element size m 0)) (fun x hx => h.heap.le_first hcmp hx) x hx
        · rw [hbehind y hy']
          exact hinside (fun v => Le cmp v (element size m y)) (fun x hx => h.behind x y hx hy' hyn) x hx
    obtain ⟨m₃, hrun, hmoves₃, hsorted⟩ := ih m₂ (by omega) htaken
    unfold takeLoop
    rw [hswap, Option.bind_eq_bind, Option.bind_some, hsift, Option.bind_some]
    exact ⟨m₃, hrun, ((hmoves₁.mono (Nat.le_refl 0) (by omega)).trans (hmoves₂.mono (Nat.le_refl 0) (by omega))).trans
      hmoves₃, hsorted⟩

theorem kapiHeapsort_spec (hcmp : Preorder size cmp) (num : ℕ) (m : Mem) : ∃ m', kapiHeapsort num size cmp m = some m' ∧
    Moves num size 0 num m m' ∧ SortedIn (Le cmp) 0 num (element size m') := by
  unfold kapiHeapsort
  by_cases hnum : num < 2
  · rw [if_pos hnum]
    exact ⟨m, rfl, .refl m, hcmp.sortedIn_one m (by omega)⟩
  · have hleaves : HeapFrom size cmp (num / 2) num m := by
      intro k c hk hc hlt
      unfold Child at hc
      omega
    obtain ⟨m₁, hloop, hmoves, hheap⟩ := heapLoop_spec hcmp (num / 2) m (by omega) hleaves
    have htaken : Taken num size cmp (num - 1 + 1) m₁ := by
      rw [Nat.sub_add_cancel (by omega)]
      exact ⟨hheap, fun x y hx _ hy => by omega, fun x y _ hy hyn => by omega⟩
    obtain ⟨m₂, hrun, hmoves', hsorted⟩ := takeLoop_spec hcmp (num - 1) m₁ (by omega) htaken
    rw [if_neg hnum, hloop, Option.bind_eq_bind, Option.bind_some]
    exact ⟨m₂, hrun, hmoves.trans hmoves', hsorted⟩

/-- What a sort has done: the elements are a permutation that does not go down, and nothing else has changed. -/
structure Sorts (num size : ℕ) (cmp : List UInt8 → List UInt8 → ℤ) (m m' : Mem) : Prop where
  perm : ((List.range num).map (element size m')).Perm ((List.range num).map (element size m))
  sorted : ∀ i j, i ≤ j → j < num → cmp (element size m' i) (element size m' j) ≤ 0
  outside : ∀ x, num * size ≤ x → m' x = m x

/-- Both sorts end, stay in the array and sort it, and have the same result up to elements that compare as equal. -/
theorem sorts_agree (num size : ℕ) (cmp : List UInt8 → List UInt8 → ℤ) (hcmp : Preorder size cmp) (m : Mem) :
    ∃ mq mh, kapiQsort num size cmp m = some mq ∧ kapiHeapsort num size cmp m = some mh ∧
      Sorts num size cmp m mq ∧ Sorts num size cmp m mh ∧
      ∀ k < num, cmp (element size mq k) (element size mh k) ≤ 0 ∧ cmp (element size mh k) (element size mq k) ≤ 0 := by
  obtain ⟨mq, hq, hqmoves, hqsorted⟩ := kapiQsort_spec hcmp num m
  obtain ⟨mh, hh, hhmoves, hhsorted⟩ := kapiHeapsort_spec hcmp num m
  refine ⟨mq, mh, hq, hh, ⟨hqmoves.1.perm, fun i j => hqsorted i j (Nat.zero_le i), hqmoves.2⟩,
    ⟨hhmoves.1.perm, fun i j => hhsorted i j (Nat.zero_le i), hhmoves.2⟩, fun k hk => ?_⟩
  let Goes : List UInt8 → List UInt8 → Prop := fun x y => x.length = size ∧ y.length = size ∧ Le cmp x y
  have htrans : ∀ x y z, Goes x y → Goes y z → Goes x z :=
    fun x y z hxy hyz => ⟨hxy.1, hyz.2.1, hcmp.le_trans hxy.1 hxy.2.1 hyz.2.1 hxy.2.2 hyz.2.2⟩
  have hgoes : ∀ m', SortedIn (Le cmp) 0 num (element size m') → SortedIn Goes 0 num (element size m') :=
    fun m' h i j hi hij hj => ⟨length_element m' i, length_element m' j, h i j hi hij hj⟩
  exact ⟨(SortedIn.unique htrans hqmoves.1 hhmoves.1 (hgoes mq hqsorted) (hgoes mh hhsorted) hk).2.2,
    (SortedIn.unique htrans hhmoves.1 hqmoves.1 (hgoes mh hhsorted) (hgoes mq hqsorted) hk).2.2⟩

/-- Compares by the first byte. -/
def byteCmp (x y : List UInt8) : ℤ := (x.headD 0).toNat - (y.headD 0).toNat

theorem byteCmp_preorder : Preorder 1 byteCmp := by
  unfold byteCmp
  constructor
  · intro x y _ _
    omega
  · intro x y z _ _ _ hxy hyz
    omega

theorem sorts_agree_bytes : ∃ mq mh, kapiQsort 3 1 byteCmp (fun i => UInt8.ofNat (7 - i)) = some mq ∧
    kapiHeapsort 3 1 byteCmp (fun i => UInt8.ofNat (7 - i)) = some mh ∧
    ∀ k < 3, byteCmp (element 1 mq k) (element 1 mh k) ≤ 0 := by
  obtain ⟨mq, mh, hq, hh, -, -, hsame⟩ := sorts_agree 3 1 byteCmp byteCmp_preorder fun i => UInt8.ofNat (7 - i)
  exact ⟨mq, mh, hq, hh, fun k hk => (hsame k hk).1⟩

end KapiSort
