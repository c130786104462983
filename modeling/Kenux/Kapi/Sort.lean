import Kenux.Lib.Memory
import Kenux.Lib.Rearrange

/-!
# Sorting (`api/kapi_sort.c`)

The array starts at 0 in its memory. `none` is an access to an element that is none of the array, or a loop that has
not ended after as many rounds as there are elements.
-/

namespace KapiSort

open Memory Rearrange

section

variable (num size : ℕ) (cmp : List UInt8 → List UInt8 → ℤ)

/-- `kapi_swap`, of the elements at `a` and `b`. -/
def kapiSwap (m : Mem) (a b size : ℕ) : Mem :=
  if size > 0 then
    let chunk := if size > 256 then 256 else size
    let tmp := copy (fun _ => 0) 0 m a chunk
    let m := copy m a m b chunk
    let m := copy m b tmp 0 chunk
    kapiSwap m (a + chunk) (b + chunk) (size - chunk)
  else m
termination_by size
decreasing_by split_ifs <;> omega

/-- The bytes of an element. -/
def element (m : Mem) (i : ℕ) : List UInt8 := (List.range size).map fun k => m (i * size + k)

/-- A call of `cmp`. -/
def cmpAt (m : Mem) (i j : ℕ) : Option ℤ :=
  if i < num ∧ j < num then some (cmp (element size m i) (element size m j)) else none

def swapAt (m : Mem) (i j : ℕ) : Option Mem :=
  if i < num ∧ j < num then some (kapiSwap m (i * size) (j * size) size) else none

/-- `kapi_sift_down`, for a heap of `n` elements. -/
def siftDown (n : ℕ) : ℕ → ℕ → Mem → Option Mem
  | 0, _, _ => none
  | fuel + 1, root, m =>
    let child := 2 * root + 1
    if child ≥ n then some m
    else do
      let child ← (if child + 1 < n then
          (cmpAt num size cmp m (child + 1) child).map fun c => if c > 0 then child + 1 else child
        else some child)
      let c ← cmpAt num size cmp m child root
      if c ≤ 0 then some m
      else do
        let m ← swapAt num size m root child
        siftDown n fuel child m

/-- The first loop of `kapi_heapsort`. -/
def heapLoop : ℕ → Mem → Option Mem
  | 0, m => some m
  | i + 1, m => do
    let m ← siftDown num size cmp num num i m
    heapLoop i m

/-- The second loop of `kapi_heapsort`. -/
def takeLoop : ℕ → Mem → Option Mem
  | 0, m => some m
  | i + 1, m => do
    let m ← swapAt num size m 0 (i + 1)
    let m ← siftDown num size cmp (i + 1) num 0 m
    takeLoop i m

def kapiHeapsort (m : Mem) : Option Mem :=
  if num < 2 then some m
  else do
    let m ← heapLoop num size cmp (num / 2) m
    takeLoop num size cmp (num - 1) m

/-- The loop that moves `i` up; `k` indices are left up to `high`. -/
def scanUp (m : Mem) (pivot : ℕ) : ℕ → ℕ → Option ℕ
  | 0, i => some i
  | k + 1, i => do
    let c ← cmpAt num size cmp m i pivot
    if c ≤ 0 then scanUp m pivot k (i + 1) else some i

/-- The loop that moves `j` down; `k` indices are left down to `low`. -/
def scanDown (m : Mem) (pivot : ℕ) : ℕ → ℕ → Option ℕ
  | 0, j => some j
  | k + 1, j => do
    let c ← cmpAt num size cmp m j pivot
    if c > 0 then scanDown m pivot k (j - 1) else some j

/-- The loop of `kapi_qsort_internal`. -/
def partitionLoop (low high : ℕ) : ℕ → ℕ → ℕ → Mem → Option (ℕ × Mem)
  | 0, _, _, _ => none
  | fuel + 1, i, j, m =>
    if i ≤ j then do
      let i ← scanUp num size cmp m low (high + 1 - i) i
      let j ← scanDown num size cmp m low (j - low) j
      if i < j then do
        let m ← swapAt num size m i j
        partitionLoop low high fuel i j m
      else partitionLoop low high fuel i j m
    else some (j, m)

def kapiQsortInternal : ℕ → ℕ → ℕ → Mem → Option Mem
  | 0, _, _, _ => none
  | fuel + 1, low, high, m =>
    if low ≥ high then some m
    else do
      let (j, m) ← partitionLoop num size cmp low high (num + 1) (low + 1) high m
      let m ← (if j > low then swapAt num size m low j else some m)
      let m ← (if j > 0 then kapiQsortInternal fuel low (j - 1) m else some m)
      kapiQsortInternal fuel (j + 1) high m

def kapiQsort (m : Mem) : Option Mem :=
  if num < 2 then some m else kapiQsortInternal num size cmp num 0 (num - 1) m

end

/-! ## Elements -/

variable {num size : ℕ} {m m' : Mem} {a b i j k lo hi lo' hi' : ℕ}

/-- A chunk of each piece goes to the other one. -/
theorem swapChunk_byte {chunk : ℕ} (h : a + chunk ≤ b ∨ b + chunk ≤ a) (x : ℕ) :
    copy (copy m a m b chunk) b (copy (fun _ => 0) 0 m a chunk) 0 chunk x =
      if a ≤ x ∧ x < a + chunk then m (b + (x - a))
      else if b ≤ x ∧ x < b + chunk then m (a + (x - b))
      else m x := by
  by_cases hb : b ≤ x ∧ x < b + chunk
  · obtain ⟨y, rfl⟩ := Nat.exists_eq_add_of_le hb.1
    have htmp : copy (fun _ => 0) 0 m a chunk (0 + y) = m (a + y) := copy_get (by omega)
    rw [copy_get (by omega), htmp, if_neg (by omega), if_pos hb, Nat.add_sub_cancel_left]
  · rw [copy_other (by omega), if_neg hb]
    split_ifs with ha
    · obtain ⟨y, rfl⟩ := Nat.exists_eq_add_of_le ha.1
      rw [copy_get (by omega), Nat.add_sub_cancel_left]
    · exact copy_other (by omega)

/-- Two pieces that do not overlap change their places. -/
theorem kapiSwap_byte (h : a + size ≤ b ∨ b + size ≤ a) (x : ℕ) : kapiSwap m a b size x =
    if a ≤ x ∧ x < a + size then m (b + (x - a))
    else if b ≤ x ∧ x < b + size then m (a + (x - b))
    else m x := by
  induction size using Nat.strong_induction_on generalizing m a b with
  | _ size ih =>
    unfold kapiSwap
    by_cases hpos : size > 0
    swap
    · rw [if_neg hpos, if_neg (by omega), if_neg (by omega)]
    rw [if_pos hpos]
    have hchunk : 0 < (if size > 256 then 256 else size) ∧ (if size > 256 then 256 else size) ≤ size := by
      split_ifs <;> omega
    generalize (if size > 256 then 256 else size) = chunk at hchunk
    obtain ⟨hpos', hle⟩ := hchunk
    rw [ih (size - chunk) (by omega) (by omega)]
    simp only [swapChunk_byte (m := m) (show a + chunk ≤ b ∨ b + chunk ≤ a by omega)]
    by_cases ha : a ≤ x ∧ x < a + size
    · rw [if_pos ha]
      by_cases hfirst : x < a + chunk
      · rw [if_neg (by omega), if_neg (by omega), if_pos (by omega)]
      · rw [if_pos (by omega), if_neg (by omega), if_neg (by omega)]
        congr 1
        omega
    · rw [if_neg ha, if_neg (by omega)]
      by_cases hb : b ≤ x ∧ x < b + size
      · rw [if_pos hb]
        by_cases hfirst : x < b + chunk
        · rw [if_neg (by omega), if_neg (by omega), if_pos (by omega)]
        · rw [if_pos (by omega), if_neg (by omega), if_neg (by omega)]
          congr 1
          omega
      · rw [if_neg (by omega), if_neg hb, if_neg (by omega), if_neg (by omega)]

/-- What a call changes: elements change their places, and nothing else. -/
def Moves (num size lo hi : ℕ) (m m' : Mem) : Prop :=
  Rearranged lo hi (element size m) (element size m') ∧ ∀ x, num * size ≤ x → m' x = m x

theorem Moves.refl (m : Mem) : Moves num size lo hi m m := ⟨.refl _, fun _ _ => rfl⟩

theorem Moves.trans {m'' : Mem} (h : Moves num size lo hi m m') (h' : Moves num size lo hi m' m'') :
    Moves num size lo hi m m'' := ⟨h.1.trans h'.1, fun x hx => (h'.2 x hx).trans (h.2 x hx)⟩

theorem Moves.mono (h : Moves num size lo hi m m') (hlo : lo' ≤ lo) (hhi : hi ≤ hi') :
    Moves num size lo' hi' m m' := ⟨h.1.mono hlo hhi, h.2⟩

theorem element_kapiSwap (hne : i ≠ j) (k : ℕ) :
    element size (kapiSwap m (i * size) (j * size) size) k = element size m (Equiv.swap i j k) := by
  have hstep : ∀ {a b : ℕ}, a < b → a * size + size ≤ b * size := by
    intro a b hab
    calc a * size + size = (a + 1) * size := (Nat.succ_mul a size).symm
      _ ≤ b * size := Nat.mul_le_mul_right size hab
  have hapart : i * size + size ≤ j * size ∨ j * size + size ≤ i * size := by
    rcases Nat.lt_or_gt_of_ne hne with hlt | hlt
    · exact .inl (hstep hlt)
    · exact .inr (hstep hlt)
  unfold element
  apply List.map_congr_left
  intro x hx
  rw [List.mem_range] at hx
  rw [kapiSwap_byte hapart]
  by_cases hki : k = i
  · rw [hki, Equiv.swap_apply_left, if_pos (by omega)]
    congr 1
    omega
  · by_cases hkj : k = j
    · rw [hkj, Equiv.swap_apply_right, if_neg (by omega), if_pos (by omega)]
      congr 1
      omega
    · have hi : k * size + size ≤ i * size ∨ i * size + size ≤ k * size := by
        rcases Nat.lt_or_gt_of_ne hki with hlt | hlt
        · exact .inl (hstep hlt)
        · exact .inr (hstep hlt)
      have hj : k * size + size ≤ j * size ∨ j * size + size ≤ k * size := by
        rcases Nat.lt_or_gt_of_ne hkj with hlt | hlt
        · exact .inl (hstep hlt)
        · exact .inr (hstep hlt)
      rw [Equiv.swap_apply_of_ne_of_ne hki hkj, if_neg (by omega), if_neg (by omega)]

/-- Two elements of a part change their places. -/
theorem swapAt_spec (size : ℕ) (m : Mem) (hne : i ≠ j) (hi : lo ≤ i ∧ i < hi') (hj : lo ≤ j ∧ j < hi')
    (hnum : hi' ≤ num) : ∃ m', swapAt num size m i j = some m' ∧ Moves num size lo hi' m m' ∧
      ∀ k, element size m' k = element size m (Equiv.swap i j k) := by
  have hin : ∀ {a : ℕ}, a < hi' → a * size + size ≤ num * size := by
    intro a ha
    calc a * size + size = (a + 1) * size := (Nat.succ_mul a size).symm
      _ ≤ num * size := Nat.mul_le_mul_right size (by omega)
  refine ⟨kapiSwap m (i * size) (j * size) size, if_pos (by omega), ⟨?_, ?_⟩, element_kapiSwap hne⟩
  · exact Rearranged.swap hi hj (element_kapiSwap hne)
  · intro x hx
    have hi := hin hi.2
    have hj := hin hj.2
    have hapart : i * size + size ≤ j * size ∨ j * size + size ≤ i * size := by
      rcases Nat.lt_or_gt_of_ne hne with hlt | hlt
      · exact .inl ((Nat.succ_mul i size).symm.le.trans (Nat.mul_le_mul_right size hlt))
      · exact .inr ((Nat.succ_mul j size).symm.le.trans (Nat.mul_le_mul_right size hlt))
    rw [kapiSwap_byte hapart, if_neg (by omega), if_neg (by omega)]

end KapiSort

/-!
## Quicksort

The partition keeps the pivot at the low end: what is below `i` does not go behind it, what is above `j` does. The two
indices meet with `j` at the last element that does not.
-/

namespace KapiSort

open Memory Rearrange

variable {num size : ℕ} {cmp : List UInt8 → List UInt8 → ℤ} {m m' : Mem} {a b i j k n lo hi low high : ℕ}

/-- The function compares by a total preorder on the contents of elements. -/
structure Preorder (size : ℕ) (cmp : List UInt8 → List UInt8 → ℤ) : Prop where
  total : ∀ x y, x.length = size → y.length = size → cmp x y ≤ 0 ∨ cmp y x ≤ 0
  trans : ∀ x y z, x.length = size → y.length = size → z.length = size → cmp x y ≤ 0 → cmp y z ≤ 0 → cmp x z ≤ 0

theorem length_element (m : Mem) (i : ℕ) : (element size m i).length = size := by
  unfold element
  rw [List.length_map, List.length_range]

/-- An element does not go behind another one. -/
def Le (cmp : List UInt8 → List UInt8 → ℤ) (x y : List UInt8) : Prop := cmp x y ≤ 0

theorem Preorder.le_total (h : Preorder size cmp) (m m' : Mem) (i j : ℕ) :
    Le cmp (element size m i) (element size m' j) ∨ Le cmp (element size m' j) (element size m i) :=
  h.total _ _ (length_element m i) (length_element m' j)

theorem Preorder.le_refl (h : Preorder size cmp) (m : Mem) (i : ℕ) : Le cmp (element size m i) (element size m i) :=
  (or_self_iff).mp (h.le_total m m i i)

theorem Preorder.le_trans (h : Preorder size cmp) {x y z : List UInt8} (hx : x.length = size) (hy : y.length = size)
    (hz : z.length = size) (hxy : Le cmp x y) (hyz : Le cmp y z) : Le cmp x z := h.trans x y z hx hy hz hxy hyz

theorem cmpAt_of_lt (hi : i < num) (hj : j < num) :
    cmpAt num size cmp m i j = some (cmp (element size m i) (element size m j)) := if_pos ⟨hi, hj⟩

/-! ## The partition -/

variable {low high : ℕ}

/-- The elements before `i` do not go behind the pivot. -/
theorem scanUp_spec (size : ℕ) (cmp : List UInt8 → List UInt8 → ℤ) (m : Mem) (hhigh : high < num) (hlow : low < num)
    (i : ℕ) (hk : i + k = high + 1) :
    ∃ i', scanUp num size cmp m low k i = some i' ∧ i ≤ i' ∧ i' ≤ high + 1 ∧
      (∀ x, i ≤ x → x < i' → Le cmp (element size m x) (element size m low)) ∧
      (i' ≤ high → ¬Le cmp (element size m i') (element size m low)) := by
  induction k generalizing i with
  | zero => exact ⟨i, rfl, Nat.le_refl i, by omega, fun x hx hlt => by omega, fun hle => by omega⟩
  | succ k ih =>
    unfold scanUp
    rw [cmpAt_of_lt (by omega) hlow, Option.bind_eq_bind, Option.bind_some]
    split_ifs with hc
    · obtain ⟨i', hrun, hle, hhi, hall, hstop⟩ := ih (i + 1) (by omega)
      refine ⟨i', hrun, by omega, hhi, fun x hx hlt => ?_, hstop⟩
      by_cases hxi : x = i
      · rw [hxi]
        exact hc
      · exact hall x (by omega) hlt
    · exact ⟨i, rfl, Nat.le_refl i, by omega, fun x hx hlt => by omega, fun _ => hc⟩

/-- The elements behind `j` go behind the pivot. -/
theorem scanDown_spec (size : ℕ) (cmp : List UInt8 → List UInt8 → ℤ) (m : Mem) (hlow : low < num) (j : ℕ) (hj : j < num)
    (hk : low + k = j) :
    ∃ j', scanDown num size cmp m low k j = some j' ∧ low ≤ j' ∧ j' ≤ j ∧
      (∀ x, j' < x → x ≤ j → ¬Le cmp (element size m x) (element size m low)) ∧
      (low < j' → Le cmp (element size m j') (element size m low)) := by
  induction k generalizing j with
  | zero => exact ⟨j, rfl, by omega, Nat.le_refl j, fun x hx hle => by omega, fun hlt => by omega⟩
  | succ k ih =>
    unfold scanDown
    rw [cmpAt_of_lt hj hlow, Option.bind_eq_bind, Option.bind_some]
    split_ifs with hc
    · obtain ⟨j', hrun, hlo, hle, hall, hstop⟩ := ih (j - 1) (by omega) (by omega)
      refine ⟨j', hrun, hlo, by omega, fun x hx hxj => ?_, hstop⟩
      by_cases heq : x = j
      · rw [heq]
        exact not_le.mpr hc
      · exact hall x hx (by omega)
    · exact ⟨j, rfl, by omega, Nat.le_refl j, fun x hx hle => by omega, fun _ => not_lt.mp hc⟩

/-- What the loop has come to. -/
structure Parted (size : ℕ) (cmp : List UInt8 → List UInt8 → ℤ) (low high i j : ℕ) (m : Mem) : Prop where
  below : ∀ x, low < x → x < i → Le cmp (element size m x) (element size m low)
  above : ∀ x, j < x → x ≤ high → ¬Le cmp (element size m x) (element size m low)

/-- One round: the indices pass each other, or two elements stand on the wrong sides. -/
theorem partition_round (hhigh : high < num) (hi : low < i) (hih : i ≤ high + 1) (hlj : low ≤ j) (hj : j ≤ high)
    (h : Parted size cmp low high i j m) :
    ∃ i' j', scanUp num size cmp m low (high + 1 - i) i = some i' ∧ scanDown num size cmp m low (j - low) j = some j' ∧
      i ≤ i' ∧ low ≤ j' ∧ j' ≤ j ∧ Parted size cmp low high i' j' m ∧
      (Le cmp (element size m i) (element size m low) → i ≤ j → i < i') ∧
      (i' = j' + 1 ∨ i' < j' ∧ Le cmp (element size m j') (element size m low)) := by
  have hlow : low < num := by omega
  obtain ⟨i', hup, hii', hi'h, hpassed, hstop⟩ := scanUp_spec size cmp m hhigh hlow i
    (show i + (high + 1 - i) = high + 1 by omega)
  obtain ⟨j', hdown, hlj', hj'j, hpassed', hstop'⟩ := scanDown_spec size cmp m hlow j (by omega)
    (show low + (j - low) = j by omega)
  have hparted : Parted size cmp low high i' j' m := by
    constructor
    · intro x hx hlt
      by_cases hxi : x < i
      · exact h.below x hx hxi
      · exact hpassed x (by omega) hlt
    · intro x hx hle
      by_cases hxj : x ≤ j
      · exact hpassed' x hx hxj
      · exact h.above x (by omega) hle
  refine ⟨i', j', hup, hdown, hii', hlj', hj'j, hparted, fun hle hij => ?_, ?_⟩
  · by_contra hnot
    obtain rfl : i' = i := by omega
    exact hstop (by omega) hle
  · rcases Nat.lt_trichotomy i' (j' + 1) with hlt | heq | hgt
    · right
      have hne : i' ≠ j' := by
        rintro rfl
        exact hstop (by omega) (hstop' (by omega))
      exact ⟨by omega, hstop' (by omega)⟩
    · exact .inl heq
    · exact absurd (hparted.below (j' + 1) (by omega) (by omega)) (hparted.above (j' + 1) (by omega) (by omega))

theorem partitionLoop_spec {fuel : ℕ} (hhigh : high < num) (hi : low < i) (hij : i ≤ j) (hj : j ≤ high)
    (hfuel : j + 3 ≤ fuel + i ∨ Le cmp (element size m i) (element size m low) ∧ j + 2 ≤ fuel + i)
    (h : Parted size cmp low high i j m) :
    ∃ j' m', partitionLoop num size cmp low high fuel i j m = some (j', m') ∧ low ≤ j' ∧ j' ≤ high ∧
      Moves num size (low + 1) (high + 1) m m' ∧ Parted size cmp low high (j' + 1) j' m' := by
  induction fuel generalizing i j m with
  | zero => omega
  | succ fuel ih =>
    obtain ⟨i', j', hup, hdown, hii', hlj', hj'j, hparted, hmoved, hend⟩ :=
      partition_round hhigh hi (by omega) (by omega) hj h
    unfold partitionLoop
    rw [if_pos hij, hup, Option.bind_eq_bind, Option.bind_some, hdown, Option.bind_some]
    have hfuel' : j + 2 ≤ fuel + i' := by
      rcases hfuel with hfuel | ⟨hle, hfuel⟩
      · omega
      · have := hmoved hle hij
        omega
    rcases hend with rfl | ⟨hlt, hle⟩
    · rw [if_neg (by omega)]
      obtain ⟨fuel, rfl⟩ := Nat.exists_eq_succ_of_ne_zero (show fuel ≠ 0 by omega)
      unfold partitionLoop
      rw [if_neg (by omega)]
      exact ⟨j', m, rfl, hlj', by omega, .refl m, hparted⟩
    · obtain ⟨m₁, hswap, hmoves, helement⟩ := swapAt_spec size m (show i' ≠ j' by omega)
        (show low + 1 ≤ i' ∧ i' < high + 1 by omega) (by omega) (show high + 1 ≤ num by omega)
      have hother : ∀ x, x ≠ i' → x ≠ j' → element size m₁ x = element size m x := by
        intro x hxi hxj
        rw [helement, Equiv.swap_apply_of_ne_of_ne hxi hxj]
      have hpivot : element size m₁ low = element size m low := hother low (by omega) (by omega)
      have hparted₁ : Parted size cmp low high i' j' m₁ := by
        constructor
        · intro x hx hlt'
          rw [hother x (by omega) (by omega), hpivot]
          exact hparted.below x hx hlt'
        · intro x hx hxh
          rw [hother x (by omega) (by omega), hpivot]
          exact hparted.above x hx hxh
      have hle₁ : Le cmp (element size m₁ i') (element size m₁ low) := by
        rw [helement i', Equiv.swap_apply_left, hpivot]
        exact hle
      rw [if_pos hlt, hswap, Option.bind_eq_bind, Option.bind_some]
      obtain ⟨k, m₂, hrun, hlk, hkh, hmoves', hparted₂⟩ :=
        ih (by omega) (by omega) (by omega) (.inr ⟨hle₁, by omega⟩) hparted₁
      exact ⟨k, m₂, hrun, hlk, hkh, hmoves.trans hmoves', hparted₂⟩

/-! ## The recursion -/

theorem Preorder.sortedIn_one (h : Preorder size cmp) (m : Mem) (hle : hi ≤ lo + 1) :
    SortedIn (Le cmp) lo hi (element size m) := by
  intro i j hi' hij hj
  obtain rfl : i = j := by omega
  exact h.le_refl m i

/-- The pivot goes to its place. -/
theorem pivot_spec (hnum : high < num) (hlj : low ≤ j) (hjh : j ≤ high) (h : Parted size cmp low high (j + 1) j m)
    (hcmp : Preorder size cmp) : ∃ m', (if j > low then swapAt num size m low j else some m) = some m' ∧
      Moves num size low (high + 1) m m' ∧
      (∀ x, low ≤ x → x < j → Le cmp (element size m' x) (element size m' j)) ∧
      (∀ x, j < x → x ≤ high → Le cmp (element size m' j) (element size m' x)) := by
  have habove : ∀ x, j < x → x ≤ high → Le cmp (element size m low) (element size m x) :=
    fun x hx hxh => (hcmp.le_total m m low x).resolve_right (h.above x hx hxh)
  by_cases hlt : j > low
  · obtain ⟨m', hswap, hmoves, helement⟩ := swapAt_spec size m (show low ≠ j by omega)
      (show low ≤ low ∧ low < high + 1 by omega) (by omega) (show high + 1 ≤ num by omega)
    have hpivot : element size m' j = element size m low := by rw [helement, Equiv.swap_apply_right]
    refine ⟨m', by rw [if_pos hlt, hswap], hmoves, fun x hlx hxj => ?_, fun x hx hxh => ?_⟩
    · rw [hpivot, helement]
      by_cases hxl : x = low
      · rw [hxl, Equiv.swap_apply_left]
        exact h.below j hlt (Nat.lt_succ_self j)
      · rw [Equiv.swap_apply_of_ne_of_ne hxl (by omega)]
        exact h.below x (by omega) (by omega)
    · rw [hpivot, helement, Equiv.swap_apply_of_ne_of_ne (by omega) (by omega)]
      exact habove x hx hxh
  · obtain rfl : j = low := by omega
    exact ⟨m, if_neg hlt, .refl m, fun x hlx hxj => by omega, habove⟩

/-- The parts on the two sides of the pivot are sorted after each other. -/
theorem kapiQsortInternal_spec (hcmp : Preorder size cmp) {fuel : ℕ} (m : Mem) (hhigh : low < high → high < num)
    (hfuel : high < fuel + low) (hpos : 0 < fuel) :
    ∃ m', kapiQsortInternal num size cmp fuel low high m = some m' ∧ Moves num size low (high + 1) m m' ∧
      SortedIn (Le cmp) low (high + 1) (element size m') := by
  induction fuel generalizing low high m with
  | zero => exact absurd hpos (Nat.lt_irrefl 0)
  | succ fuel ih =>
    unfold kapiQsortInternal
    by_cases hlt : low ≥ high
    · rw [if_pos hlt]
      exact ⟨m, rfl, .refl m, hcmp.sortedIn_one m (by omega)⟩
    have hnum := hhigh (by omega)
    have hstart : Parted size cmp low high (low + 1) high m :=
      ⟨fun x hx hlt => by omega, fun x hx hle => by omega⟩
    obtain ⟨j, m₁, hpart, hlj, hjh, hmoves₁, hparted⟩ := partitionLoop_spec hnum (Nat.lt_succ_self low)
      (show low + 1 ≤ high by omega) (Nat.le_refl high) (.inl (show high + 3 ≤ num + 1 + (low + 1) by omega)) hstart
    obtain ⟨m₂, hpivot, hmoves₂, hbelow, habove⟩ := pivot_spec hnum hlj hjh hparted hcmp
    obtain ⟨m₃, hleft, hmoves₃, hsorted₃⟩ : ∃ m₃, (if j > 0 then kapiQsortInternal num size cmp fuel low (j - 1) m₂
        else some m₂) = some m₃ ∧ Moves num size low j m₂ m₃ ∧ SortedIn (Le cmp) low j (element size m₃) := by
      by_cases hj : j > 0
      · obtain ⟨m₃, hrun, hmoves, hsorted⟩ := ih m₂ (fun _ => by omega) (show j - 1 < fuel + low by omega) (by omega)
        rw [Nat.sub_add_cancel hj] at hmoves hsorted
        exact ⟨m₃, by rw [if_pos hj, hrun], hmoves, hsorted⟩
      · exact ⟨m₂, if_neg hj, .refl m₂, hcmp.sortedIn_one m₂ (by omega)⟩
    obtain ⟨m₄, hright, hmoves₄, hsorted₄⟩ := ih m₃ (fun _ => hnum) (show high < fuel + (j + 1) by omega) (by omega)
    rw [if_neg hlt, hpart, Option.bind_eq_bind, Option.bind_some]
    dsimp only
    rw [hpivot, Option.bind_eq_bind, Option.bind_some, hleft, Option.bind_some]
    have hmoves : Moves num size low (high + 1) m m₄ :=
      (((hmoves₁.mono (by omega) (Nat.le_refl _)).trans hmoves₂).trans (hmoves₃.mono (Nat.le_refl _) (by omega))).trans
        (hmoves₄.mono (by omega) (Nat.le_refl _))
    refine ⟨m₄, hright, hmoves, ?_⟩
    -- the left part and the pivot stay, and the right part stays behind the pivot
    have hkeep : ∀ x, x ≤ j → element size m₄ x = element size m₃ x := fun x hx => hmoves₄.1.outside (by omega)
    have hkeep₃ : ∀ x, j ≤ x → element size m₃ x = element size m₂ x := fun x hx => hmoves₃.1.outside (by omega)
    have hbelow₄ : ∀ x, low ≤ x → x < j → Le cmp (element size m₄ x) (element size m₂ j) := by
      intro x hlx hxj
      rw [hkeep x (by omega)]
      exact hmoves₃.1.forall_inside (fun v => Le cmp v (element size m₂ j)) hbelow x hlx hxj
    have habove₄ : ∀ x, j + 1 ≤ x → x < high + 1 → Le cmp (element size m₂ j) (element size m₄ x) := by
      apply hmoves₄.1.forall_inside fun v => Le cmp (element size m₂ j) v
      intro x hx hxh
      rw [hkeep₃ x (by omega)]
      exact habove x hx (by omega)
    have hpivot₄ : element size m₄ j = element size m₂ j := (hkeep j (Nat.le_refl j)).trans (hkeep₃ j (Nat.le_refl j))
    intro x y hlx hxy hyh
    rcases Nat.lt_trichotomy x j with hxj | rfl | hxj
    · rcases Nat.lt_trichotomy y j with hyj | rfl | hyj
      · rw [hkeep x (by omega), hkeep y (by omega)]
        exact hsorted₃ x y hlx hxy hyj
      · rw [hpivot₄]
        exact hbelow₄ x hlx hxj
      · exact hcmp.le_trans (length_element m₄ x) (length_element m₂ j) (length_element m₄ y) (hbelow₄ x hlx hxj)
          (habove₄ y hyj hyh)
    · rcases Nat.eq_or_lt_of_le hxy with rfl | hlt'
      · exact hcmp.le_refl m₄ x
      · rw [hpivot₄]
        exact habove₄ y hlt' hyh
    · exact hsorted₄ x y hxj hxy hyh

theorem kapiQsort_spec (hcmp : Preorder size cmp) (num : ℕ) (m : Mem) : ∃ m', kapiQsort num size cmp m = some m' ∧
    Moves num size 0 num m m' ∧ SortedIn (Le cmp) 0 num (element size m') := by
  unfold kapiQsort
  by_cases hnum : num < 2
  · rw [if_pos hnum]
    exact ⟨m, rfl, .refl m, hcmp.sortedIn_one m (by omega)⟩
  · obtain ⟨m', hrun, hmoves, hsorted⟩ := kapiQsortInternal_spec hcmp m
      (show 0 < num - 1 → num - 1 < num by omega) (show num - 1 < num + 0 by omega) (by omega)
    rw [Nat.sub_add_cancel (by omega)] at hmoves hsorted
    rw [if_neg hnum, hrun]
    exact ⟨m', rfl, hmoves, hsorted⟩

end KapiSort
