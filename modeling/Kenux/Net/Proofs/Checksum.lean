import Kenux.Net.Send

/-!
# `ip_checksum`

The loops compute the reduced sum of the words as they are in memory. Swapping the bytes of all words is multiplying
their sum by 256, and so it swaps the bytes of the reduced sum.
-/

namespace Net

open OnesComplement

variable {data : List UInt8} {sum : UInt32}

theorem hostWord_toNat (lo hi : UInt8) : (hostWord lo hi).toNat = lo.toNat + 256 * hi.toNat := by
  have hlo := lo.toNat_lt
  have hhi := hi.toNat_lt
  unfold hostWord
  rw [UInt32.toNat_or, UInt32.toNat_shiftLeft, UInt8.toNat_toUInt32, UInt8.toNat_toUInt32]
  show lo.toNat ||| hi.toNat <<< 8 % 2 ^ 32 = _
  rw [Nat.mod_eq_of_lt (by rw [Nat.shiftLeft_eq]; omega), Nat.or_comm, ← Nat.shiftLeft_add_eq_or_of_lt hlo,
    Nat.shiftLeft_eq]
  omega

theorem addsUp_of_lt (h : sum.toNat + (hostWords data).sum < 2 ^ 32) : AddsUp data sum := by
  induction data, sum using ipSum.induct with
  | case1 lo hi data sum ih =>
    simp only [hostWords, List.sum_cons] at h
    have hword := hostWord_toNat lo hi
    refine ⟨by omega, ih ?_⟩
    rw [UInt32.toNat_add, Nat.mod_eq_of_lt (by omega)]
    omega
  | case2 last sum =>
    simpa [hostWords, AddsUp] using h
  | case3 sum => trivial

theorem ipSum_toNat (h : AddsUp data sum) : (ipSum data sum).toNat = sum.toNat + (hostWords data).sum := by
  induction data, sum using ipSum.induct with
  | case1 lo hi data sum ih =>
    obtain ⟨hfits, hrest⟩ := h
    simp only [ipSum, hostWords, List.sum_cons]
    rw [ih hrest, UInt32.toNat_add, Nat.mod_eq_of_lt hfits, hostWord_toNat]
    omega
  | case2 last sum =>
    have hadd : (sum + last.toUInt32).toNat = sum.toNat + last.toNat := by
      rw [UInt32.toNat_add, UInt8.toNat_toUInt32]
      exact Nat.mod_eq_of_lt h
    simp [ipSum, hostWords, hadd]
  | case3 sum => simp [ipSum, hostWords]

theorem hostWords_le : ∀ w ∈ hostWords data, w ≤ 65535 := by
  induction data using hostWords.induct with
  | case1 lo hi data ih =>
    have hlo := lo.toNat_lt
    have hhi := hi.toNat_lt
    simp only [hostWords, List.mem_cons, forall_eq_or_imp]
    exact ⟨by omega, ih⟩
  | case2 last =>
    have hlast := last.toNat_lt
    simp only [hostWords, List.mem_singleton, forall_eq]
    omega
  | case3 => simp [hostWords]

theorem networkWords_le : ∀ w ∈ networkWords data, w ≤ 65535 := by
  induction data using networkWords.induct with
  | case1 hi lo data ih =>
    have hlo := lo.toNat_lt
    have hhi := hi.toNat_lt
    simp only [networkWords, List.mem_cons, forall_eq_or_imp]
    exact ⟨by omega, ih⟩
  | case2 last =>
    have hlast := last.toNat_lt
    simp only [networkWords, List.mem_singleton, forall_eq]
    omega
  | case3 => simp [networkWords]

theorem hostWords_sum_le (data : List UInt8) : 2 * (hostWords data).sum ≤ 65535 * (data.length + 1) := by
  induction data using hostWords.induct with
  | case1 lo hi data ih =>
    have hlo := lo.toNat_lt
    have hhi := hi.toNat_lt
    simp only [hostWords, List.sum_cons, List.length_cons]
    omega
  | case2 last =>
    have hlast := last.toNat_lt
    simp only [hostWords, List.sum_cons, List.sum_nil, List.length_cons, List.length_nil]
    omega
  | case3 => simp [hostWords]

/-- Up to 65535 bytes the accumulator has room for all of them. -/
theorem addsUp_of_length (h : data.length ≤ 65535) : AddsUp data 0 := by
  have hle := hostWords_sum_le data
  apply addsUp_of_lt
  rw [UInt32.toNat_zero]
  omega

theorem foldCarry_toNat (sum : UInt32) : (foldCarry sum).toNat = reduce 65535 sum.toNat := by
  induction sum using foldCarry.induct with
  | case1 sum h ih =>
    have hlow : (sum &&& (0xFFFF : UInt32)).toNat = sum.toNat % 65536 := by
      rw [UInt32.toNat_and]
      exact Nat.and_two_pow_sub_one_eq_mod _ 16
    have hhigh : (sum >>> 16).toNat = sum.toNat / 65536 := by
      rw [UInt32.toNat_shiftRight]
      exact Nat.shiftRight_eq_div_pow _ 16
    have hlt := sum.toNat_lt
    have hadd : ((sum &&& (0xFFFF : UInt32)) + sum >>> 16).toNat = sum.toNat % 65536 + sum.toNat / 65536 := by
      rw [UInt32.toNat_add, hlow, hhigh, Nat.mod_eq_of_lt (by omega)]
    rw [foldCarry, dif_pos h, ih, hadd]
    exact reduce_digits 65535 sum.toNat
  | case2 sum h =>
    have hhigh : (sum >>> 16).toNat = sum.toNat / 65536 := by
      rw [UInt32.toNat_shiftRight]
      exact Nat.shiftRight_eq_div_pow _ 16
    rw [not_not.mp h, UInt32.toNat_zero] at hhigh
    rw [foldCarry, dif_neg h, reduce_of_le (by omega)]

theorem ipChecksum_toNat (h : AddsUp data 0) :
    (ipChecksum data).toNat = 65535 - reduce 65535 (hostWords data).sum := by
  have hle : reduce 65535 (hostWords data).sum ≤ 65535 := reduce_le (by omega)
  unfold ipChecksum
  rw [UInt32.toNat_toUInt16, UInt32.toNat_not, foldCarry_toNat, ipSum_toNat h, UInt32.toNat_zero, Nat.zero_add]
  show (2 ^ 32 - 1 - _) % 2 ^ 16 = _
  omega

/-! ## The order of the bytes -/

/-- The sum of the words in network order is 256 times the sum of the others, but for a multiple of 65535. -/
theorem networkWords_sum (data : List UInt8) : ∃ k, 256 * (hostWords data).sum = (networkWords data).sum + k * 65535 ∧
    ((networkWords data).sum = 0 → (hostWords data).sum = 0) := by
  induction data using hostWords.induct with
  | case1 lo hi data ih =>
    obtain ⟨k, hk, hzero⟩ := ih
    simp only [hostWords, networkWords, List.sum_cons]
    exact ⟨k + hi.toNat, by omega, by omega⟩
  | case2 last =>
    simp only [hostWords, networkWords, List.sum_cons, List.sum_nil]
    exact ⟨0, by omega, by omega⟩
  | case3 => exact ⟨0, rfl, fun _ => rfl⟩

theorem reduce_network (data : List UInt8) : reduce 65535 (networkWords data).sum =
    256 * (reduce 65535 (hostWords data).sum % 256) + reduce 65535 (hostWords data).sum / 256 := by
  obtain ⟨k, hk, hzero⟩ := networkWords_sum data
  obtain ⟨j, hj, hzero'⟩ := exists_reduce 65535 (hostWords data).sum
  have hle : reduce 65535 (hostWords data).sum ≤ 65535 := reduce_le (by omega)
  by_cases hn : (networkWords data).sum = 0
  · rw [hn, hzero hn]
    rfl
  generalize reduce 65535 (hostWords data).sum = r at *
  have hswap : 256 * r = 256 * (r % 256) + r / 256 + r / 256 * 65535 := by omega
  have hhost : 256 * (hostWords data).sum = 256 * r + 256 * j * 65535 := by omega
  have hr : r ≠ 0 := fun hr => by
    have hsum := hzero' hr
    omega
  calc reduce 65535 (networkWords data).sum
      = reduce 65535 (256 * (hostWords data).sum) := by rw [hk, reduce_add_mul hn]
    _ = reduce 65535 (256 * r) := by rw [hhost, reduce_add_mul (by omega)]
    _ = reduce 65535 (256 * (r % 256) + r / 256) := by rw [hswap, reduce_add_mul (by omega)]
    _ = 256 * (r % 256) + r / 256 := reduce_of_le (by omega)

theorem htons_toNat (v : UInt16) : (htons v).toNat = 256 * (v.toNat % 256) + v.toNat / 256 := by
  have hlt := v.toNat_lt
  unfold htons
  rw [UInt16.toNat_or, UInt16.toNat_shiftRight, UInt16.toNat_shiftLeft]
  show v.toNat >>> 8 ||| v.toNat <<< 8 % 2 ^ 16 = _
  have hshift : v.toNat <<< 8 % 2 ^ 16 = (v.toNat % 256) <<< 8 := by
    rw [Nat.shiftLeft_eq, Nat.shiftLeft_eq]
    omega
  rw [hshift, Nat.shiftRight_eq_div_pow, Nat.or_comm, ← Nat.shiftLeft_add_eq_or_of_lt (by omega), Nat.shiftLeft_eq]
  omega

/-! ## A field for the checksum -/

theorem hostWords_append (front back : List UInt8) (k : ℕ) (h : front.length = 2 * k) :
    hostWords (front ++ back) = hostWords front ++ hostWords back := by
  induction front using hostWords.induct generalizing k with
  | case1 lo hi front ih =>
    simp only [List.length_cons] at h
    simp only [List.cons_append, hostWords]
    rw [ih (k - 1) (by omega)]
  | case2 last =>
    simp only [List.length_cons, List.length_nil] at h
    omega
  | case3 => rfl

theorem hostWords_field (v : UInt16) (back : List UInt8) :
    (hostWords (hostBytes v ++ back)).sum = v.toNat + (hostWords back).sum := by
  have hlt := v.toNat_lt
  have hhigh : (v >>> 8).toNat = v.toNat / 256 := by
    rw [UInt16.toNat_shiftRight]
    exact Nat.shiftRight_eq_div_pow _ 8
  simp only [hostBytes, List.cons_append, List.nil_append, hostWords, List.sum_cons, UInt16.toNat_toUInt8]
  omega

/-- A field is one more word. -/
theorem hostWords_setField {k : ℕ} (hfits : 2 * k + 2 ≤ data.length) (v : UInt16) :
    (hostWords (setField data k v)).sum =
      (hostWords (data.take (2 * k))).sum + v.toNat + (hostWords (data.drop (2 * k + 2))).sum := by
  have hlen : (data.take (2 * k)).length = 2 * k := by rw [List.length_take]; omega
  unfold setField
  rw [List.append_assoc, hostWords_append _ _ k hlen, List.sum_append, hostWords_field, Nat.add_assoc]

theorem setField_zero {k : ℕ} (hlo : data[2 * k]? = some 0) (hhi : data[2 * k + 1]? = some 0) :
    setField data k 0 = data := by
  obtain ⟨hlt, hlo⟩ := List.getElem?_eq_some_iff.mp hlo
  obtain ⟨hlt', hhi⟩ := List.getElem?_eq_some_iff.mp hhi
  have hsplit : data.drop (2 * k) = 0 :: 0 :: data.drop (2 * k + 2) := by
    rw [List.drop_eq_getElem_cons hlt, List.drop_eq_getElem_cons hlt', hlo, hhi]
  have hbytes : hostBytes 0 = [0, 0] := rfl
  unfold setField
  rw [hbytes, List.append_assoc, List.cons_append, List.cons_append, List.nil_append, ← hsplit, List.take_append_drop]

theorem length_setField {k : ℕ} (hfits : 2 * k + 2 ≤ data.length) (v : UInt16) :
    (setField data k v).length = data.length := by
  simp only [setField, hostBytes, List.length_append, List.length_take, List.length_drop, List.length_cons,
    List.length_nil]
  omega

/-- The checksum is the complement of the sum of the words in whatever order, also with the bytes of all words swapped,
and with the checksum in its field the sum is the other zero. -/
theorem ip_checksum_ok (data : List UInt8) (hlen : data.length ≤ 65535) : AddsUp data 0 ∧
    (∀ ws, (hostWords data).Perm ws → (ipChecksum data).toNat = 65535 - OnesComplement.sum 65535 ws) ∧
    (∀ ws, (networkWords data).Perm ws → (htons (ipChecksum data)).toNat = 65535 - OnesComplement.sum 65535 ws) ∧
    ∀ k, data[2 * k]? = some 0 → data[2 * k + 1]? = some 0 → ipChecksum (setField data k (ipChecksum data)) = 0 := by
  have hadds := addsUp_of_length hlen
  have hvalue := ipChecksum_toNat hadds
  have hle : reduce 65535 (hostWords data).sum ≤ 65535 := reduce_le (by omega)
  refine ⟨hadds, ?_, ?_, ?_⟩
  · intro ws hperm
    rw [hvalue, sum_perm (by omega) hostWords_le hperm, sum_eq (by omega) hostWords_le]
  · intro ws hperm
    rw [sum_perm (by omega) networkWords_le hperm, sum_eq (by omega) networkWords_le, htons_toNat, hvalue,
      reduce_network]
    omega
  · intro k hlo hhi
    have hfits : 2 * k + 2 ≤ data.length := by
      obtain ⟨hlt, -⟩ := List.getElem?_eq_some_iff.mp hhi
      omega
    have hsum := hostWords_setField hfits 0
    have hsum' := hostWords_setField hfits (ipChecksum data)
    rw [setField_zero hlo hhi, UInt16.toNat_zero] at hsum
    have hnew : (hostWords (setField data k (ipChecksum data))).sum =
        (hostWords data).sum + (65535 - reduce 65535 (hostWords data).sum) := by omega
    have hadds' : AddsUp (setField data k (ipChecksum data)) 0 := addsUp_of_length (by rwa [length_setField hfits])
    apply UInt16.toNat_inj.mp
    rw [ipChecksum_toNat hadds', hnew, reduce_add_complement (by omega)]
    rfl

theorem ip_checksum_ok_odd :
    ipChecksum (setField [0x45, 0, 0, 0, 7] 1 (ipChecksum [0x45, 0, 0, 0, 7])) = 0 :=
  (ip_checksum_ok [0x45, 0, 0, 0, 7] (by decide)).2.2.2 1 rfl rfl

end Net
