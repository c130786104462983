import Mathlib.Data.UInt

/-!
# Rearranging a sequence

A part of a sequence is rearranged if its values stay the same up to their places. Sorting has one result, up to values
that go before each other.
-/

namespace Rearrange

variable {α : Type*} {f g h : ℕ → α} {lo hi lo' hi' i j k n : ℕ}

/-- The values from `lo` on and before `hi` are put to other places there. -/
def Rearranged (lo hi : ℕ) (f g : ℕ → α) : Prop :=
  ∃ σ : Equiv.Perm ℕ, (∀ k, ¬(lo ≤ k ∧ k < hi) → σ k = k) ∧ ∀ k, g k = f (σ k)

theorem Rearranged.refl (f : ℕ → α) : Rearranged lo hi f f := ⟨Equiv.refl ℕ, fun _ _ => rfl, fun _ => rfl⟩

theorem Rearranged.trans (hfg : Rearranged lo hi f g) (hgh : Rearranged lo hi g h) : Rearranged lo hi f h := by
  obtain ⟨σ, hσ, hg⟩ := hfg
  obtain ⟨τ, hτ, hh⟩ := hgh
  refine ⟨τ.trans σ, fun k hk => ?_, fun k => ?_⟩
  · rw [Equiv.trans_apply, hτ k hk, hσ k hk]
  · rw [hh, hg, Equiv.trans_apply]

theorem Rearranged.mono (hfg : Rearranged lo hi f g) (hlo : lo' ≤ lo) (hhi : hi ≤ hi') : Rearranged lo' hi' f g := by
  obtain ⟨σ, hσ, hg⟩ := hfg
  exact ⟨σ, fun k hk => hσ k fun hin => hk (by omega), hg⟩

theorem Rearranged.outside (hfg : Rearranged lo hi f g) (hk : ¬(lo ≤ k ∧ k < hi)) : g k = f k := by
  obtain ⟨σ, hσ, hg⟩ := hfg
  rw [hg, hσ k hk]

/-- Two values change their places. -/
theorem Rearranged.swap (hi' : lo ≤ i ∧ i < hi) (hj : lo ≤ j ∧ j < hi) (hg : ∀ k, g k = f (Equiv.swap i j k)) :
    Rearranged lo hi f g := by
  refine ⟨Equiv.swap i j, fun k hk => ?_, hg⟩
  apply Equiv.swap_apply_of_ne_of_ne
  · rintro rfl
    exact hk hi'
  · rintro rfl
    exact hk hj

/-- A value comes from the same part. -/
theorem Rearranged.of_inside (hfg : Rearranged lo hi f g) (hk : lo ≤ k ∧ k < hi) :
    ∃ k', (lo ≤ k' ∧ k' < hi) ∧ g k = f k' := by
  obtain ⟨σ, hσ, hg⟩ := hfg
  refine ⟨σ k, ?_, hg k⟩
  by_contra hout
  have hfix : σ k = k := σ.injective (hσ (σ k) hout)
  rw [hfix] at hout
  exact hout hk

/-- What holds of all values of a part still does. -/
theorem Rearranged.forall_inside (hfg : Rearranged lo hi f g) (p : α → Prop) (h : ∀ k, lo ≤ k → k < hi → p (f k)) :
    ∀ k, lo ≤ k → k < hi → p (g k) := by
  intro k hlo hhi
  obtain ⟨k', ⟨hlo', hhi'⟩, heq⟩ := hfg.of_inside ⟨hlo, hhi⟩
  rw [heq]
  exact h k' hlo' hhi'

theorem Rearranged.perm (hfg : Rearranged 0 n f g) : ((List.range n).map g).Perm ((List.range n).map f) := by
  obtain ⟨σ, hσ, hg⟩ := hfg
  have hinside : ∀ k, k < n → σ k < n := by
    intro k hk
    by_contra hout
    have hfix : σ k = k := σ.injective (hσ (σ k) fun hin => hout hin.2)
    omega
  have hperm : ((List.range n).map σ).Perm (List.range n) := by
    apply (List.perm_ext_iff_of_nodup (List.nodup_range.map σ.injective) List.nodup_range).mpr
    intro k
    rw [List.mem_map, List.mem_range]
    constructor
    · rintro ⟨k', hk', rfl⟩
      exact hinside k' (List.mem_range.mp hk')
    · intro hk
      refine ⟨σ.symm k, List.mem_range.mpr ?_, σ.apply_symm_apply k⟩
      by_contra hout
      have hfix := hσ (σ.symm k) fun hin => hout hin.2
      rw [σ.apply_symm_apply] at hfix
      omega
  have hmap : (List.range n).map g = ((List.range n).map σ).map f := by
    rw [List.map_map]
    exact List.map_congr_left fun k _ => hg k
  rw [hmap]
  exact hperm.map f

/-- The values of a part go up. -/
def SortedIn (le : α → α → Prop) (lo hi : ℕ) (f : ℕ → α) : Prop := ∀ i j, lo ≤ i → i ≤ j → j < hi → le (f i) (f j)

theorem le_of_rearranged {le : α → α → Prop} (htrans : ∀ a b c, le a b → le b c → le a c) {σ : Equiv.Perm ℕ}
    (hσ : ∀ k, k < n → σ k < n) (hg : ∀ k, g k = f (σ k)) (hf : SortedIn le 0 n f) (hgs : SortedIn le 0 n g)
    (hk : k < n) : le (f k) (g k) := by
  obtain ⟨i, hi, hle⟩ : ∃ i ≤ k, k ≤ σ i := by
    by_contra hno
    have hmaps : ∀ i ∈ Finset.range (k + 1), σ i ∈ Finset.range k := by
      intro i hi
      rw [Finset.mem_range] at hi ⊢
      by_contra hnot
      exact hno ⟨i, by omega, Nat.not_lt.mp hnot⟩
    have hcard := Finset.card_le_card_of_injOn σ hmaps σ.injective.injOn
    rw [Finset.card_range, Finset.card_range] at hcard
    omega
  have hfirst : le (f k) (g i) := by
    rw [hg]
    exact hf k (σ i) (Nat.zero_le k) hle (hσ i (by omega))
  exact htrans _ _ _ hfirst (hgs i k (Nat.zero_le i) hi hk)

/-- Two sorted sequences of the same values are the same up to values that go before each other. -/
theorem SortedIn.unique {le : α → α → Prop} (htrans : ∀ a b c, le a b → le b c → le a c)
    (hfh : Rearranged 0 n f h) (hfg : Rearranged 0 n f g) (hh : SortedIn le 0 n h) (hg : SortedIn le 0 n g)
    (hk : k < n) : le (h k) (g k) := by
  obtain ⟨σ, hσ, hheq⟩ := hfh
  obtain ⟨τ, hτ, hgeq⟩ := hfg
  have hmove : ∀ k, k < n → (τ.trans σ.symm) k < n := by
    intro k hk
    by_contra hout
    have hback : τ k = (τ.trans σ.symm) k := by
      have hfix := hσ _ fun hin => hout hin.2
      rw [Equiv.trans_apply, Equiv.apply_symm_apply] at hfix
      exact hfix
    have hfix : τ k = k := τ.injective (by rw [hback, hτ _ fun hin => hout hin.2, ← hback])
    omega
  refine le_of_rearranged htrans hmove (fun k => ?_) hh hg hk
  rw [hgeq, hheq, Equiv.trans_apply, Equiv.apply_symm_apply]

end Rearrange
