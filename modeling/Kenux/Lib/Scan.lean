import Mathlib.Data.Int.Notation
import Mathlib.Data.List.TakeDrop

/-!
# The first place that passes a test

A scan goes through the places in order and stops at the first one that passes. It keeps a log of the places that
it looks at; they are those up to the one where it stops.
-/

namespace Scan

/-- From place `i` on; `n` places are left. -/
def scan (p : ℕ → Bool) : ℕ → ℕ → List ℕ → Option ℕ × List ℕ
  | 0, _, log => (none, log)
  | n + 1, i, log => if p i then (some i, log ++ [i]) else scan p n (i + 1) (log ++ [i])

variable {p : ℕ → Bool} {n i k : ℕ} {log : List ℕ}

/-- The first place that passes. -/
theorem scan_some (h : (scan p n i log).1 = some k) : i ≤ k ∧ k < i + n ∧ p k = true ∧ ∀ j, i ≤ j → j < k → p j = false := by
  induction n generalizing i log with
  | zero => cases h
  | succ n ih =>
    unfold scan at h
    by_cases hp : p i = true
    · rw [if_pos hp] at h
      cases h
      exact ⟨Nat.le_refl k, by omega, hp, fun j hij hji => absurd hji (Nat.not_lt.mpr hij)⟩
    · rw [if_neg hp] at h
      obtain ⟨hik, hkn, hk, hbefore⟩ := ih h
      refine ⟨by omega, by omega, hk, fun j hij hjk => ?_⟩
      by_cases heq : j = i
      · rw [heq]
        exact Bool.not_eq_true _ ▸ hp
      · exact hbefore j (by omega) hjk

theorem scan_none (h : (scan p n i log).1 = none) : ∀ j, i ≤ j → j < i + n → p j = false := by
  induction n generalizing i log with
  | zero =>
    intro j hij hji
    omega
  | succ n ih =>
    unfold scan at h
    by_cases hp : p i = true
    · rw [if_pos hp] at h
      cases h
    · rw [if_neg hp] at h
      intro j hij hjn
      by_cases heq : j = i
      · rw [heq]
        exact Bool.not_eq_true _ ▸ hp
      · exact ih h j (by omega) (by omega)

/-- The places that are looked at are those before which none passes. -/
theorem mem_log : k ∈ (scan p n i log).2 ↔ k ∈ log ∨ i ≤ k ∧ k < i + n ∧ ∀ j, i ≤ j → j < k → p j = false := by
  induction n generalizing i log with
  | zero =>
    show k ∈ log ↔ _
    refine ⟨.inl, fun h => ?_⟩
    rcases h with h | h
    · exact h
    · omega
  | succ n ih =>
    unfold scan
    by_cases hp : p i = true
    · rw [if_pos hp, List.mem_append, List.mem_singleton]
      refine or_congr_right ⟨fun h => ?_, fun ⟨hik, _, hbefore⟩ => ?_⟩
      · subst h
        exact ⟨Nat.le_refl k, by omega, fun j hij hji => absurd hji (Nat.not_lt.mpr hij)⟩
      · by_contra hne
        exact absurd (hbefore i (Nat.le_refl i) (by omega)) (by rw [hp]; decide)
    · rw [if_neg hp, ih, List.mem_append, List.mem_singleton, or_assoc]
      have hpi : p i = false := Bool.not_eq_true _ ▸ hp
      refine or_congr_right ⟨fun h => ?_, fun ⟨hik, hkn, hbefore⟩ => ?_⟩
      · rcases h with h | ⟨hik, hkn, hbefore⟩
        · subst h
          exact ⟨Nat.le_refl k, by omega, fun j hij hji => absurd hji (Nat.not_lt.mpr hij)⟩
        · refine ⟨by omega, by omega, fun j hij hjk => ?_⟩
          by_cases heq : j = i
          · rw [heq, hpi]
          · exact hbefore j (by omega) hjk
      · by_cases heq : k = i
        · exact .inl heq
        · exact .inr ⟨by omega, by omega, fun j hij hjk => hbefore j (by omega) hjk⟩

/-- All places that are looked at are below `b`. -/
theorem log_below_iff {b : ℕ} : (∀ k ∈ (scan p n 0 []).2, k < b) ↔ n ≤ b ∨ ∃ k < b, p k = true := by
  constructor
  · intro h
    by_contra hnot
    obtain ⟨hn, hnone⟩ := not_or.mp hnot
    have hb := h b (mem_log.mpr (.inr ⟨Nat.zero_le b, by omega, fun j _ hj =>
      Bool.eq_false_iff.mpr fun hp => hnone ⟨j, hj, hp⟩⟩))
    exact absurd hb (Nat.lt_irrefl b)
  · intro h k hk
    rcases mem_log.mp hk with hk | ⟨-, hkn, hbefore⟩
    · exact absurd hk List.not_mem_nil
    · rcases h with h | ⟨j, hjb, hj⟩
      · omega
      · by_contra hkb
        exact absurd (hbefore j (Nat.zero_le j) (by omega)) (by rw [hj]; decide)

end Scan

/-!
## Going through keys one by one

A successor function gives the first key for no key and the next one for a key. It enumerates a list if it follows
the list at each place; then the calls with the key that came before give that list, and then none.
-/

namespace Cursor

variable {κ : Type*}

/-- The keys of at most `n` calls, and whether one of them found no key. -/
def visit (next : Option κ → Option κ) : ℕ → Option κ → List κ × Bool
  | 0, _ => ([], false)
  | n + 1, key =>
    match next key with
    | none => ([], true)
    | some k =>
      let r := visit next n (some k)
      (k :: r.1, r.2)

structure Enumerates (next : Option κ → Option κ) (keys : List κ) : Prop where
  first : next none = keys.head?
  step : ∀ pre k post, keys = pre ++ k :: post → next (some k) = post.head?

variable {next : Option κ → Option κ} {keys : List κ}

/-- From a key on, the rest of the list is visited. -/
theorem visit_from (h : Enumerates next keys) (n : ℕ) (pre post : List κ) (key : Option κ) (hkeys : keys = pre ++ post)
    (hkey : next key = post.head?) : visit next n key = (post.take n, decide (post.length < n)) := by
  induction n generalizing pre post key with
  | zero => rfl
  | succ n ih =>
    unfold visit
    rw [hkey]
    cases post with
    | nil => rfl
    | cons k post =>
      have hstep := h.step pre k post hkeys
      have hsplit : keys = (pre ++ [k]) ++ post := by
        rw [List.append_assoc]
        exact hkeys
      show (k :: (visit next n (some k)).1, (visit next n (some k)).2) = _
      rw [ih (pre ++ [k]) post (some k) hsplit hstep, List.take_succ_cons]
      exact Prod.ext rfl (decide_eq_decide.mpr (Nat.succ_lt_succ_iff.symm))

theorem Enumerates.visit (h : Enumerates next keys) (n : ℕ) :
    visit next n none = (keys.take n, decide (keys.length < n)) :=
  visit_from h n [] keys none rfl h.first

end Cursor
