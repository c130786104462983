import Mathlib.Data.List.Induction
import Mathlib.Data.List.Sort

/-!
# Insertion by order, and the best of a list

`List.orderedInsert` puts an element before the first one that it goes before. For a relation that is not total this
keeps any order in which the elements passed over come before the new one. The best of a list of lists is searched
for with a score; it is replaced by higher scores only, so the first of the highest is found.
-/

namespace Ordered

section Insert

variable {α : Type*} {R r : α → α → Prop} [DecidableRel r] {a : α} {l : List α}

theorem pairwise_orderedInsert (h : l.Pairwise R) (hbefore : ∀ b ∈ l, r a b → R a b)
    (hafter : ∀ b ∈ l, ¬r a b → R b a) (hstay : ∀ b ∈ l, ∀ c ∈ l, R b c → r a b → R a c) :
    (l.orderedInsert r a).Pairwise R := by
  induction l with
  | nil => exact List.pairwise_singleton R a
  | cons b l ih =>
    obtain ⟨hb, hl⟩ := List.pairwise_cons.mp h
    by_cases hab : r a b
    · rw [List.orderedInsert_cons_of_le r l hab]
      refine List.pairwise_cons.mpr ⟨fun c hc => ?_, h⟩
      rcases List.mem_cons.mp hc with rfl | hc
      · exact hbefore c List.mem_cons_self hab
      · exact hstay b List.mem_cons_self c (List.mem_cons_of_mem b hc) (hb c hc) hab
    · rw [List.orderedInsert_of_not_le r l hab]
      refine List.pairwise_cons.mpr ⟨fun c hc => ?_, ?_⟩
      · rcases (List.mem_orderedInsert r).mp hc with rfl | hc
        · exact hafter b List.mem_cons_self hab
        · exact hb c hc
      · exact ih hl (fun c hc => hbefore c (List.mem_cons_of_mem b hc))
          (fun c hc => hafter c (List.mem_cons_of_mem b hc))
          fun c hc d hd => hstay c (List.mem_cons_of_mem b hc) d (List.mem_cons_of_mem b hd)

end Insert

section Best

variable {α ι : Type*} (score : α → ℕ)

/-- An element takes the place of the best one if its score is higher. -/
def better (best : Option α × ℕ) (a : α) : Option α × ℕ := if score a > best.2 then (some a, score a) else best

def bestOf (f : ι → List α) (is : List ι) : Option α × ℕ :=
  is.foldl (fun best i => (f i).foldl (better score) best) (none, 0)

variable {score} {l : List α} {best : Option α × ℕ}

/-- A list leaves the best so far, or has a higher score: its first highest is the new best. -/
theorem foldl_better (l : List α) (best : Option α × ℕ) :
    (l.foldl (better score) best = best ∧ ∀ a ∈ l, score a ≤ best.2) ∨
      ∃ l₁ a l₂, l = l₁ ++ a :: l₂ ∧ l.foldl (better score) best = (some a, score a) ∧ best.2 < score a ∧
        (∀ b ∈ l₁, score b < score a) ∧ ∀ b ∈ l₂, score b ≤ score a := by
  induction l generalizing best with
  | nil => exact .inl ⟨rfl, fun _ h => absurd h List.not_mem_nil⟩
  | cons a l ih =>
    rw [List.foldl_cons]
    by_cases ha : score a > best.2
    · have hstep : better score best a = (some a, score a) := if_pos ha
      rw [hstep]
      rcases ih (some a, score a) with ⟨heq, hle⟩ | ⟨l₁, b, l₂, rfl, heq, hlt, hless, hle⟩
      · exact .inr ⟨[], a, l, rfl, heq, ha, fun _ h => absurd h List.not_mem_nil, hle⟩
      · refine .inr ⟨a :: l₁, b, l₂, rfl, heq, by omega, fun c hc => ?_, hle⟩
        rcases List.mem_cons.mp hc with rfl | hc
        · exact hlt
        · exact hless c hc
    · have hstep : better score best a = best := if_neg ha
      rw [hstep]
      rcases ih best with ⟨heq, hle⟩ | ⟨l₁, b, l₂, rfl, heq, hlt, hless, hle⟩
      · exact .inl ⟨heq, List.forall_mem_cons.mpr ⟨by omega, hle⟩⟩
      · refine .inr ⟨a :: l₁, b, l₂, rfl, heq, hlt, fun c hc => ?_, hle⟩
        rcases List.mem_cons.mp hc with rfl | hc
        · omega
        · exact hless c hc

/-- No score is positive, or the best is the first of its list with its score, and none is higher. -/
theorem bestOf_spec (f : ι → List α) (is : List ι) :
    (bestOf score f is = (none, 0) ∧ ∀ i ∈ is, ∀ a ∈ f i, score a = 0) ∨
      ∃ i ∈ is, ∃ l₁ a l₂, f i = l₁ ++ a :: l₂ ∧ bestOf score f is = (some a, score a) ∧ 0 < score a ∧
        (∀ b ∈ l₁, score b < score a) ∧ ∀ j ∈ is, ∀ b ∈ f j, score b ≤ score a := by
  induction is using List.reverseRecOn with
  | nil => exact .inl ⟨rfl, fun _ h => absurd h List.not_mem_nil⟩
  | append_singleton is j ih =>
    have hstep : bestOf score f (is ++ [j]) = (f j).foldl (better score) (bestOf score f is) := by
      unfold bestOf
      rw [List.foldl_append, List.foldl_cons, List.foldl_nil]
    have hlast : ∀ {P : ι → Prop}, (∀ i ∈ is, P i) → P j → ∀ i ∈ is ++ [j], P i := by
      intro P his hj i hi
      rcases List.mem_append.mp hi with hi | hi
      · exact his i hi
      · exact List.mem_singleton.mp hi ▸ hj
    have hin : j ∈ is ++ [j] := List.mem_append_right is (List.mem_singleton_self j)
    rw [hstep]
    rcases foldl_better (f j) (bestOf score f is) with ⟨heq, hle⟩ | ⟨l₁, a, l₂, hsplit, heq, hlt, hless, hle⟩
    · rw [heq]
      rcases ih with ⟨hnone, hzero⟩ | ⟨i, hi, l₁, a, l₂, hsplit, hbest, hpos, hless, hall⟩
      · rw [hnone] at hle
        exact .inl ⟨hnone, hlast hzero fun a ha => Nat.le_zero.mp (hle a ha)⟩
      · rw [hbest] at hle
        exact .inr ⟨i, List.mem_append_left _ hi, l₁, a, l₂, hsplit, hbest, hpos, hless, hlast hall hle⟩
    · refine .inr ⟨j, hin, l₁, a, l₂, hsplit, heq, by omega, hless, hlast (fun i hi b hb => ?_) fun b hb => ?_⟩
      · rcases ih with ⟨hnone, hzero⟩ | ⟨i', -, -, a', -, -, hbest, -, -, hall⟩
        · have := hzero i hi b hb
          omega
        · have := hall i hi b hb
          rw [hbest] at hlt
          dsimp only at hlt
          omega
      · rw [hsplit] at hb
        rcases List.mem_append.mp hb with hb | hb
        · exact Nat.le_of_lt (hless b hb)
        · rcases List.mem_cons.mp hb with rfl | hb
          · exact Nat.le_refl _
          · exact hle b hb

end Best

end Ordered
