import Mathlib.Algebra.Ring.Nat
import Mathlib.Data.List.Induction
import Mathlib.Data.Option.Basic
import Mathlib.Data.Set.Basic

/-!
# Walking a tree of tables

A multi-level table is given by `entry t i`, the table of the next level that slot `i` of table `t`
refers to. `walk` follows a path of slots from a root. Tables below the last level are not followed,
so every statement here bounds the length of the paths by a depth `d`.

Two updates of the tables are treated: linking a fresh empty table into an absent slot, and writing
into tables of the last level.
-/

namespace TableWalk

variable {τ ι : Type*}

/-- The table reached from `t` along a path of slots. -/
def walk (entry : τ → ι → Option τ) : τ → List ι → Option τ
  | t, [] => some t
  | t, i :: is => (entry t i).bind fun u => walk entry u is

section Walk

variable {entry entry' : τ → ι → Option τ} {r t u : τ} {p q : List ι} {i : ι}

@[simp] theorem walk_nil : walk entry t [] = some t := rfl

theorem walk_cons : walk entry t (i :: p) = (entry t i).bind fun u => walk entry u p := rfl

theorem walk_append :
    walk entry t (p ++ q) = (walk entry t p).bind fun u => walk entry u q := by
  induction p generalizing t with
  | nil => rfl
  | cons i p ih =>
    cases h : entry t i with
    | none => simp [walk, h]
    | some u => simp [walk, h, ih]

theorem walk_snoc : walk entry t (p ++ [i]) = (walk entry t p).bind fun u => entry u i := by
  rw [walk_append]
  congr 1
  funext u
  simp [walk]

/-- Walks of length at most `d` only read the tables met before depth `d`. -/
theorem walk_congr {d : ℕ}
    (h : ∀ p t, p.length < d → walk entry r p = some t → ∀ i, entry' t i = entry t i) :
    ∀ q : List ι, q.length ≤ d → walk entry' r q = walk entry r q := by
  intro q
  induction q using List.reverseRecOn with
  | nil => intro _; rfl
  | append_singleton q i ih =>
    intro hq
    rw [List.length_append, List.length_singleton] at hq
    rw [walk_snoc, walk_snoc, ih (by omega)]
    cases hw : walk entry r q with
    | none => rfl
    | some t => exact h q t (by omega) hw i

end Walk

/-- `entry'` is `entry` with the empty table `n` put into the absent slot `i` of `t`. -/
structure Link (entry entry' : τ → ι → Option τ) (t : τ) (i : ι) (n : τ) : Prop where
  absent : entry t i = none
  linked : entry' t i = some n
  empty : ∀ j, entry' n j = none
  other : ∀ u j, u ≠ n → (u ≠ t ∨ j ≠ i) → entry' u j = entry u j

/-- A table is fresh for a root if no walk of length at most `d` reaches it. -/
def Fresh (entry : τ → ι → Option τ) (d : ℕ) (r n : τ) : Prop :=
  ∀ q : List ι, q.length ≤ d → walk entry r q ≠ some n

/-- Tables of different depth are different, over all roots of a set. -/
def Leveled (entry : τ → ι → Option τ) (R : Set τ) (d : ℕ) : Prop :=
  ∀ r ∈ R, ∀ r' ∈ R, ∀ (p q : List ι) (t : τ), p.length ≤ d → q.length ≤ d →
    walk entry r p = some t → walk entry r' q = some t → p.length = q.length

/-- Different paths from a root reach different tables. -/
def Distinct (entry : τ → ι → Option τ) (r : τ) (d : ℕ) : Prop :=
  ∀ (p q : List ι) (t : τ), p.length ≤ d → q.length ≤ d →
    walk entry r p = some t → walk entry r q = some t → p = q

section Link

variable {entry entry' : τ → ι → Option τ} {r t n u : τ} {i : ι} {d : ℕ}

/-- Linking a fresh table adds exactly the paths that end in the new slot. -/
theorem Link.walk_iff (h : Link entry entry' t i n) (hf : Fresh entry d r n) :
    ∀ (q : List ι) (u : τ), q.length ≤ d →
      (walk entry' r q = some u ↔
        walk entry r q = some u ∨ u = n ∧ ∃ p, q = p ++ [i] ∧ walk entry r p = some t) := by
  intro q
  induction q using List.reverseRecOn with
  | nil =>
    intro u _
    simp
  | append_singleton q j ih =>
    intro u hq
    rw [List.length_append, List.length_singleton] at hq
    have hq' : q.length ≤ d := by omega
    rw [walk_snoc, walk_snoc, Option.bind_eq_some_iff, Option.bind_eq_some_iff]
    constructor
    · rintro ⟨v, hv, hvu⟩
      rcases (ih v hq').mp hv with hv | ⟨rfl, -⟩
      · have hvn : v ≠ n := fun e => hf q hq' (e ▸ hv)
        by_cases hti : v = t ∧ j = i
        · obtain ⟨rfl, rfl⟩ := hti
          rw [h.linked] at hvu
          exact Or.inr ⟨(Option.some.inj hvu).symm, q, rfl, hv⟩
        · rw [h.other v j hvn (by tauto)] at hvu
          exact Or.inl ⟨v, hv, hvu⟩
      · rw [h.empty] at hvu
        exact absurd hvu (by simp)
    · rintro (⟨v, hv, hvu⟩ | ⟨rfl, p, hp, hpt⟩)
      · refine ⟨v, (ih v hq').mpr (Or.inl hv), ?_⟩
        rw [h.other v j (fun e => hf q hq' (e ▸ hv)) ?_]
        · exact hvu
        · by_contra hc
          obtain ⟨rfl, rfl⟩ : v = t ∧ j = i := by tauto
          rw [h.absent] at hvu
          exact absurd hvu (by simp)
      · obtain ⟨rfl, hj⟩ := List.append_inj' hp rfl
        obtain rfl : j = i := List.head_eq_of_cons_eq hj
        exact ⟨t, (ih t hq').mpr (Or.inl hpt), h.linked⟩

/-- Paths that existed before a link still reach the same table. -/
theorem Link.walk_mono (h : Link entry entry' t i n) (hf : Fresh entry d r n) {q : List ι}
    (hq : q.length ≤ d) (hw : walk entry r q = some u) : walk entry' r q = some u :=
  (h.walk_iff hf q u hq).mpr (Or.inl hw)

/-- Linking a fresh table into a table that the root does not reach changes no walk from it. -/
theorem Link.walk_eq (h : Link entry entry' t i n) (hf : Fresh entry d r n)
    (ht : Fresh entry d r t) {q : List ι} (hq : q.length ≤ d) :
    walk entry' r q = walk entry r q := by
  refine Option.ext fun u => ?_
  rw [h.walk_iff hf q u hq]
  constructor
  · rintro (hw | ⟨-, p, rfl, hp⟩)
    · exact hw
    · rw [List.length_append] at hq
      exact absurd hp (ht p (by omega))
  · exact Or.inl

theorem Link.leveled {R : Set τ} (h : Link entry entry' t i n) (hl : Leveled entry R d)
    (hf : ∀ r ∈ R, Fresh entry d r n) : Leveled entry' R d := by
  intro r hr r' hr' p q u hp hq hwp hwq
  rcases (h.walk_iff (hf r hr) p u hp).mp hwp with hp' | ⟨rfl, a, rfl, ha⟩
  · rcases (h.walk_iff (hf r' hr') q u hq).mp hwq with hq' | ⟨rfl, -⟩
    · exact hl r hr r' hr' p q u hp hq hp' hq'
    · exact absurd hp' (hf r hr p hp)
  · rcases (h.walk_iff (hf r' hr') q u hq).mp hwq with hq' | ⟨-, b, rfl, hb⟩
    · exact absurd hq' (hf r' hr' q hq)
    · rw [List.length_append] at hp hq ⊢
      rw [List.length_append, hl r hr r' hr' a b t (by omega) (by omega) ha hb]

theorem Link.distinct (h : Link entry entry' t i n) (hd : Distinct entry r d)
    (hf : Fresh entry d r n) : Distinct entry' r d := by
  intro p q u hp hq hwp hwq
  rcases (h.walk_iff hf p u hp).mp hwp with hp' | ⟨rfl, a, rfl, ha⟩
  · rcases (h.walk_iff hf q u hq).mp hwq with hq' | ⟨rfl, -⟩
    · exact hd p q u hp hq hp' hq'
    · exact absurd hp' (hf p hp)
  · rcases (h.walk_iff hf q u hq).mp hwq with hq' | ⟨-, b, rfl, hb⟩
    · exact absurd hq' (hf q hq)
    · rw [List.length_append] at hp hq
      rw [hd a b t (by omega) (by omega) ha hb]

end Link

end TableWalk
