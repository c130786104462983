import Kenux.Lib.Run
import Mathlib.Algebra.Ring.Int.Defs
import Mathlib.Data.Multiset.AddSub

/-!
# Ledgers of acquired and released resources

A ledger is the list of acquisitions and releases a system makes, in order. Replaying it yields the
multiset of resources that are held, and fails at a release of something not held. A stretch of a
ledger is settled when it leaves what was held as it was, whatever that is.
-/

namespace Ledger

open Run

variable {α : Type*} [DecidableEq α]

inductive Event (α : Type*) where
  | acquire (a : α)
  | release (a : α)
  deriving DecidableEq

/-- One event; a release of what is not held has no outcome. -/
def Event.apply (held : Multiset α) : Event α → Option (Multiset α)
  | .acquire a => some (a ::ₘ held)
  | .release a => if a ∈ held then some (held.erase a) else none

theorem Event.apply_release {held : Multiset α} {a : α} (h : a ∈ held) :
    Event.apply held (.release a) = some (held.erase a) := if_pos h

theorem Event.apply_release_some {held held' : Multiset α} {a : α}
    (h : Event.apply held (.release a) = some held') : a ∈ held ∧ held.erase a = held' := by
  change (if a ∈ held then some (held.erase a) else none) = some held' at h
  split_ifs at h with ha
  exact ⟨ha, Option.some.inj h⟩

/-- What is held after a list of events. -/
def replay (held : Multiset α) (es : List (Event α)) : Option (Multiset α) :=
  run Event.apply held es

theorem replay_append (held : Multiset α) (es fs : List (Event α)) :
    replay held (es ++ fs) = (replay held es).bind fun h => replay h fs :=
  run_append held es fs

theorem replay_acquire (held : Multiset α) (a : α) (es : List (Event α)) :
    replay held (.acquire a :: es) = replay (a ::ₘ held) es := rfl

/-- Things acquired last can be released in the order they were acquired. -/
theorem replay_releases (held : Multiset α) (as : List α) :
    replay ((as : Multiset α) + held) (as.map .release) = some held := by
  induction as with
  | nil => simp [replay]
  | cons a as ih =>
    have hstep : Event.apply (((a :: as : List α) : Multiset α) + held) (.release a) =
        some ((as : Multiset α) + held) := by
      rw [← Multiset.cons_coe, Multiset.cons_add,
        Event.apply_release (Multiset.mem_cons_self a _), Multiset.erase_cons_head]
    unfold replay at ih ⊢
    rw [List.map_cons, run_cons hstep, ih]

/-- The events leave the multiset of held things as it was. -/
def Settled (es : List (Event α)) : Prop := ∀ held, replay held es = some held

theorem Settled.nil : Settled ([] : List (Event α)) := fun _ => rfl

theorem Settled.acquire_release (a : α) : Settled [Event.acquire a, .release a] := by
  intro held
  have := replay_releases held [a]
  rw [replay_acquire]
  simpa using this

/-! ## Balance -/

def Event.weight : Event α → ℤ
  | .acquire _ => 1
  | .release _ => -1

/-- Acquisitions minus releases. -/
def balance (es : List (Event α)) : ℤ := (es.map Event.weight).sum

omit [DecidableEq α] in
theorem balance_append (es fs : List (Event α)) : balance (es ++ fs) = balance es + balance fs := by
  simp [balance]

/-- The balance is how many more things are held. -/
theorem replay_card {held held' : Multiset α} {es : List (Event α)}
    (h : replay held es = some held') : (held'.card : ℤ) = held.card + balance es := by
  induction es generalizing held with
  | nil =>
    obtain rfl := Option.some.inj h
    simp [balance]
  | cons e es ih =>
    obtain ⟨u, hu, h⟩ := Option.bind_eq_some_iff.mp h
    have hcard : (u.card : ℤ) = held.card + e.weight := by
      cases e with
      | acquire a =>
        obtain rfl := Option.some.inj hu
        simp [Event.weight]
      | release a =>
        obtain ⟨ha, rfl⟩ := Event.apply_release_some hu
        have := Multiset.card_erase_add_one ha
        simp only [Event.weight]
        omega
    rw [ih h, hcard]
    simp [balance, Int.add_assoc]

/-- A ledger that balances has settled everything. -/
theorem replay_eq_zero {es : List (Event α)} {held : Multiset α} (h : replay 0 es = some held)
    (hb : balance es ≤ 0) : held = 0 := by
  have := replay_card h
  rw [Multiset.card_zero] at this
  exact Multiset.card_eq_zero.mp (by omega)

end Ledger
