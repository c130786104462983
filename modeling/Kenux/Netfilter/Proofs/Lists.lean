import Kenux.Lib.Ordered
import Kenux.Netfilter.Model

/-!
# Hook lists

Lists of objects stand for the links: registering is an ordered insertion, unregistering takes an element out, and
taking back what was registered last gives the list that was there before.
-/

namespace Netfilter

open SList Ordered
open Function (update_self update_of_ne update_idem update_eq_self)

variable {ν : Type} [DecidableEq ν] {obj : ν → HookOps} {fuel i j : ℕ} {h h' : Hooks ν} {L L' : ℕ → List ν} {reg x : ν}

section Lists

theorem setPtr_next (h : Hooks ν) (i : ℕ) (slot v : Option ν) (x : ν) :
    (h.setPtr i slot v).next x = if slot = some x then v else h.next x := by
  cases slot with
  | none => rfl
  | some y =>
    unfold Hooks.setPtr
    dsimp only
    by_cases hxy : x = y
    · rw [hxy, update_self, if_pos rfl]
    · rw [update_of_ne hxy, if_neg fun heq => hxy (Option.some.inj heq).symm]

theorem setPtr_heads (h : Hooks ν) (i j : ℕ) (slot v : Option ν) :
    (h.setPtr i slot v).heads j = if j = i ∧ slot = none then v else h.heads j := by
  cases slot with
  | none =>
    unfold Hooks.setPtr
    dsimp only
    by_cases hji : j = i
    · rw [hji, update_self, if_pos ⟨rfl, rfl⟩]
    · rw [update_of_ne hji, if_neg fun hyes => hji hyes.1]
  | some y => exact (if_neg fun hyes => Option.some_ne_none y hyes.2).symm

variable (obj) in
/-- The lists that the links stand for. -/
structure Repr (h : Hooks ν) (L : ℕ → List ν) : Prop where
  chained : ∀ i < nfInetNumhooks, Chained h.next (h.heads i) (L i)
  nodup : ∀ i < nfInetNumhooks, (L i).Nodup
  own : ∀ i < nfInetNumhooks, ∀ x ∈ L i, listOf obj x = some i
  short : ∀ i < nfInetNumhooks, (L i).length ≤ nfMaxHooksPerHook

variable (obj) in
def Sooner (x y : ν) : Prop := (obj x).priority < (obj y).priority

instance : DecidableRel (Sooner obj) := fun x y => inferInstanceAs (Decidable ((obj x).priority < (obj y).priority))

variable (obj) in
def insertIn (L : ℕ → List ν) (i : ℕ) (reg : ν) : ℕ → List ν := Function.update L i ((L i).orderedInsert (Sooner obj) reg)

variable (obj) in
def eraseIn (L : ℕ → List ν) (reg : ν) : ℕ → List ν :=
  match listOf obj reg with
  | none => L
  | some i => Function.update L i ((L i).erase reg)

omit [DecidableEq ν] in
theorem listOf_lt (hi : listOf obj reg = some i) : i < nfInetNumhooks := by
  unfold listOf at hi
  split_ifs at hi with hno
  obtain rfl := Option.some.inj hi
  omega

theorem erase_insertIn (hi : listOf obj reg = some i) (hnot : reg ∉ L i) :
    eraseIn obj (insertIn obj L i reg) reg = L := by
  unfold eraseIn insertIn
  rw [hi]
  dsimp only
  rw [update_self, List.erase_orderedInsert_of_notMem hnot, update_idem, update_eq_self]

omit [DecidableEq ν] in
/-- One list changes, and only objects of it have new links. -/
theorem Repr.change {l : List ν} (hr : Repr obj h L)
    (hchained : Chained h'.next (h'.heads i) l) (hnodup : l.Nodup) (hown : ∀ x ∈ l, listOf obj x = some i)
    (hshort : l.length ≤ nfMaxHooksPerHook) (hheads : ∀ j ≠ i, h'.heads j = h.heads j)
    (hnext : ∀ x, listOf obj x ≠ some i → h'.next x = h.next x) : Repr obj h' (Function.update L i l) := by
  have hcases : ∀ {P : ℕ → List ν → Prop}, P i l → (∀ j < nfInetNumhooks, j ≠ i → P j (L j)) →
      ∀ j < nfInetNumhooks, P j (Function.update L i l j) := by
    intro P hP hothers j hj
    by_cases hji : j = i
    · rw [hji, update_self]
      exact hP
    · rw [update_of_ne hji]
      exact hothers j hj hji
  refine ⟨hcases hchained fun j hj hji => ?_, hcases hnodup fun j hj _ => hr.nodup j hj,
    hcases (P := fun j m => ∀ x ∈ m, listOf obj x = some j) hown fun j hj _ => hr.own j hj,
    hcases (P := fun _ m => m.length ≤ nfMaxHooksPerHook) hshort fun j hj _ => hr.short j hj⟩
  rw [hheads j hji]
  refine (hr.chained j hj).congr fun x hx => hnext x fun hown => hji ?_
  exact Option.some.inj ((hr.own j hj x hx).symm.trans hown)

variable (hfuel : nfMaxHooksPerHook ≤ fuel)

include hfuel

omit [DecidableEq ν] in
theorem Repr.count (hr : Repr obj h L) (hi : i < nfInetNumhooks) : nfHooksCount fuel h i = some (L i).length :=
  (hr.chained i hi).count_eq (Nat.le_trans (hr.short i hi) hfuel)

theorem register_refused (hr : Repr obj h L)
    (hno : ∀ i, listOf obj reg = some i → nfMaxHooksPerHook ≤ (L i).length) :
    nfRegisterHook obj fuel h reg = some (false, h) := by
  unfold nfRegisterHook
  cases hi : listOf obj reg with
  | none => rfl
  | some i =>
    have hfull : (L i).length ≥ nfMaxHooksPerHook := hno i hi
    dsimp only
    rw [hr.count hfuel (listOf_lt hi), Option.bind_eq_bind, Option.bind_some, if_pos hfull]
    rfl

theorem register_spec (hr : Repr obj h L) (hi : listOf obj reg = some i) (hnot : reg ∉ L i)
    (hlt : (L i).length < nfMaxHooksPerHook) :
    ∃ h', nfRegisterHook obj fuel h reg = some (true, h') ∧ Repr obj h' (insertIn obj L i reg) := by
  have hin := listOf_lt hi
  have hchained := hr.chained i hin
  have hnodup := hr.nodup i hin
  obtain ⟨l₁, hl₁⟩ : ∃ l, l = (L i).takeWhile fun y => !decide (Sooner obj reg y) := ⟨_, rfl⟩
  obtain ⟨l₂, hl₂⟩ : ∃ l, l = (L i).dropWhile fun y => !decide (Sooner obj reg y) := ⟨_, rfl⟩
  have hsplit : L i = l₁ ++ l₂ := by rw [hl₁, hl₂, List.takeWhile_append_dropWhile]
  have hinsert : (L i).orderedInsert (Sooner obj) reg = l₁ ++ reg :: l₂ := by
    rw [List.orderedInsert_eq_take_drop, hl₁, hl₂]
    simp
  have hpassed : ∀ y ∈ l₁, decide (Sooner obj reg y) = false := by
    intro y hy
    rw [hl₁] at hy
    have hnot := List.all_eq_true.mp List.all_takeWhile y hy
    simpa using hnot
  have hstop : ∀ y, l₂.head? = some y → decide (Sooner obj reg y) = true := by
    intro y hy
    have hfirst := List.head?_dropWhile_not (fun y => !decide (Sooner obj reg y)) (L i)
    rw [← hl₂, hy] at hfirst
    simpa using hfirst
  rw [hsplit] at hchained hnodup hnot
  have hlen : (l₁ ++ l₂).length ≤ fuel := by
    rw [← hsplit]
    omega
  have hplace : stop h.next (fun y => decide ((obj reg).priority < (obj y).priority)) fuel none (h.heads i) =
      some (l₁.getLast?, l₂.head?) := by
    rw [← Option.or_none (o := l₁.getLast?)]
    exact hchained.stop_eq hpassed hstop hlen none
  refine ⟨(h.setNext reg l₂.head?).setPtr i l₁.getLast? (some reg), ?_, ?_⟩
  · unfold nfRegisterHook nfInsertHookSorted
    rw [hi]
    dsimp only
    rw [hr.count hfuel hin, Option.bind_eq_bind, Option.bind_some, if_neg (Nat.not_le.mpr hlt), hplace]
    rfl
  · unfold insertIn
    rw [hinsert]
    have hnext : ∀ x, ((h.setNext reg l₂.head?).setPtr i l₁.getLast? (some reg)).next x =
        if l₁.getLast? = some x then some reg else if x = reg then l₂.head? else h.next x := by
      intro x
      rw [setPtr_next]
      by_cases hx : x = reg
      · rw [hx, if_pos rfl]
        exact if_congr Iff.rfl rfl (update_self _ _ _)
      · rw [if_neg hx]
        exact if_congr Iff.rfl rfl (update_of_ne hx _ _)
    have hmem : ∀ x ∈ l₁ ++ reg :: l₂, x = reg ∨ x ∈ l₁ ++ l₂ := fun x hx => by
      rw [List.mem_append, List.mem_cons] at hx
      rw [List.mem_append]
      tauto
    have hown : ∀ x ∈ l₁ ++ l₂, listOf obj x = some i := fun x hx => hr.own i hin x (hsplit ▸ hx)
    refine hr.change ?_ ?_ ?_ ?_ ?_ ?_
    · rw [setPtr_heads]
      have hhead : (if i = i ∧ l₁.getLast? = none then some reg else (h.setNext reg l₂.head?).heads i) =
          if l₁ = [] then some reg else h.heads i :=
        if_congr (by rw [List.getLast?_eq_none_iff]; exact and_iff_right rfl) rfl rfl
      rw [hhead]
      refine hchained.insert hnodup ?_ fun y hy => ?_
      · have hlast : l₁.getLast? ≠ some reg := fun hlast =>
          hnot (List.mem_append_left _ (List.mem_of_getLast? hlast))
        rw [hnext, if_neg hlast, if_pos rfl]
      · have hne : y ≠ reg := fun heq => hnot (heq ▸ hy)
        rw [hnext, if_neg hne]
    · exact (List.nodup_middle).mpr (List.nodup_cons.mpr ⟨hnot, hnodup⟩)
    · intro x hx
      rcases hmem x hx with rfl | hx
      · exact hi
      · exact hown x hx
    · have hlength : (l₁ ++ reg :: l₂).length = (L i).length + 1 := by
        rw [hsplit]
        simp
        omega
      omega
    · intro j hji
      rw [setPtr_heads, if_neg fun hyes => hji hyes.1]
      rfl
    · intro x hx
      have hne : x ≠ reg := fun heq => hx (heq ▸ hi)
      have hlast : l₁.getLast? ≠ some x := fun hlast =>
        hx (hown x (List.mem_append_left _ (List.mem_of_getLast? hlast)))
      rw [hnext, if_neg hlast, if_neg hne]

theorem unregister_spec (hr : Repr obj h L) (reg : ν) :
    ∃ h', nfUnregisterHook obj fuel h reg = some h' ∧ Repr obj h' (eraseIn obj L reg) := by
  unfold nfUnregisterHook eraseIn
  cases hi : listOf obj reg with
  | none => exact ⟨h, rfl, hr⟩
  | some i =>
    have hin := listOf_lt hi
    have hchained := hr.chained i hin
    have hlen : (L i).length ≤ fuel := Nat.le_trans (hr.short i hin) hfuel
    dsimp only
    by_cases hreg : reg ∈ L i
    swap
    · rw [hchained.slotOf_missing hreg hlen none, List.erase_of_not_mem hreg, update_eq_self]
      exact ⟨h, rfl, hr⟩
    obtain ⟨l₁, l₂, hsplit⟩ := List.append_of_mem hreg
    have hnodup := hr.nodup i hin
    rw [hsplit] at hchained hlen hnodup
    have hnot : reg ∉ l₁ ++ l₂ := (List.nodup_cons.mp (List.nodup_middle.mp hnodup)).1
    have hnot₁ : reg ∉ l₁ := fun hmem => hnot (List.mem_append_left _ hmem)
    have herase : (L i).erase reg = l₁ ++ l₂ := by
      rw [hsplit, List.erase_append_right _ hnot₁, List.erase_cons_head]
    rw [hchained.slotOf_eq hnot₁ hlen none, herase, Option.or_none]
    refine ⟨_, rfl, ?_⟩
    have hnext : ∀ x ≠ reg, ((h.setPtr i l₁.getLast? (h.next reg)).setNext reg none).next x =
        if l₁.getLast? = some x then h.next reg else h.next x := by
      intro x hx
      rw [← setPtr_next]
      exact update_of_ne hx _ _
    have hown : ∀ x ∈ l₁ ++ l₂, listOf obj x = some i := fun x hx => hr.own i hin x (by
      rw [hsplit, List.mem_append, List.mem_cons]
      rw [List.mem_append] at hx
      tauto)
    have hheads : ∀ j, ((h.setPtr i l₁.getLast? (h.next reg)).setNext reg none).heads j =
        if j = i ∧ l₁.getLast? = none then h.next reg else h.heads j := fun j => setPtr_heads h i j _ _
    refine hr.change ?_ ?_ hown ?_ ?_ ?_
    · rw [hheads]
      have hhead : (if i = i ∧ l₁.getLast? = none then h.next reg else h.heads i) =
          if l₁ = [] then h.next reg else h.heads i :=
        if_congr (by rw [List.getLast?_eq_none_iff]; exact and_iff_right rfl) rfl rfl
      rw [hhead]
      refine hchained.unlink hnodup fun y hy => hnext y ?_
      rintro rfl
      exact hnot hy
    · exact (List.nodup_cons.mp (List.nodup_middle.mp hnodup)).2
    · have hshort := hr.short i hin
      rw [← herase]
      exact Nat.le_trans List.length_erase_le hshort
    · intro j hji
      rw [hheads, if_neg fun hyes => hji hyes.1]
    · intro x hx
      have hne : x ≠ reg := fun heq => hx (heq ▸ hi)
      have hlast : l₁.getLast? ≠ some x := fun hlast =>
        hx (hown x (List.mem_append_left _ (List.mem_of_getLast? hlast)))
      rw [hnext x hne, if_neg hlast]

end Lists

end Netfilter
