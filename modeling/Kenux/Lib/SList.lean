import Mathlib.Data.List.Nodup

/-!
# Intrusive singly linked lists

A chain of nodes that carry the link to the next one. Walks have fuel; `none` is a walk that does not end
within it, and a walk along a well-formed chain ends.
-/

namespace SList

variable {ν : Type*}

/-- The chain that starts at `cur` has the nodes `l`. -/
def Chained (nx : ν → Option ν) : Option ν → List ν → Prop
  | cur, [] => cur = none
  | cur, x :: xs => cur = some x ∧ Chained nx (nx x) xs

/-- The first node that meets `p` from `cur` on. -/
def search (nx : ν → Option ν) (p : ν → Bool) : ℕ → Option ν → Option (Option ν)
  | _, none => some none
  | 0, some _ => none
  | fuel + 1, some x => if p x then some (some x) else search nx p fuel (nx x)

/-- Where the pointer to `x` stands in the chain that goes on at `cur`: at the start of the chain
(`none`), or in a node. The pointer to `cur` stands at `slot`. -/
def slotOf [DecidableEq ν] (nx : ν → Option ν) (x : ν) :
    ℕ → Option ν → Option ν → Option (Option (Option ν))
  | _, _, none => some none
  | 0, _, some _ => none
  | fuel + 1, slot, some y => if y = x then some (some slot) else slotOf nx x fuel (some y) (nx y)

/-- The place of the first pointer, along the chain that goes on at `cur`, which is null or leads to a node that meets
`p`, and where it leads. The pointer to `cur` stands at `slot`. -/
def stop (nx : ν → Option ν) (p : ν → Bool) : ℕ → Option ν → Option ν → Option (Option ν × Option ν)
  | _, slot, none => some (slot, none)
  | 0, _, some _ => none
  | fuel + 1, slot, some y => if p y then some (slot, some y) else stop nx p fuel (some y) (nx y)

/-- The number of nodes from `cur` on. -/
def count (nx : ν → Option ν) : ℕ → Option ν → Option ℕ
  | _, none => some 0
  | 0, some _ => none
  | fuel + 1, some y => (count nx fuel (nx y)).map (· + 1)

section

variable {nx nx' : ν → Option ν} {cur : Option ν} {l l₁ l₂ : List ν} {x : ν}

theorem Chained.congr (h : Chained nx cur l) (hn : ∀ y ∈ l, nx' y = nx y) : Chained nx' cur l := by
  induction l generalizing cur with
  | nil => exact h
  | cons y ys ih =>
    refine ⟨h.1, ?_⟩
    rw [hn y List.mem_cons_self]
    exact ih h.2 fun z hz => hn z (List.mem_cons_of_mem y hz)

theorem Chained.head_eq (h : Chained nx cur l) : cur = l.head? := by
  cases l with
  | nil => exact h
  | cons y ys => exact h.1

/-- Behind the first nodes is the chain of the others. -/
theorem Chained.suffix (h : Chained nx cur (l₁ ++ l₂)) : Chained nx l₂.head? l₂ := by
  induction l₁ generalizing cur with
  | nil => exact h.head_eq ▸ h
  | cons y ys ih => exact ih h.2

theorem Chained.next_eq (h : Chained nx cur (l₁ ++ x :: l₂)) : nx x = l₂.head? := h.suffix.2.head_eq

theorem Chained.search_eq (h : Chained nx cur l) {fuel : ℕ} (hf : l.length ≤ fuel) (p : ν → Bool) :
    search nx p fuel cur = some (l.find? p) := by
  induction l generalizing cur fuel with
  | nil =>
    rw [show cur = none from h]
    unfold search
    rfl
  | cons y ys ih =>
    rw [List.length_cons] at hf
    obtain ⟨fuel, rfl⟩ := Nat.exists_eq_succ_of_ne_zero (show fuel ≠ 0 by omega)
    rw [h.1]
    unfold search
    by_cases hy : p y = true
    · rw [if_pos hy, List.find?_cons_of_pos hy]
    · rw [if_neg hy, List.find?_cons_of_neg hy]
      exact ih h.2 (by omega)

/-- A new node is put in front. -/
theorem Chained.push (h : Chained nx cur l) (hx : nx' x = cur) (hn : ∀ y ∈ l, nx' y = nx y) :
    Chained nx' (some x) (x :: l) := by
  refine ⟨rfl, ?_⟩
  rw [hx]
  exact h.congr hn

theorem Chained.unique {l' : List ν} (h : Chained nx cur l) (h' : Chained nx cur l') : l = l' := by
  induction l generalizing cur l' with
  | nil =>
    cases l' with
    | nil => rfl
    | cons y ys => cases h.symm.trans h'.1
  | cons x xs ih =>
    cases l' with
    | nil => cases h'.symm.trans h.1
    | cons y ys =>
      obtain rfl : x = y := Option.some.inj (h.1.symm.trans h'.1)
      rw [ih h.2 h'.2]

theorem Chained.count_eq (h : Chained nx cur l) {fuel : ℕ} (hf : l.length ≤ fuel) :
    count nx fuel cur = some l.length := by
  induction l generalizing cur fuel with
  | nil =>
    rw [show cur = none from h]
    unfold count
    rfl
  | cons y ys ih =>
    rw [List.length_cons] at hf
    obtain ⟨fuel, rfl⟩ := Nat.exists_eq_succ_of_ne_zero (show fuel ≠ 0 by omega)
    rw [h.1]
    unfold count
    rw [ih h.2 (by omega), List.length_cons]
    rfl

theorem Chained.stop_eq (h : Chained nx cur (l₁ ++ l₂)) {p : ν → Bool} (h₁ : ∀ y ∈ l₁, p y = false)
    (h₂ : ∀ y, l₂.head? = some y → p y = true) {fuel : ℕ} (hf : (l₁ ++ l₂).length ≤ fuel) (slot : Option ν) :
    stop nx p fuel slot cur = some (l₁.getLast?.or slot, l₂.head?) := by
  induction l₁ generalizing cur fuel slot with
  | nil =>
    cases l₂ with
    | nil =>
      rw [show cur = none from h]
      unfold stop
      rfl
    | cons y ys =>
      obtain ⟨fuel, rfl⟩ := Nat.exists_eq_succ_of_ne_zero (show fuel ≠ 0 by simp at hf; omega)
      rw [h.1]
      unfold stop
      exact if_pos (h₂ y rfl)
  | cons y ys ih =>
    rw [List.cons_append, List.length_cons] at hf
    obtain ⟨fuel, rfl⟩ := Nat.exists_eq_succ_of_ne_zero (show fuel ≠ 0 by omega)
    have hy : ¬p y = true := by
      rw [h₁ y List.mem_cons_self]
      exact Bool.false_ne_true
    rw [h.1]
    unfold stop
    rw [if_neg hy, ih h.2 (fun z hz => h₁ z (List.mem_cons_of_mem y hz)) (by omega)]
    cases ys with
    | nil => rfl
    | cons z zs => simp [List.getLast?_cons]

variable [DecidableEq ν]

/-- What setting the link behind `l₁` to another chain makes of the chain. -/
theorem Chained.relink {c : Option ν} (h : Chained nx cur (l₁ ++ l₂)) (hnd : l₁.Nodup) (hl : Chained nx' c l)
    (hn : ∀ y ∈ l₁, nx' y = if l₁.getLast? = some y then c else nx y) :
    Chained nx' (if l₁ = [] then c else cur) (l₁ ++ l) := by
  induction l₁ generalizing cur with
  | nil => rwa [if_pos rfl]
  | cons y ys ih =>
    rw [if_neg (List.cons_ne_nil y ys)]
    obtain ⟨hy, hys⟩ := List.nodup_cons.mp hnd
    refine ⟨h.1, ?_⟩
    have htail := ih h.2 hys fun z hz => by
      rw [hn z (List.mem_cons_of_mem y hz)]
      cases ys with
      | nil => exact absurd hz List.not_mem_nil
      | cons w ws => rw [List.getLast?_cons_cons]
    rw [hn y List.mem_cons_self]
    cases ys with
    | nil => simpa using htail
    | cons w ws =>
      have hlast : (w :: ws).getLast? ≠ some y := fun hlast => hy (List.mem_of_getLast? hlast)
      rw [List.getLast?_cons_cons, if_neg hlast]
      simpa using htail

/-- What setting the link behind `l₁` to a new node, with a link to the rest, makes of the chain. -/
theorem Chained.insert (h : Chained nx cur (l₁ ++ l₂)) (hnd : (l₁ ++ l₂).Nodup) (hx : nx' x = l₂.head?)
    (hn : ∀ y ∈ l₁ ++ l₂, nx' y = if l₁.getLast? = some y then some x else nx y) :
    Chained nx' (if l₁ = [] then some x else cur) (l₁ ++ x :: l₂) := by
  obtain ⟨hnd₁, -, hdisj⟩ := List.nodup_append.mp hnd
  have hrest := h.suffix.congr fun y hy => (hn y (List.mem_append_right _ hy)).trans
    (if_neg fun hlast => hdisj y (List.mem_of_getLast? hlast) y hy rfl)
  exact h.relink hnd₁ ⟨rfl, hx ▸ hrest⟩ fun y hy => hn y (List.mem_append_left _ hy)

theorem Chained.slotOf_eq (h : Chained nx cur (l₁ ++ x :: l₂)) (hx : x ∉ l₁) {fuel : ℕ}
    (hf : (l₁ ++ x :: l₂).length ≤ fuel) (slot : Option ν) :
    slotOf nx x fuel slot cur = some (some (l₁.getLast?.or slot)) := by
  induction l₁ generalizing cur fuel slot with
  | nil =>
    obtain ⟨fuel, rfl⟩ := Nat.exists_eq_succ_of_ne_zero (show fuel ≠ 0 by simp at hf; omega)
    rw [h.1]
    unfold slotOf
    exact if_pos rfl
  | cons y ys ih =>
    rw [List.cons_append, List.length_cons] at hf
    obtain ⟨fuel, rfl⟩ := Nat.exists_eq_succ_of_ne_zero (show fuel ≠ 0 by omega)
    rw [List.mem_cons, not_or] at hx
    obtain ⟨hxy, hxs⟩ := hx
    rw [h.1]
    unfold slotOf
    rw [if_neg (Ne.symm hxy), ih h.2 hxs (by omega)]
    cases ys with
    | nil => rfl
    | cons z zs => simp [List.getLast?_cons]

theorem Chained.slotOf_missing (h : Chained nx cur l) (hx : x ∉ l) {fuel : ℕ} (hf : l.length ≤ fuel)
    (slot : Option ν) : slotOf nx x fuel slot cur = some none := by
  induction l generalizing cur fuel slot with
  | nil =>
    rw [show cur = none from h]
    unfold slotOf
    rfl
  | cons y ys ih =>
    rw [List.length_cons] at hf
    obtain ⟨fuel, rfl⟩ := Nat.exists_eq_succ_of_ne_zero (show fuel ≠ 0 by omega)
    obtain ⟨hxy, hxs⟩ := not_or.mp (List.mem_cons.not.mp hx)
    rw [h.1]
    unfold slotOf
    rw [if_neg (Ne.symm hxy)]
    exact ih h.2 hxs (by omega) (some y)

/-- What the link before `x` is set to the link of `x` makes of the chain. -/
theorem Chained.unlink (h : Chained nx cur (l₁ ++ x :: l₂)) (hnd : (l₁ ++ x :: l₂).Nodup)
    (hn : ∀ y ∈ l₁ ++ l₂, nx' y = if l₁.getLast? = some y then nx x else nx y) :
    Chained nx' (if l₁ = [] then nx x else cur) (l₁ ++ l₂) := by
  obtain ⟨hnd₁, -, hdisj⟩ := List.nodup_append.mp hnd
  have hrest := h.suffix.2.congr fun y hy => (hn y (List.mem_append_right _ hy)).trans
    (if_neg fun hlast => hdisj y (List.mem_of_getLast? hlast) y (List.mem_cons_of_mem x hy) rfl)
  exact h.relink hnd₁ hrest fun y hy => hn y (List.mem_append_left _ hy)

end

end SList

/-!
## Chains of keyed entries

A chain is a list of entries whose keys are distinct, as in a bucket of a hash table: finding the entry
for a key, replacing it where it stands and unlinking it.
-/

namespace Chain

variable {E K : Type*} [DecidableEq K] {key : E → K} {k k' : K} {l : List E} {e new : E}

/-- Whether an entry has the key. -/
def has (key : E → K) (k : K) (e : E) : Bool := key e = k

/-- Puts an entry in the place of the first one that is looked for. -/
def replaceFirst (p : E → Bool) (new : E) : List E → List E
  | [] => []
  | e :: es => if p e then new :: es else e :: replaceFirst p new es

theorem find?_eq_none : l.find? (has key k) = none ↔ k ∉ l.map key := by
  rw [List.find?_eq_none, List.mem_map]
  constructor
  · rintro h ⟨e, he, rfl⟩
    exact h e he (decide_eq_true rfl)
  · intro h e he hk
    exact h ⟨e, he, of_decide_eq_true hk⟩

theorem key_of_find? (h : l.find? (has key k) = some e) : key e = k := by
  have hkey := List.find?_some h
  exact of_decide_eq_true hkey

theorem find?_cons_self (h : key e = k) : (e :: l).find? (has key k) = some e :=
  List.find?_cons_of_pos (decide_eq_true h)

theorem find?_cons_ne (h : key e ≠ k) : (e :: l).find? (has key k) = l.find? (has key k) :=
  List.find?_cons_of_neg (by simpa [has] using h)

section Congr

variable {p q : E → Bool}

omit [DecidableEq K] in
theorem replaceFirst_congr (h : ∀ e ∈ l, p e = q e) : replaceFirst p new l = replaceFirst q new l := by
  induction l with
  | nil => rfl
  | cons a l ih =>
    unfold replaceFirst
    rw [h a List.mem_cons_self, ih fun e he => h e (List.mem_cons_of_mem a he)]

omit [DecidableEq K] in
theorem eraseP_congr (h : ∀ e ∈ l, p e = q e) : l.eraseP p = l.eraseP q := by
  induction l with
  | nil => rfl
  | cons a l ih =>
    rw [List.eraseP_cons, List.eraseP_cons, h a List.mem_cons_self,
      ih fun e he => h e (List.mem_cons_of_mem a he)]

end Congr

section Replace

theorem replaceFirst_cons_pos (h : key e = k) : replaceFirst (has key k) new (e :: l) = new :: l :=
  if_pos (decide_eq_true h)

theorem replaceFirst_cons_neg (h : key e ≠ k) :
    replaceFirst (has key k) new (e :: l) = e :: replaceFirst (has key k) new l :=
  if_neg (by simpa [has] using h)

theorem mem_replaceFirst {p : E → Bool} (h : e ∈ replaceFirst p new l) : e ∈ l ∨ e = new := by
  induction l with
  | nil => exact .inl h
  | cons a l ih =>
    unfold replaceFirst at h
    split_ifs at h
    · rcases List.mem_cons.mp h with rfl | h
      · exact .inr rfl
      · exact .inl (List.mem_cons_of_mem a h)
    · rcases List.mem_cons.mp h with rfl | h
      · exact .inl List.mem_cons_self
      · exact (ih h).imp_left (List.mem_cons_of_mem a)

theorem map_replaceFirst (hnew : key new = k) :
    (replaceFirst (has key k) new l).map key = l.map key := by
  induction l with
  | nil => rfl
  | cons a l ih =>
    by_cases ha : key a = k
    · rw [replaceFirst_cons_pos ha, List.map_cons, List.map_cons, hnew, ha]
    · rw [replaceFirst_cons_neg ha, List.map_cons, List.map_cons, ih]

theorem find?_replaceFirst_self (hnew : key new = k) (hk : k ∈ l.map key) :
    (replaceFirst (has key k) new l).find? (has key k) = some new := by
  induction l with
  | nil => exact absurd hk List.not_mem_nil
  | cons a l ih =>
    by_cases ha : key a = k
    · rw [replaceFirst_cons_pos ha, find?_cons_self hnew]
    · rw [replaceFirst_cons_neg ha, find?_cons_ne ha]
      rw [List.map_cons] at hk
      exact ih ((List.mem_cons.mp hk).resolve_left (Ne.symm ha))

theorem find?_replaceFirst_ne (hnew : key new = k) (hne : k ≠ k') :
    (replaceFirst (has key k) new l).find? (has key k') = l.find? (has key k') := by
  induction l with
  | nil => rfl
  | cons a l ih =>
    by_cases ha : key a = k
    · rw [replaceFirst_cons_pos ha, find?_cons_ne (hnew ▸ hne), find?_cons_ne (ha ▸ hne)]
    · rw [replaceFirst_cons_neg ha]
      by_cases ha' : key a = k'
      · rw [find?_cons_self ha', find?_cons_self ha']
      · rw [find?_cons_ne ha', find?_cons_ne ha', ih]

end Replace

section Erase

theorem eraseP_cons_pos (h : key e = k) : (e :: l).eraseP (has key k) = l :=
  List.eraseP_cons_of_pos (decide_eq_true h)

theorem eraseP_cons_neg (h : key e ≠ k) : (e :: l).eraseP (has key k) = e :: l.eraseP (has key k) :=
  List.eraseP_cons_of_neg (by simpa [has] using h)

theorem find?_eraseP_self (hl : (l.map key).Nodup) : (l.eraseP (has key k)).find? (has key k) = none := by
  induction l with
  | nil => rfl
  | cons a l ih =>
    rw [List.map_cons, List.nodup_cons] at hl
    by_cases ha : key a = k
    · rw [eraseP_cons_pos ha, find?_eq_none, ← ha]
      exact hl.1
    · rw [eraseP_cons_neg ha, find?_cons_ne ha, ih hl.2]

theorem find?_eraseP_ne (hne : k ≠ k') :
    (l.eraseP (has key k)).find? (has key k') = l.find? (has key k') := by
  induction l with
  | nil => rfl
  | cons a l ih =>
    by_cases ha : key a = k
    · rw [eraseP_cons_pos ha, find?_cons_ne (ha ▸ hne)]
    · rw [eraseP_cons_neg ha]
      by_cases ha' : key a = k'
      · rw [find?_cons_self ha', find?_cons_self ha']
      · rw [find?_cons_ne ha', find?_cons_ne ha', ih]

omit [DecidableEq K] in
theorem nodup_eraseP {p : E → Bool} (hl : (l.map key).Nodup) : ((l.eraseP p).map key).Nodup :=
  hl.sublist (List.eraseP_sublist.map key)

end Erase

end Chain
