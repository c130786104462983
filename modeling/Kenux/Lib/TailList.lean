import Kenux.Lib.DList

/-!
# Lists whose first node points back to the last one

The last node has no next one, and the node before the first one is the last: the list is entered at the front,
appended to at the back and walked forwards.
-/

namespace TailList

open DList

variable {ν : Type*}

/-- The list that starts at `head` has the nodes `l` and is well formed. -/
structure IsTailList (nx pv : ν → Option ν) (head : Option ν) (l : List ν) : Prop where
  head_eq : head = l.head?
  linked : Linked nx pv l.getLast? l
  nodup : l.Nodup

variable {nx pv nx' pv' : ν → Option ν} {b head : Option ν} {l l₁ l₂ : List ν} {x y : ν}

theorem IsTailList.nil : IsTailList nx pv none [] := ⟨rfl, trivial, List.nodup_nil⟩

theorem IsTailList.congr (h : IsTailList nx pv head l) (hn : ∀ y ∈ l, nx' y = nx y) (hp : ∀ y ∈ l, pv' y = pv y) :
    IsTailList nx' pv' head l :=
  ⟨h.head_eq, h.linked.congr hn hp, h.nodup⟩

/-- One node alone. -/
theorem IsTailList.singleton (hn : nx x = none) (hp : pv x = some x) : IsTailList nx pv (some x) [x] :=
  ⟨rfl, ⟨hp, hn, trivial⟩, List.nodup_singleton x⟩

/-- Before the first node is the last one. -/
theorem IsTailList.prev_head (h : IsTailList nx pv (some y) l) : pv y = l.getLast? := by
  obtain ⟨hhead, hlinked, -⟩ := h
  cases l with
  | nil => exact nomatch hhead
  | cons z zs =>
    obtain rfl := Option.some.inj hhead
    exact hlinked.1

theorem linked_append [DecidableEq ν] (h : Linked nx pv b l) (hnd : l.Nodup) (hx : nx' x = none)
    (hpx : pv' x = l.getLast?.or b) (hn : ∀ y ∈ l, nx' y = if l.getLast? = some y then some x else nx y)
    (hp : ∀ y ∈ l, pv' y = pv y) : Linked nx' pv' b (l ++ [x]) := by
  induction l generalizing b with
  | nil => exact ⟨hpx, hx, trivial⟩
  | cons y ys ih =>
    obtain ⟨hprev, hnext, hrest⟩ := h
    obtain ⟨hy, hys⟩ := List.nodup_cons.mp hnd
    refine ⟨(hp y List.mem_cons_self).trans hprev, ?_, ih hrest hys ?_ (fun z hz => ?_) fun z hz =>
      hp z (List.mem_cons_of_mem y hz)⟩
    · rw [hn y List.mem_cons_self]
      cases ys with
      | nil => simp
      | cons z zs =>
        rw [if_neg, hnext]
        · rfl
        · rw [List.getLast?_cons_cons]
          exact fun hlast => hy (List.mem_of_getLast? hlast)
    · rw [hpx]
      cases ys with
      | nil => simp
      | cons z zs => simp [List.getLast?_cons]
    · rw [hn z (List.mem_cons_of_mem y hz)]
      cases ys with
      | nil => exact absurd hz List.not_mem_nil
      | cons w ws => rw [List.getLast?_cons_cons]

/-- A new node is put behind the last one. -/
theorem IsTailList.append [DecidableEq ν] (h : IsTailList nx pv (some y) l) (hxl : x ∉ l) (hx : nx' x = none)
    (hpx : pv' x = l.getLast?) (hn : ∀ z ∈ l, nx' z = if l.getLast? = some z then some x else nx z)
    (hp : ∀ z ∈ l, pv' z = if z = y then some x else pv z) : IsTailList nx' pv' (some y) (l ++ [x]) := by
  obtain ⟨hhead, hlinked, hnd⟩ := h
  cases l with
  | nil => exact nomatch hhead
  | cons w ws =>
    obtain rfl := Option.some.inj hhead
    obtain ⟨hprev, hnext, hrest⟩ := hlinked
    obtain ⟨hw, hws⟩ := List.nodup_cons.mp hnd
    refine ⟨rfl, ?_, ?_⟩
    · rw [List.getLast?_append, List.getLast?_singleton]
      refine ⟨(hp y List.mem_cons_self).trans (if_pos rfl), ?_, linked_append hrest hws hx ?_ (fun z hz => ?_)
        fun z hz => ?_⟩
      · rw [hn y List.mem_cons_self]
        cases ws with
        | nil => simp
        | cons z zs =>
          rw [if_neg, hnext]
          · rfl
          · rw [List.getLast?_cons_cons]
            exact fun hlast => hw (List.mem_of_getLast? hlast)
      · rw [hpx]
        cases ws with
        | nil => simp
        | cons z zs => simp [List.getLast?_cons]
      · rw [hn z (List.mem_cons_of_mem y hz)]
        cases ws with
        | nil => exact absurd hz List.not_mem_nil
        | cons v vs => rw [List.getLast?_cons_cons]
      · rw [hp z (List.mem_cons_of_mem y hz), if_neg]
        rintro rfl
        exact hw hz
    · exact List.nodup_append.mpr ⟨hnd, List.nodup_singleton x, fun a ha c hc heq =>
        hxl (List.mem_singleton.mp hc ▸ heq ▸ ha)⟩

/-- A node with others before and behind it is unlinked. -/
theorem IsTailList.unlink [DecidableEq ν] (h : IsTailList nx pv head (l₁ ++ x :: l₂)) (h₁ : l₁ ≠ []) (h₂ : l₂ ≠ [])
    (hn : ∀ z ∈ l₁ ++ l₂, nx' z = if pv x = some z then nx x else nx z)
    (hp : ∀ z ∈ l₁ ++ l₂, pv' z = if nx x = some z then pv x else pv z) :
    IsTailList nx' pv' head (l₁ ++ l₂) := by
  obtain ⟨hhead, hlinked, hnd⟩ := h
  have hlast : (l₁ ++ x :: l₂).getLast? = (l₁ ++ l₂).getLast? := by
    cases l₂ with
    | nil => exact absurd rfl h₂
    | cons z zs => simp [List.getLast?_append, List.getLast?_cons]
  cases l₁ with
  | nil => exact absurd rfl h₁
  | cons w ws =>
    have hneighbours := @Linked.neighbours _ _ _ _ (w :: ws) _ _ hlinked
    rw [hlast] at hlinked
    obtain ⟨hprev, hnext, hrest⟩ := hlinked
    obtain ⟨hw, hws⟩ := List.nodup_cons.mp hnd
    have hxw : nx x ≠ some w := by
      rw [hneighbours.1]
      exact fun heq => hw (List.mem_append_right _ (List.mem_cons_of_mem x (List.mem_of_mem_head? heq)))
    refine ⟨hhead, ⟨?_, ?_, hrest.unlink hws ?_ ?_ ?_⟩, hnd.sublist ?_⟩
    · rw [hp w List.mem_cons_self, if_neg hxw, hprev]
    · rw [hn w List.mem_cons_self, hneighbours.2]
      cases ws with
      | nil =>
        rw [if_pos (by simp), hneighbours.1]
        rfl
      | cons v vs =>
        rw [if_neg, hnext]
        · rfl
        · have hv : (w :: v :: vs).getLast? ≠ some w := by
            rw [List.getLast?_cons_cons]
            exact fun hlast => hw (List.mem_append_left _ (List.mem_of_getLast? hlast))
          simpa using hv
    · intro z hz
      rw [← Option.some.inj hz]
      exact hw
    · exact fun z hz => hn z (List.mem_cons_of_mem w hz)
    · exact fun z hz => hp z (List.mem_cons_of_mem w hz)
    · exact List.Sublist.append_left (List.sublist_cons_self x l₂) (w :: ws)

theorem IsTailList.chained (h : IsTailList nx pv head l) : SList.Chained nx head l :=
  h.head_eq ▸ h.linked.chained

/-- The nodes that are reached from the head are those of the list. -/
theorem IsTailList.reaches_iff (h : IsTailList nx pv head l) : Reaches nx head x ↔ x ∈ l :=
  h.head_eq ▸ h.linked.reaches_iff

end TailList

/-!
## Doubly linked lists with a tail pointer

Lists that are entered at the front, left anywhere and walked from the back.
-/

namespace Deque

open DList SList

variable {ν : Type*}

/-- The list between `head` and `tail` has the nodes `l` and is well formed. -/
structure IsDeque (nx pv : ν → Option ν) (head tail : Option ν) (l : List ν) : Prop extends
    IsDList nx pv head l where
  tail_eq : tail = l.getLast?

variable {nx pv nx' pv' : ν → Option ν} {b head tail head' tail' : Option ν} {l l₁ l₂ : List ν} {x : ν}

theorem IsDeque.nil : IsDeque nx pv none none [] := ⟨.nil, rfl⟩

theorem IsDeque.congr (h : IsDeque nx pv head tail l) (hn : ∀ y ∈ l, nx' y = nx y)
    (hp : ∀ y ∈ l, pv' y = pv y) : IsDeque nx' pv' head tail l :=
  ⟨h.toIsDList.congr hn hp, h.tail_eq⟩

/-- The neighbours of a node. -/
theorem IsDeque.neighbours (h : IsDeque nx pv head tail (l₁ ++ x :: l₂)) :
    nx x = l₂.head? ∧ pv x = l₁.getLast? := by
  obtain ⟨hnext, hprev⟩ := h.linked.neighbours
  exact ⟨hnext, by simpa using hprev⟩

variable [DecidableEq ν]

theorem IsDeque.push (h : IsDeque nx pv head tail l) (hx : x ∉ l) (hnx : nx' x = head)
    (hpx : pv' x = none) (hn : ∀ y ∈ l, nx' y = nx y)
    (hp : ∀ y ∈ l, pv' y = if head = some y then some x else pv y)
    (ht : tail' = if head = none then some x else tail) : IsDeque nx' pv' (some x) tail' (x :: l) := by
  refine ⟨h.toIsDList.push hx hnx hpx hn hp, ?_⟩
  have hhead := h.head_eq
  rw [ht, h.tail_eq]
  cases l with
  | nil => rw [hhead]; rfl
  | cons y ys =>
    rw [hhead, List.getLast?_cons_cons]
    rfl

/-- A node is taken out: its neighbours, or the ends of the list, are joined. -/
theorem IsDeque.remove (h : IsDeque nx pv head tail (l₁ ++ x :: l₂))
    (hn : ∀ y ∈ l₁ ++ l₂, nx' y = if pv x = some y then nx x else nx y)
    (hp : ∀ y ∈ l₁ ++ l₂, pv' y = if nx x = some y then pv x else pv y)
    (hh : head' = if pv x = none then nx x else head)
    (ht : tail' = if nx x = none then pv x else tail) : IsDeque nx' pv' head' tail' (l₁ ++ l₂) := by
  obtain ⟨hnext, hprev⟩ := h.neighbours
  refine ⟨⟨?_, h.linked.unlink h.nodup (by simp) hn hp, ?_⟩, ?_⟩
  · rw [hh, h.head_eq, hnext, hprev]
    cases l₁ with
    | nil => rfl
    | cons w ws =>
      rw [if_neg (by simp)]
      rfl
  · exact h.nodup.sublist (List.Sublist.append_left (List.sublist_cons_self x l₂) l₁)
  · rw [ht, h.tail_eq, hnext, hprev]
    cases l₂ with
    | nil => rw [List.append_nil]; rfl
    | cons w ws =>
      rw [if_neg (by simp)]
      simp [List.getLast?_append, List.getLast?_cons_cons]

omit [DecidableEq ν] in
theorem linked_backwards (h : Linked nx pv b l) : ∀ l', Chained pv b l' →
    Chained pv (l.getLast?.or b) (l.reverse ++ l') := by
  induction l generalizing b with
  | nil => exact fun l' h' => h'
  | cons x xs ih =>
    intro l' h'
    obtain ⟨hprev, -, hrest⟩ := h
    have hx : Chained pv (some x) (x :: l') := ⟨rfl, hprev.symm ▸ h'⟩
    have hlast : (x :: xs).getLast?.or b = xs.getLast?.or (some x) := by
      cases xs with
      | nil => rfl
      | cons y ys => simp [List.getLast?_cons]
    rw [hlast, List.reverse_cons, List.append_assoc]
    exact ih hrest _ hx

omit [DecidableEq ν] in
/-- From the tail the previous pointers go through the list backwards. -/
theorem IsDeque.backwards (h : IsDeque nx pv head tail l) : Chained pv tail l.reverse := by
  have hback := linked_backwards h.linked [] rfl
  rwa [List.append_nil, Option.or_none, ← h.tail_eq] at hback

end Deque
