import Mathlib.Data.Finset.Card

/-!
# Depth-first postorder

Each node is finished after all its successors, and a node that is met while it is being visited closes a cycle. The
successors of a node are computed, and the computation may fail.
-/

namespace DepthFirst

open Relation

variable {α ε σ : Type*}

/-- The finished nodes in the order in which they were finished, and the nodes on the stack. -/
structure State (α : Type*) where
  ordered : List α
  visiting : List α

inductive Error (α ε : Type*) where
  | cycle (a : α)
  | succs (e : ε)

/-- Visits one node after the other, until one fails. `none` is a recursion that was cut off. -/
def visitAll (visit : α → σ → Option (Except ε σ)) : List α → σ → Option (Except ε σ)
  | [], s => some (.ok s)
  | a :: as, s =>
    match visit a s with
    | some (.ok t) => visitAll visit as t
    | r => r

/-- The edges of the graph. -/
def Edge (succs : α → Except ε (List α)) (a b : α) : Prop := ∃ as, succs a = .ok as ∧ b ∈ as

/-- From `a` a node is reached that lies on a cycle or whose successors are not known. -/
def Bad (succs : α → Except ε (List α)) (a : α) : Prop :=
  ∃ b, ReflTransGen (Edge succs) a b ∧ (TransGen (Edge succs) b b ∨ ∃ e, succs b = .error e)

/-- No node twice, and every node behind its successors. -/
structure Topological (succs : α → Except ε (List α)) (order : List α) : Prop where
  nodup : order.Nodup
  known : ∀ a ∈ order, ∃ as, succs a = .ok as
  before : ∀ l a l', order = l ++ a :: l' → ∀ b, Edge succs a b → b ∈ l

variable {succs : α → Except ε (List α)} {order : List α} {a b : α}

theorem Topological.nil : Topological succs [] :=
  ⟨List.nodup_nil, by simp, fun l a l' h => by simp at h⟩

/-- A node is finished when its successors are. -/
theorem Topological.snoc (h : Topological succs order) (ha : a ∉ order) {as : List α} (hk : succs a = .ok as)
    (has : ∀ b ∈ as, b ∈ order) : Topological succs (order ++ [a]) := by
  refine ⟨?_, ?_, ?_⟩
  · refine List.nodup_append.mpr ⟨h.nodup, by simp, fun x hx y hy hxy => ?_⟩
    obtain rfl : y = a := by simpa using hy
    exact ha (hxy ▸ hx)
  · intro x hx
    rcases List.mem_append.mp hx with hx | hx
    · exact h.known x hx
    · obtain rfl : x = a := by simpa using hx
      exact ⟨as, hk⟩
  · intro l x l' heq y hy
    rcases List.eq_nil_or_concat l' with rfl | ⟨l', z, rfl⟩
    · obtain ⟨rfl, hx⟩ := List.append_inj' heq rfl
      obtain rfl : a = x := by simpa using hx
      obtain ⟨as', hk', hmem⟩ := hy
      obtain rfl := Except.ok.inj (hk.symm.trans hk')
      exact has y hmem
    · have heq' : order ++ [a] = (l ++ x :: l') ++ [z] := by simpa using heq
      obtain ⟨hinit, -⟩ := List.append_inj' heq' rfl
      exact h.before l x l' hinit y hy

theorem Topological.mem_of_edge (h : Topological succs order) (ha : a ∈ order) (hab : Edge succs a b) : b ∈ order := by
  obtain ⟨l, l', rfl⟩ := List.append_of_mem ha
  exact List.mem_append_left _ (h.before l a l' rfl b hab)

theorem Topological.mem_of_reach (h : Topological succs order) (ha : a ∈ order)
    (hab : ReflTransGen (Edge succs) a b) : b ∈ order := by
  induction hab with
  | refl => exact ha
  | tail _ hbc ih => exact h.mem_of_edge ih hbc

/-- What a visit may leave of the state: the order grows by what is reached from `a`, the stack is as before. -/
structure Visited (succs : α → Except ε (List α)) (start : α → Prop) (s t : State α) : Prop where
  topological : Topological succs t.ordered
  visiting : t.visiting = s.visiting
  apart : ∀ v ∈ t.visiting, v ∉ t.ordered
  grows : ∀ b ∈ s.ordered, b ∈ t.ordered
  reached : ∀ b ∈ t.ordered, b ∈ s.ordered ∨ ∃ a, start a ∧ ReflTransGen (Edge succs) a b

/-- The visits of a list of nodes, when the visit of each does what it should. -/
theorem visitAll_spec {start : α → Prop} {v : α → State α → Option (Except (Error α ε) (State α))} {l : List α}
    {s t : State α} (ht : Visited succs start s t)
    (hv : ∀ a ∈ l, ∀ t, Visited succs start s t →
      (∃ u, v a t = some (.ok u) ∧ Visited succs start t u ∧ a ∈ u.ordered) ∨
        ∃ e, v a t = some (.error e) ∧ Bad succs a) :
    (∃ u, visitAll v l t = some (.ok u) ∧ Visited succs start s u ∧ (∀ a ∈ t.ordered, a ∈ u.ordered) ∧
        ∀ a ∈ l, a ∈ u.ordered) ∨
      ∃ e, visitAll v l t = some (.error e) ∧ ∃ a ∈ l, Bad succs a := by
  induction l generalizing t with
  | nil => exact .inl ⟨t, rfl, ht, fun _ h => h, by simp⟩
  | cons a l ih =>
    rcases hv a List.mem_cons_self t ht with ⟨u, hu, hvis, ha⟩ | ⟨e, he, hbad⟩
    · have hsu : Visited succs start s u := by
        refine ⟨hvis.topological, hvis.visiting.trans ht.visiting, hvis.apart, fun b hb => hvis.grows b (ht.grows b hb),
          fun b hb => ?_⟩
        rcases hvis.reached b hb with hb | hb
        · exact ht.reached b hb
        · exact .inr hb
      have heq : visitAll v (a :: l) t = visitAll v l u := by simp [visitAll, hu]
      rcases ih hsu fun b hb => hv b (List.mem_cons_of_mem _ hb) with ⟨w, hw, hsw, hgrow, hall⟩ | ⟨e, he, b, hb, hbad⟩
      · refine .inl ⟨w, heq.trans hw, hsw, fun b hb => hgrow b (hvis.grows b hb), fun b hb => ?_⟩
        rcases List.mem_cons.mp hb with rfl | hb
        · exact hgrow b ha
        · exact hall b hb
      · exact .inr ⟨e, heq.trans he, b, List.mem_cons_of_mem _ hb, hbad⟩
    · exact .inr ⟨e, by simp [visitAll, he], a, List.mem_cons_self, hbad⟩

variable [DecidableEq α]

def visit (succs : α → Except ε (List α)) : ℕ → α → State α → Option (Except (Error α ε) (State α))
  | 0, _, _ => none
  | n + 1, a, s =>
    if a ∈ s.ordered then some (.ok s)
    else if a ∈ s.visiting then some (.error (.cycle a))
    else
      match succs a with
      | .error e => some (.error (.succs e))
      | .ok as =>
        match visitAll (visit succs n) as { s with visiting := a :: s.visiting } with
        | some (.ok t) => some (.ok ⟨t.ordered ++ [a], t.visiting.erase a⟩)
        | r => r

/-- The postorder from the roots on. -/
def postorder (succs : α → Except ε (List α)) (n : ℕ) (roots : List α) : Option (Except (Error α ε) (List α)) :=
  (visitAll (visit succs n) roots ⟨[], []⟩).map fun r => r.map State.ordered

/-- What is reached from a node by an edge or more stands before it. -/
theorem Topological.idxOf_lt (h : Topological succs order) (ha : a ∈ order) (hab : TransGen (Edge succs) a b) :
    order.idxOf b < order.idxOf a := by
  have hone {a b : α} (ha : a ∈ order) (hab : Edge succs a b) : order.idxOf b < order.idxOf a := by
    obtain ⟨l, l', rfl⟩ := List.append_of_mem ha
    have hb := h.before l a l' rfl b hab
    have hal : a ∉ l := by
      have hnd := List.nodup_append.mp h.nodup
      exact fun hal => hnd.2.2 a hal a List.mem_cons_self rfl
    rw [List.idxOf_append_of_mem hb, List.idxOf_append_of_notMem hal, List.idxOf_cons_self]
    have hlt := List.idxOf_lt_length_of_mem hb
    omega
  induction hab with
  | single hab => exact hone ha hab
  | tail hab hbc ih => exact (hone (h.mem_of_reach ha hab.to_reflTransGen) hbc).trans ih

/-- From a node of a topological order nothing bad is reached. -/
theorem Topological.not_bad (h : Topological succs order) (ha : a ∈ order) : ¬ Bad succs a := by
  rintro ⟨b, hab, hcycle | ⟨e, he⟩⟩
  · exact lt_irrefl _ (h.idxOf_lt (h.mem_of_reach ha hab) hcycle)
  · obtain ⟨as, has⟩ := h.known b (h.mem_of_reach ha hab)
    rw [he] at has
    cases has

variable {nodes : Finset α}

/-- A visit finishes its node or has found something bad, if the depth suffices for the nodes not on the stack. -/
theorem visit_spec (hclosed : ∀ a b, Edge succs a b → b ∈ nodes) {n : ℕ} {s : State α} (ha : a ∈ nodes)
    (hn : (nodes \ s.visiting.toFinset).card < n) (htop : Topological succs s.ordered)
    (hapart : ∀ v ∈ s.visiting, v ∉ s.ordered) (hstack : ∀ v ∈ s.visiting, TransGen (Edge succs) v a) :
    (∃ t, visit succs n a s = some (.ok t) ∧ Visited succs (· = a) s t ∧ a ∈ t.ordered) ∨
      ∃ e, visit succs n a s = some (.error e) ∧ Bad succs a := by
  induction n generalizing a s with
  | zero => omega
  | succ n ih =>
    by_cases hord : a ∈ s.ordered
    · refine .inl ⟨s, by simp [visit, hord], ⟨htop, rfl, hapart, fun _ h => h, fun b hb => .inl hb⟩, hord⟩
    by_cases hvis : a ∈ s.visiting
    · exact .inr ⟨.cycle a, by simp [visit, hord, hvis], a, .refl, .inl (hstack a hvis)⟩
    cases hk : succs a with
    | error e => exact .inr ⟨.succs e, by simp [visit, hord, hvis, hk], a, .refl, .inr ⟨e, hk⟩⟩
    | ok as =>
      have hedge : ∀ b ∈ as, Edge succs a b := fun b hb => ⟨as, hk, hb⟩
      -- the node is put on the stack
      have hs₁ : Visited succs (· ∈ as) ⟨s.ordered, a :: s.visiting⟩ ⟨s.ordered, a :: s.visiting⟩ := by
        refine ⟨htop, rfl, fun v hv => ?_, fun _ h => h, fun b hb => .inl hb⟩
        rcases List.mem_cons.mp hv with rfl | hv
        · exact hord
        · exact hapart v hv
      have hcard : (nodes \ (a :: s.visiting).toFinset).card < n := by
        have hsub : nodes \ (a :: s.visiting).toFinset = (nodes \ s.visiting.toFinset).erase a := by
          ext x
          simp only [Finset.mem_sdiff, List.mem_toFinset, List.mem_cons, Finset.mem_erase]
          tauto
        rw [hsub, Finset.card_erase_of_mem (by simp [ha, hvis])]
        have hpos : 0 < (nodes \ s.visiting.toFinset).card := Finset.card_pos.mpr ⟨a, by simp [ha, hvis]⟩
        omega
      have hall := visitAll_spec (v := visit succs n) (l := as) hs₁ fun b hb t ht => by
        have hfuel : (nodes \ t.visiting.toFinset).card < n := by
          rw [ht.visiting]
          exact hcard
        have hpath : ∀ v ∈ t.visiting, TransGen (Edge succs) v b := by
          rw [ht.visiting]
          intro v hv
          rcases List.mem_cons.mp hv with rfl | hv
          · exact .single (hedge b hb)
          · exact (hstack v hv).tail (hedge b hb)
        rcases ih (hclosed a b (hedge b hb)) hfuel ht.topological ht.apart hpath with ⟨u, hu, hvis, hbu⟩ | hbad
        · refine .inl ⟨u, hu, ⟨hvis.topological, hvis.visiting, hvis.apart, hvis.grows, fun c hc => ?_⟩, hbu⟩
          rcases hvis.reached c hc with hc | ⟨b', rfl, hbc⟩
          · exact .inl hc
          · exact .inr ⟨b', hb, hbc⟩
        · exact .inr hbad
      rcases hall with ⟨t, ht, hst, -, hmem⟩ | ⟨e, he, b, hb, c, hbc, hbad⟩
      · have hat : a ∉ t.ordered := hst.apart a (by rw [hst.visiting]; exact List.mem_cons_self)
        have hstackt : t.visiting.erase a = s.visiting := by
          rw [hst.visiting, List.erase_cons_head]
        refine .inl ⟨⟨t.ordered ++ [a], t.visiting.erase a⟩, by simp [visit, hord, hvis, hk, ht], ⟨?_, hstackt, ?_, ?_, ?_⟩,
          by simp⟩
        · exact hst.topological.snoc hat hk hmem
        · intro v hv
          dsimp only at hv
          rw [hstackt] at hv
          have hvt := hst.apart v (by rw [hst.visiting]; exact List.mem_cons_of_mem _ hv)
          rw [List.mem_append, List.mem_singleton, not_or]
          exact ⟨hvt, fun hva => hvis (hva ▸ hv)⟩
        · exact fun b hb => List.mem_append_left _ (hst.grows b hb)
        · intro b hb
          rcases List.mem_append.mp hb with hb | hb
          · rcases hst.reached b hb with hb | ⟨c, hc, hcb⟩
            · exact .inl hb
            · exact .inr ⟨a, rfl, .head (hedge c hc) hcb⟩
          · obtain rfl : b = a := by simpa using hb
            exact .inr ⟨b, rfl, .refl⟩
      · exact .inr ⟨e, by simp [visit, hord, hvis, hk, he], c, .head (hedge b hb) hbc, hbad⟩

/-- The postorder is a topological order of what is reached from the roots, or something bad is reached. -/
theorem postorder_spec (hclosed : ∀ a b, Edge succs a b → b ∈ nodes) {roots : List α} (hroots : ∀ a ∈ roots, a ∈ nodes)
    {n : ℕ} (hn : nodes.card < n) :
    (∃ order, postorder succs n roots = some (.ok order) ∧ Topological succs order ∧
        (∀ b, b ∈ order ↔ ∃ a ∈ roots, ReflTransGen (Edge succs) a b) ∧ ∀ a ∈ roots, ¬ Bad succs a) ∨
      ∃ e, postorder succs n roots = some (.error e) ∧ ∃ a ∈ roots, Bad succs a := by
  have hstart : Visited succs (· ∈ roots) ⟨[], []⟩ ⟨[], []⟩ :=
    ⟨.nil, rfl, by simp, by simp, by simp⟩
  have hall := visitAll_spec (v := visit succs n) (l := roots) hstart fun a ha t ht => by
    have hfuel : (nodes \ t.visiting.toFinset).card < n := lt_of_le_of_lt (Finset.card_le_card Finset.sdiff_subset) hn
    have hempty : ∀ v ∈ t.visiting, TransGen (Edge succs) v a := by
      rw [ht.visiting]
      simp
    rcases visit_spec hclosed (hroots a ha) hfuel ht.topological ht.apart hempty with ⟨u, hu, hvis, hau⟩ | hbad
    · refine .inl ⟨u, hu, ⟨hvis.topological, hvis.visiting, hvis.apart, hvis.grows, fun c hc => ?_⟩, hau⟩
      rcases hvis.reached c hc with hc | ⟨b, rfl, hbc⟩
      · exact .inl hc
      · exact .inr ⟨b, ha, hbc⟩
    · exact .inr hbad
  rcases hall with ⟨t, ht, hst, -, hmem⟩ | ⟨e, he, a, ha, hbad⟩
  · refine .inl ⟨t.ordered, by simp [postorder, ht, Except.map], hst.topological, fun b => ⟨fun hb => ?_, ?_⟩,
      fun a ha => hst.topological.not_bad (hmem a ha)⟩
    · rcases hst.reached b hb with hb | ⟨a, ha, hab⟩
      · simp at hb
      · exact ⟨a, ha, hab⟩
    · rintro ⟨a, ha, hab⟩
      exact hst.topological.mem_of_reach (hmem a ha) hab
  · exact .inr ⟨e, by simp [postorder, he, Except.map], a, ha, hbad⟩

end DepthFirst
