import Kenux.Conntrack.Model
import Kenux.Lib.Count
import Kenux.Lib.DList

/-!
# What the calls do to the table
-/

/-!
## The table of connections
-/

open Function (update_self update_of_ne)

namespace Conntrack

open Count DList

variable {s s' : State} {B : ℕ → List ℕ} {t : Tuple} {a : ℕ} {e : Entry}

def State.nx (s : State) (a : ℕ) : Option ℕ := (s.mem a).bind (·.next)

def State.pv (s : State) (a : ℕ) : Option ℕ := (s.mem a).bind (·.prev)

/-- The tuple is the entry's in one of the two directions. -/
def Covers (e : Entry) (t : Tuple) : Prop := e.tuple = t ∨ e.replyTuple = t

instance (e : Entry) (t : Tuple) : Decidable (Covers e t) := inferInstanceAs (Decidable (_ ∨ _))

/-- The buckets have the entries `B`, and every entry is in the bucket of both its tuples. -/
structure Inv (s : State) (B : ℕ → List ℕ) : Prop where
  list : ∀ i, IsDList s.nx s.pv (s.heads i) (B i)
  count : ∀ i, s.counts i = (B i).length
  total : s.totalCount = sumBelow (fun i => (B i).length) conntrackBuckets
  bounded : s.totalCount ≤ conntrackMax
  allocated : ∀ i, ∀ a ∈ B i, s.mem a ≠ none
  home : ∀ a e, s.mem a = some e →
    a ∈ B (conntrackTupleHash e.tuple) ∧ conntrackTupleHash e.replyTuple = conntrackTupleHash e.tuple
  one : ∀ i j, ∀ a ∈ B i, a ∈ B j → i = j
  reply : ∀ a e, s.mem a = some e → e.replyTuple = conntrackMakeReply e.tuple
  apart : ∀ a b e x t, s.mem a = some e → s.mem b = some x → Covers e t → Covers x t → a = b
  known : ∀ i, ∀ a ∈ B i, a ∈ s.known
  refcnt : ∀ a e, s.mem a = some e → e.refcnt = s.held a + 1 ∧ e.refcnt < 2 ^ 32
  held : ∀ a, 0 < s.held a → s.mem a ≠ none

theorem inv_start : Inv start fun _ => [] where
  list _ := .nil
  count _ := rfl
  total := (sumBelow_zero fun _ _ => rfl).symm
  bounded := Nat.zero_le _
  allocated _ _ h := absurd h List.not_mem_nil
  home _ _ h := nomatch h
  one _ _ _ h := absurd h List.not_mem_nil
  reply _ _ h := nomatch h
  apart _ _ _ _ _ h := nomatch h
  known _ _ h := absurd h List.not_mem_nil
  refcnt _ _ h := nomatch h
  held _ h := absurd h (Nat.lt_irrefl 0)

@[simp] theorem makeReply_makeReply (t : Tuple) : conntrackMakeReply (conntrackMakeReply t) = t := rfl

theorem tupleHash_lt (t : Tuple) : conntrackTupleHash t < conntrackBuckets := Nat.mod_lt _ (by decide)

theorem Inv.length_le (h : Inv s B) (i : ℕ) : (B i).length ≤ s.known.length :=
  ((h.list i).nodup.subperm (h.known i)).length_le

/-- Beyond the table there is nothing. -/
theorem Inv.eq_nil (h : Inv s B) {i : ℕ} (hi : conntrackBuckets ≤ i) : B i = [] := by
  refine List.eq_nil_iff_forall_not_mem.mpr fun a ha => ?_
  obtain ⟨e, he⟩ := Option.ne_none_iff_exists'.mp (h.allocated i a ha)
  have hhome := h.one _ _ a ha (h.home a e he).1
  have hlt := tupleHash_lt e.tuple
  omega

/-! ## Looking up -/

/-- Whether the entry at an address covers the tuple. -/
def State.covers (s : State) (t : Tuple) (a : ℕ) : Bool :=
  match s.mem a with
  | none => false
  | some e => decide (Covers e t)

theorem lookupLoop_eq {l : List ℕ} {cur : Option ℕ} {fuel : ℕ} (hchain : SList.Chained s.nx cur l)
    (hfuel : l.length ≤ fuel) (halloc : ∀ a ∈ l, s.mem a ≠ none) :
    lookupLoop t fuel cur s = some (l.find? (s.covers t)) := by
  induction l generalizing cur fuel with
  | nil =>
    obtain rfl : cur = none := hchain
    unfold lookupLoop
    rfl
  | cons a l ih =>
    obtain ⟨rfl, hrest⟩ := hchain
    rw [List.length_cons] at hfuel
    obtain ⟨fuel, rfl⟩ := Nat.exists_eq_succ_of_ne_zero (show fuel ≠ 0 by omega)
    obtain ⟨e, he⟩ := Option.ne_none_iff_exists'.mp (halloc a List.mem_cons_self)
    have hcovers : s.covers t a = decide (Covers e t) := by rw [State.covers, he]
    have hnext : s.nx a = e.next := by rw [State.nx, he, Option.bind_some]
    unfold lookupLoop
    rw [he]
    dsimp only
    by_cases htuple : e.tuple = t
    · rw [if_pos htuple, List.find?_cons_of_pos]
      rw [hcovers]
      exact decide_eq_true (.inl htuple)
    · rw [if_neg htuple]
      by_cases hreply : e.replyTuple = t
      · rw [if_pos hreply, List.find?_cons_of_pos]
        rw [hcovers]
        exact decide_eq_true (.inr hreply)
      · rw [if_neg hreply, List.find?_cons_of_neg, ← hnext]
        · exact ih hrest (by omega) fun b hb => halloc b (List.mem_cons_of_mem a hb)
        · rw [hcovers, decide_eq_true_eq]
          exact fun h => h.elim htuple hreply

theorem Inv.lookup_eq (h : Inv s B) (t : Tuple) :
    conntrackLookup t s = some ((B (conntrackTupleHash t)).find? (s.covers t)) :=
  lookupLoop_eq (h.list _).chained (h.length_le _) (h.allocated _)

/-- An entry is in the bucket of every tuple that it covers. -/
theorem Inv.mem_of_covers (h : Inv s B) (he : s.mem a = some e) (hc : Covers e t) : a ∈ B (conntrackTupleHash t) := by
  obtain ⟨hmem, hreply⟩ := h.home a e he
  rcases hc with rfl | rfl
  · exact hmem
  · rw [hreply]
    exact hmem

theorem covers_eq (he : s.mem a = some e) : s.covers t a = decide (Covers e t) := by rw [State.covers, he]

/-- An entry is found by every tuple that it covers. -/
theorem Inv.lookup_covers (h : Inv s B) (he : s.mem a = some e) (hc : Covers e t) :
    conntrackLookup t s = some (some a) := by
  rw [h.lookup_eq]
  cases hfind : (B (conntrackTupleHash t)).find? (s.covers t) with
  | none =>
    have hnot := List.find?_eq_none.mp hfind a (h.mem_of_covers he hc)
    rw [covers_eq he, decide_eq_true_eq] at hnot
    exact absurd hc hnot
  | some b =>
    obtain ⟨x, hx⟩ := Option.ne_none_iff_exists'.mp (h.allocated _ b (List.mem_of_find?_eq_some hfind))
    have hcovers := List.find?_some hfind
    rw [covers_eq hx, decide_eq_true_eq] at hcovers
    rw [h.apart a b e x t he hx hc hcovers]

/-- If nothing is found, no entry covers the tuple. -/
theorem Inv.lookup_none (h : Inv s B) (hnone : conntrackLookup t s = some none) (he : s.mem a = some e) :
    ¬ Covers e t := by
  intro hc
  rw [h.lookup_covers he hc] at hnone
  cases Option.some.inj hnone

theorem Inv.lookup_some (h : Inv s B) {r : Option ℕ} (hr : conntrackLookup t s = some r) (ha : r = some a) :
    ∃ e, s.mem a = some e ∧ Covers e t := by
  subst ha
  rw [h.lookup_eq] at hr
  have hfind := Option.some.inj hr
  obtain ⟨e, he⟩ := Option.ne_none_iff_exists'.mp (h.allocated _ a (List.mem_of_find?_eq_some hfind))
  have hcovers := List.find?_some hfind
  rw [covers_eq he, decide_eq_true_eq] at hcovers
  exact ⟨e, he, hcovers⟩

/-! ## Calls that change no links -/

/-- Entries change, but not in their tuples or links. -/
theorem Inv.same (h : Inv s B) {f : ℕ → Entry → Entry} (hmem : ∀ a, s'.mem a = (s.mem a).map (f a))
    (hf : ∀ a e, (f a e).tuple = e.tuple ∧ (f a e).replyTuple = e.replyTuple ∧ (f a e).next = e.next ∧
      (f a e).prev = e.prev)
    (hheads : s'.heads = s.heads) (hcounts : s'.counts = s.counts) (htotal : s'.totalCount = s.totalCount)
    (hknown : s'.known = s.known)
    (hrefcnt : ∀ a e, s.mem a = some e → (f a e).refcnt = s'.held a + 1 ∧ (f a e).refcnt < 2 ^ 32)
    (hheld : ∀ a, 0 < s'.held a → s.mem a ≠ none) : Inv s' B := by
  have hback {a : ℕ} {e : Entry} (he : s'.mem a = some e) : ∃ x, s.mem a = some x ∧ e = f a x := by
    rw [hmem] at he
    obtain ⟨x, hx, rfl⟩ := Option.map_eq_some_iff.mp he
    exact ⟨x, hx, rfl⟩
  have hne {a : ℕ} : s'.mem a ≠ none ↔ s.mem a ≠ none := by
    rw [hmem]
    cases s.mem a <;> simp
  have hnx : s'.nx = s.nx := by
    funext a
    unfold State.nx
    rw [hmem]
    cases s.mem a with
    | none => rfl
    | some e => exact (hf a e).2.2.1
  have hpv : s'.pv = s.pv := by
    funext a
    unfold State.pv
    rw [hmem]
    cases s.mem a with
    | none => rfl
    | some e => exact (hf a e).2.2.2
  refine ⟨fun i => ?_, fun i => ?_, ?_, ?_, fun i a ha => hne.mpr (h.allocated i a ha), fun a e he => ?_, h.one,
    fun a e he => ?_, fun a b e x t he hx hc hc' => ?_, fun i a ha => ?_, fun a e he => ?_, fun a ha => hne.mpr (hheld a ha)⟩
  · rw [hnx, hpv, hheads]
    exact h.list i
  · rw [hcounts]
    exact h.count i
  · rw [htotal]
    exact h.total
  · rw [htotal]
    exact h.bounded
  · obtain ⟨x, hx, rfl⟩ := hback he
    obtain ⟨htuple, hreply, -⟩ := hf a x
    rw [htuple, hreply]
    exact h.home a x hx
  · obtain ⟨x, hx, rfl⟩ := hback he
    obtain ⟨htuple, hreply, -⟩ := hf a x
    rw [htuple, hreply]
    exact h.reply a x hx
  · obtain ⟨e₀, he₀, rfl⟩ := hback he
    obtain ⟨x₀, hx₀, rfl⟩ := hback hx
    unfold Covers at hc hc'
    rw [(hf a e₀).1, (hf a e₀).2.1] at hc
    rw [(hf b x₀).1, (hf b x₀).2.1] at hc'
    exact h.apart a b e₀ x₀ t he₀ hx₀ hc hc'
  · rw [hknown]
    exact h.known i a ha
  · obtain ⟨x, hx, rfl⟩ := hback he
    exact hrefcnt a x hx

end Conntrack

namespace Conntrack

open Count DList

variable {s s' : State} {B : ℕ → List ℕ} {t : Tuple} {a b : ℕ} {e : Entry}

theorem modify_eq (f : Entry → Entry) (he : s.mem a = some e) :
    s.modify a f = some { s with mem := Function.update s.mem a (some (f e)) } := by rw [State.modify, he]

/-- One entry changes: what is read afterwards, in the shape `Inv.same` asks for. -/
theorem update_mem_eq (f : Entry → Entry) (he : s.mem a = some e) (c : ℕ) :
    Function.update s.mem a (some (f e)) c = (s.mem c).map fun x => if c = a then f x else x := by
  by_cases hc : c = a
  · subst hc
    rw [update_self, he, Option.map_some, if_pos rfl]
  · rw [update_of_ne hc]
    cases s.mem c with
    | none => rfl
    | some x => rw [Option.map_some, if_neg hc]

/-! ## Adding -/

/-- The entry `e` was put at address `a` in front of bucket `b`: the old first entry points back to it. -/
structure Inserted (s s' : State) (a b : ℕ) (e : Entry) : Prop where
  new : s'.mem a = some { e with next := s.heads b, prev := none }
  old : ∀ c, c ≠ a → s'.mem c = (s.mem c).map fun x => if s.heads b = some c then { x with prev := some a } else x
  heads : s'.heads = Function.update s.heads b (some a)
  counts : s'.counts = Function.update s.counts b ((s.counts b + 1) % 2 ^ 32)
  total : s'.totalCount = (s.totalCount + 1) % 2 ^ 32
  known : s'.known = a :: s.known
  held : s'.held = s.held

theorem insert_eq (h : Inv s B) (ha : s.mem a = none) (e : Entry) :
    ∃ s', insert a e s = some s' ∧ Inserted s s' a (conntrackTupleHash e.tuple) e := by
  have hlist := h.list (conntrackTupleHash e.tuple)
  have halloc := h.allocated (conntrackTupleHash e.tuple)
  unfold insert
  generalize conntrackTupleHash e.tuple = b at *
  dsimp only
  cases hhead : s.heads b with
  | none =>
    refine ⟨_, rfl, ?_, fun c hc => ?_, rfl, rfl, rfl, rfl, rfl⟩
    · dsimp only [State.setCount, State.setHead]
      rw [update_self, hhead]
    · dsimp only [State.setCount, State.setHead]
      rw [update_of_ne hc, hhead]
      cases s.mem c <;> rfl
  | some n =>
    have hmem : n ∈ B b := by
      rw [hlist.head_eq] at hhead
      exact List.mem_of_mem_head? hhead
    obtain ⟨x, hx⟩ := Option.ne_none_iff_exists'.mp (halloc n hmem)
    have hna : n ≠ a := by
      rintro rfl
      rw [ha] at hx
      cases hx
    dsimp only
    rw [modify_eq (e := x) _ (by dsimp only; rw [update_of_ne hna, hx])]
    refine ⟨_, rfl, ?_, fun c hc => ?_, rfl, rfl, rfl, rfl, rfl⟩
    · dsimp only [State.setCount, State.setHead]
      rw [update_of_ne hna.symm, update_self, hhead]
    · dsimp only [State.setCount, State.setHead]
      by_cases hcn : c = n
      · rw [hcn, update_self, hx, Option.map_some, hhead, if_pos rfl]
      · rw [update_of_ne hcn, update_of_ne hc, hhead]
        cases s.mem c with
        | none => rfl
        | some y => rw [Option.map_some, if_neg fun heq => hcn (Option.some.inj heq).symm]

/-- Only the link back of an old entry may differ. -/
theorem Inserted.back (h : Inserted s s' a b e) {c : ℕ} {x : Entry} (hc : c ≠ a) (hx : s'.mem c = some x) :
    ∃ y, s.mem c = some y ∧ x.tuple = y.tuple ∧ x.replyTuple = y.replyTuple ∧ x.refcnt = y.refcnt := by
  rw [h.old c hc] at hx
  obtain ⟨y, hy, rfl⟩ := Option.map_eq_some_iff.mp hx
  refine ⟨y, hy, ?_⟩
  by_cases hhead : s.heads b = some c <;> simp [hhead]

theorem Inserted.ne_none (h : Inserted s s' a b e) {c : ℕ} (hc : s.mem c ≠ none) : s'.mem c ≠ none := by
  by_cases hca : c = a
  · rw [hca, h.new]
    exact Option.some_ne_none _
  · obtain ⟨y, hy⟩ := Option.ne_none_iff_exists'.mp hc
    rw [h.old c hca, hy]
    exact Option.some_ne_none _

theorem Inserted.nx (h : Inserted s s' a b e) {c : ℕ} (hc : c ≠ a) : s'.nx c = s.nx c := by
  unfold State.nx
  rw [h.old c hc]
  cases s.mem c with
  | none => rfl
  | some y => by_cases hhead : s.heads b = some c <;> simp [hhead]

theorem Inserted.pv (h : Inserted s s' a b e) {c : ℕ} (hc : c ≠ a) (halloc : s.mem c ≠ none) :
    s'.pv c = if s.heads b = some c then some a else s.pv c := by
  obtain ⟨y, hy⟩ := Option.ne_none_iff_exists'.mp halloc
  unfold State.pv
  rw [h.old c hc, hy]
  by_cases hhead : s.heads b = some c <;> simp [hhead]

/-- Every bucket is a list afterwards. -/
theorem Inserted.list (hin : Inserted s s' a b e) (h : Inv s B) (ha : s.mem a = none) (i : ℕ) :
    IsDList s'.nx s'.pv (s'.heads i) (Function.update B b (a :: B b) i) := by
  have hnotin : a ∉ B i := fun hmem => h.allocated i a hmem ha
  have hne {c : ℕ} (hc : c ∈ B i) : c ≠ a := by
    rintro rfl
    exact hnotin hc
  rw [hin.heads]
  by_cases hi : i = b
  · subst hi
    rw [update_self, update_self]
    refine (h.list i).push hnotin ?_ ?_ (fun y hy => hin.nx (hne hy)) fun y hy => hin.pv (hne hy) (h.allocated i y hy)
    · rw [State.nx, hin.new, Option.bind_some]
    · rw [State.pv, hin.new, Option.bind_some]
  · rw [update_of_ne hi, update_of_ne hi]
    refine (h.list i).congr (fun y hy => hin.nx (hne hy)) fun y hy => ?_
    rw [hin.pv (hne hy) (h.allocated i y hy), if_neg]
    intro heq
    rw [(h.list b).head_eq] at heq
    exact hi (h.one i b y hy (List.mem_of_mem_head? heq))

/-- An address in a bucket is the new one in its bucket, or was there before. -/
theorem mem_push {i c : ℕ} : c ∈ Function.update B b (a :: B b) i ↔ c = a ∧ i = b ∨ c ∈ B i := by
  by_cases hi : i = b
  · subst hi
    simp
  · rw [update_of_ne hi]
    simp [hi]

/-- No entry covers either direction of a tuple that is not found. -/
theorem Inv.not_covers (h : Inv s B) (hnone : conntrackLookup t s = some none) {t' : Tuple}
    (ht : t' = t ∨ t' = conntrackMakeReply t) (he : s.mem a = some e) : ¬ Covers e t' := by
  have hreply := h.reply a e he
  intro hc
  refine h.lookup_none hnone he ?_
  rcases ht with rfl | rfl
  · exact hc
  · rcases hc with hc | hc
    · right
      rw [hreply, hc, makeReply_makeReply]
    · left
      rw [← makeReply_makeReply e.tuple, ← hreply, hc, makeReply_makeReply]

/-- A new entry is in the table afterwards, if both its tuples have the same bucket. -/
theorem Inserted.inv (hin : Inserted s s' a (conntrackTupleHash t) e) (h : Inv s B) (ha : s.mem a = none)
    (hlookup : conntrackLookup t s = some none) (hfull : s.totalCount < conntrackMax)
    (hhash : conntrackTupleHash (conntrackMakeReply t) = conntrackTupleHash t) (htuple : e.tuple = t)
    (hreply : e.replyTuple = conntrackMakeReply t) (hrefcnt : e.refcnt = 1) :
    Inv s' (Function.update B (conntrackTupleHash t) (a :: B (conntrackTupleHash t))) := by
  have hb : conntrackTupleHash t < conntrackBuckets := tupleHash_lt t
  have hmax : conntrackMax = 65536 := rfl
  have hnotin : ∀ i, a ∉ B i := fun i hi => h.allocated i a hi ha
  have hnew {x : Entry} (hx : s'.mem a = some x) : x = { e with next := s.heads (conntrackTupleHash t), prev := none } :=
    (Option.some.inj (hin.new.symm.trans hx)).symm
  have hcovers {x : Entry} {t' : Tuple} (hx : s'.mem a = some x) (hc : Covers x t') :
      t' = t ∨ t' = conntrackMakeReply t := by
    rw [hnew hx] at hc
    rcases hc with hc | hc
    · exact .inl (hc.symm.trans htuple)
    · exact .inr (hc.symm.trans hreply)
  have hother {c : ℕ} {x y : Entry} {t' : Tuple} (hc : c ≠ a) (hx : s'.mem a = some x) (hy : s'.mem c = some y)
      (hcx : Covers x t') (hcy : Covers y t') : False := by
    obtain ⟨z, hz, hztuple, hzreply, -⟩ := hin.back hc hy
    unfold Covers at hcy
    rw [hztuple, hzreply] at hcy
    exact h.not_covers hlookup (hcovers hx hcx) hz hcy
  refine ⟨hin.list h ha, fun i => ?_, ?_, ?_, fun i c hc => ?_, fun c x hx => ?_, fun i j c hi hj => ?_,
    fun c x hx => ?_, fun c d x y t' hx hy hcx hcy => ?_, fun i c hc => ?_, fun c x hx => ?_, fun c hc => ?_⟩
  · have hlength : (B (conntrackTupleHash t)).length ≤ s.totalCount := by
      rw [h.total]
      exact le_sumBelow (f := fun i => (B i).length) hb
    rw [hin.counts]
    by_cases hi : i = conntrackTupleHash t
    · rw [hi, update_self, update_self, h.count, List.length_cons, Nat.mod_eq_of_lt (by omega)]
    · rw [update_of_ne hi, update_of_ne hi, h.count]
  · rw [hin.total, Nat.mod_eq_of_lt (by omega), h.total]
    refine (sumBelow_add hb ?_ fun j hj => ?_).symm
    · rw [update_self, List.length_cons]
    · rw [update_of_ne hj]
  · rw [hin.total, Nat.mod_eq_of_lt (by omega)]
    omega
  · rcases mem_push.mp hc with ⟨rfl, -⟩ | hc
    · rw [hin.new]
      exact Option.some_ne_none _
    · exact hin.ne_none (h.allocated i c hc)
  · by_cases hca : c = a
    · subst hca
      rw [hnew hx]
      dsimp only
      rw [htuple, hreply, hhash, update_self]
      exact ⟨List.mem_cons_self, rfl⟩
    · obtain ⟨z, hz, hztuple, hzreply, -⟩ := hin.back hca hx
      rw [hztuple, hzreply]
      exact ⟨mem_push.mpr (.inr (h.home c z hz).1), (h.home c z hz).2⟩
  · rcases mem_push.mp hi with ⟨rfl, rfl⟩ | hi
    · rcases mem_push.mp hj with ⟨-, rfl⟩ | hj
      · rfl
      · exact absurd hj (hnotin j)
    · rcases mem_push.mp hj with ⟨hca, -⟩ | hj
      · rw [hca] at hi
        exact absurd hi (hnotin i)
      · exact h.one i j c hi hj
  · by_cases hca : c = a
    · subst hca
      rw [hnew hx]
      exact hreply.trans (by rw [htuple])
    · obtain ⟨z, hz, hztuple, hzreply, -⟩ := hin.back hca hx
      rw [hztuple, hzreply]
      exact h.reply c z hz
  · by_cases hca : c = a
    · subst hca
      by_cases hda : d = c
      · exact hda.symm
      · exact (hother hda hx hy hcx hcy).elim
    · by_cases hda : d = a
      · subst hda
        exact (hother hca hy hx hcy hcx).elim
      · obtain ⟨z, hz, hztuple, hzreply, -⟩ := hin.back hca hx
        obtain ⟨w, hw, hwtuple, hwreply, -⟩ := hin.back hda hy
        unfold Covers at hcx hcy
        rw [hztuple, hzreply] at hcx
        rw [hwtuple, hwreply] at hcy
        exact h.apart c d z w t' hz hw hcx hcy
  · rw [hin.known]
    rcases mem_push.mp hc with ⟨rfl, -⟩ | hc
    · exact List.mem_cons_self
    · exact List.mem_cons_of_mem _ (h.known i c hc)
  · rw [hin.held]
    by_cases hca : c = a
    · subst hca
      have hzero : s.held c = 0 := Nat.eq_zero_of_not_pos fun hpos => h.held c hpos ha
      rw [hnew hx, hzero]
      dsimp only
      rw [hrefcnt]
      exact ⟨rfl, by decide⟩
    · obtain ⟨z, hz, -, -, hzref⟩ := hin.back hca hx
      rw [hzref]
      exact h.refcnt c z hz
  · rw [hin.held] at hc
    exact hin.ne_none (h.held c hc)

/-! ## References -/

/-- The reference count of an entry and the references that are out change together. -/
theorem Inv.setRef (h : Inv s B) (he : s.mem a = some e) {ref : ℕ} (href : ref < 2 ^ 32) {n : ℕ} (hn : ref = n + 1) :
    Inv { s with
      mem := Function.update s.mem a (some { e with refcnt := ref })
      held := Function.update s.held a n } B := by
  refine h.same (update_mem_eq (fun e => { e with refcnt := ref }) he) (fun c x => ?_) rfl rfl rfl rfl
    (fun c x hx => ?_) fun c hc => ?_
  · by_cases hc : c = a <;> simp [hc]
  · dsimp only
    by_cases hc : c = a
    · subst hc
      rw [if_pos rfl, update_self]
      exact ⟨hn, href⟩
    · rw [if_neg hc, update_of_ne hc]
      exact h.refcnt c x hx
  · by_cases hca : c = a
    · rw [hca, he]
      exact Option.some_ne_none _
    · dsimp only at hc
      rw [update_of_ne hca] at hc
      exact h.held c hc

/-- Getting a reference that fits the counter. -/
theorem Inv.findGet (h : Inv s B) (hlookup : conntrackLookup t s = some (some a)) (hfit : s.held a + 2 < 2 ^ 32) :
    ∃ s', step s (.findGet t) = some s' ∧ Inv s' B ∧ s'.now = s.now := by
  obtain ⟨e, he, -⟩ := h.lookup_some hlookup rfl
  obtain ⟨hrefcnt, -⟩ := h.refcnt a e he
  have hmod : (e.refcnt + 1) % 2 ^ 32 = s.held a + 2 := by
    rw [hrefcnt]
    exact Nat.mod_eq_of_lt hfit
  refine ⟨_, ?_, h.setRef (n := s.held a + 1) he hfit rfl, rfl⟩
  simp only [step, conntrackFindGet]
  rw [hlookup, Option.bind_some]
  dsimp only
  rw [modify_eq _ he, hmod]
  rfl

/-- Putting back a reference that one holds never takes the last one, which is the table's. -/
theorem Inv.put (h : Inv s B) (hheld : 0 < s.held a) : ∃ s', step s (.put a) = some s' ∧ Inv s' B ∧ s'.now = s.now := by
  obtain ⟨e, he⟩ := Option.ne_none_iff_exists'.mp (h.held a hheld)
  obtain ⟨hrefcnt, hlt⟩ := h.refcnt a e he
  have hless : e.refcnt - 1 = s.held a - 1 + 1 := by omega
  refine ⟨_, ?_, h.setRef he (show e.refcnt - 1 < 2 ^ 32 by omega) hless, rfl⟩
  simp only [step, conntrackPut]
  rw [he, Option.bind_some, if_pos (by omega), modify_eq _ he, Option.bind_some, if_neg (by omega)]
  rfl

/-- Updating keeps tuples, links and references. -/
theorem Inv.update (h : Inv s B) (he : s.mem a = some e) (newState : UInt8) (timeout : ℕ) :
    ∃ s', step s (.update a newState timeout) = some s' ∧ Inv s' B := by
  refine ⟨_, modify_eq _ he, ?_⟩
  refine h.same (update_mem_eq (fun x => { x with
    state := newState
    lastSeen := s.now
    timeout := if timeout > 0 then timeout else s.now + defaultTimeout x.proto newState }) he) (fun c x => ?_)
    rfl rfl rfl rfl (fun c x hx => ?_) h.held
  · by_cases hc : c = a <;> simp [hc]
  · by_cases hc : c = a
    · rw [if_pos hc]
      exact h.refcnt c x hx
    · rw [if_neg hc]
      exact h.refcnt c x hx

end Conntrack
