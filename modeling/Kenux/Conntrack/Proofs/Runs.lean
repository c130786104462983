import Kenux.Conntrack.Proofs.Calls

/-!
# Runs of the table

What holds after every run of calls: every connection is found by both its tuples, no two entries cover one tuple, the
counts are the lengths of the lists, and no entry that somebody holds was freed.
-/

namespace Conntrack

open Count DList Run
open Function (update_self update_of_ne)

variable {s s' : State} {B : ℕ → List ℕ} {t : Tuple} {a b : ℕ} {e : Entry}

/-! ## Cleanup -/

/-- While every entry has a reference the loop only walks. -/
theorem cleanupLoop_eq {l : List ℕ} {cur : Option ℕ} {fuel : ℕ} (hchain : SList.Chained s.nx cur l)
    (hfuel : l.length ≤ fuel) (halloc : ∀ a ∈ l, s.mem a ≠ none) (href : ∀ a e, s.mem a = some e → e.refcnt ≠ 0) :
    cleanupLoop b fuel cur s = some s := by
  induction l generalizing cur fuel with
  | nil =>
    obtain rfl : cur = none := hchain
    unfold cleanupLoop
    rfl
  | cons a l ih =>
    obtain ⟨rfl, hrest⟩ := hchain
    rw [List.length_cons] at hfuel
    obtain ⟨fuel, rfl⟩ := Nat.exists_eq_succ_of_ne_zero (show fuel ≠ 0 by omega)
    obtain ⟨e, he⟩ := Option.ne_none_iff_exists'.mp (halloc a List.mem_cons_self)
    have hnext : s.nx a = e.next := by rw [State.nx, he, Option.bind_some]
    unfold cleanupLoop
    rw [he, Option.bind_some, if_neg fun hexpired => href a e he hexpired.2, ← hnext]
    exact ih hrest (by omega) fun b hb => halloc b (List.mem_cons_of_mem a hb)

theorem eachBucket_same {f : ℕ → State → Option State} {n : ℕ} (h : ∀ b < n, f b s = some s) :
    eachBucket f n s = some s := by
  induction n with
  | zero => rfl
  | succ n ih =>
    unfold eachBucket
    rw [ih fun b hb => h b (by omega), Option.bind_some]
    exact h n (by omega)

theorem recount_eq {counts : ℕ → ℕ} {n : ℕ} (h : sumBelow counts n < 2 ^ 32) :
    recount counts n = sumBelow counts n := by
  induction n with
  | zero => rfl
  | succ n ih =>
    unfold sumBelow at h ⊢
    unfold recount
    rw [ih (by omega), Nat.mod_eq_of_lt h]

/-- Cleanup changes nothing: the table's own reference keeps every entry. -/
theorem Inv.cleanup (h : Inv s B) : step s .cleanup = some s := by
  have hmax : conntrackMax = 65536 := rfl
  have hbounded := h.bounded
  have hcounts : s.counts = fun i => (B i).length := funext h.count
  have hloops : eachBucket (fun b s => cleanupLoop b s.known.length (s.heads b) s) conntrackBuckets s = some s := by
    refine eachBucket_same fun b _ => cleanupLoop_eq (h.list b).chained (h.length_le b) (h.allocated b) ?_
    intro a e he hzero
    have hrefcnt := (h.refcnt a e he).1
    omega
  simp only [step, conntrackCleanup]
  rw [hloops, Option.map_some, hcounts, recount_eq, ← h.total, ← hcounts]
  rw [← h.total]
  omega

/-! ## Flush -/

/-- A bucket's entries are freed one after the other. -/
theorem flushLoop_eq {l : List ℕ} {cur : Option ℕ} {fuel : ℕ} (hchain : SList.Chained s.nx cur l) (hnodup : l.Nodup)
    (hfuel : l.length ≤ fuel) (halloc : ∀ a ∈ l, s.mem a ≠ none) :
    flushLoop fuel cur s = some { s with mem := fun c => if c ∈ l then none else s.mem c } := by
  induction l generalizing cur fuel s with
  | nil =>
    obtain rfl : cur = none := hchain
    unfold flushLoop
    simp
  | cons a l ih =>
    obtain ⟨rfl, hrest⟩ := hchain
    obtain ⟨ha, hnodup⟩ := List.nodup_cons.mp hnodup
    rw [List.length_cons] at hfuel
    obtain ⟨fuel, rfl⟩ := Nat.exists_eq_succ_of_ne_zero (show fuel ≠ 0 by omega)
    obtain ⟨e, he⟩ := Option.ne_none_iff_exists'.mp (halloc a List.mem_cons_self)
    have hnext : s.nx a = e.next := by rw [State.nx, he, Option.bind_some]
    have hne {c : ℕ} (hc : c ∈ l) : c ≠ a := by
      rintro rfl
      exact ha hc
    have hmem {c : ℕ} (hc : c ∈ l) : (s.free a).mem c = s.mem c := update_of_ne (hne hc) _ _
    unfold flushLoop
    rw [he, Option.bind_some, ← hnext, ih (s := s.free a) (hrest.congr fun c hc => ?_) hnodup (by omega) fun c hc => ?_]
    · congr 2
      funext c
      by_cases hca : c = a
      · subst hca
        rw [if_neg ha, if_pos List.mem_cons_self]
        exact update_self _ _ _
      · by_cases hc : c ∈ l
        · rw [if_pos hc, if_pos (List.mem_cons_of_mem a hc)]
        · rw [if_neg hc, if_neg fun hcons => (List.mem_cons.mp hcons).elim hca hc]
          exact update_of_ne hca _ _
    · rw [State.nx, hmem hc]
      rfl
    · rw [hmem hc]
      exact halloc c (List.mem_cons_of_mem a hc)

/-- The buckets below `n` were flushed. -/
structure Flushed (s s' : State) (B : ℕ → List ℕ) (n : ℕ) : Prop where
  heads : ∀ i, s'.heads i = if i < n then none else s.heads i
  counts : ∀ i, s'.counts i = if i < n then 0 else s.counts i
  gone : ∀ i < n, ∀ a ∈ B i, s'.mem a = none
  free : ∀ a, s.mem a = none → s'.mem a = none
  kept : ∀ i, n ≤ i → ∀ a ∈ B i, s'.mem a = s.mem a
  known : s'.known = s.known
  held : s'.held = s.held

/-- The next bucket is flushed. -/
theorem Flushed.next {n : ℕ} (hflushed : Flushed s s' B n) (h : Inv s B) :
    ∃ s'', (flushLoop s'.known.length (s'.heads n) s').map (fun s => (s.setHead n none).setCount n 0) = some s'' ∧
      Flushed s s'' B (n + 1) := by
  have hsame {a : ℕ} (ha : a ∈ B n) : s'.mem a = s.mem a := hflushed.kept n (Nat.le_refl n) a ha
  have hchain : SList.Chained s'.nx (s'.heads n) (B n) := by
    rw [hflushed.heads, if_neg (Nat.lt_irrefl n)]
    refine (h.list n).chained.congr fun c hc => ?_
    rw [State.nx, hsame hc]
    rfl
  have hfuel : (B n).length ≤ s'.known.length := by
    rw [hflushed.known]
    exact h.length_le n
  have hloop := flushLoop_eq hchain (h.list n).nodup hfuel fun a ha => by
    rw [hsame ha]
    exact h.allocated n a ha
  rw [hloop, Option.map_some]
  refine ⟨_, rfl, fun i => ?_, fun i => ?_, fun i hi a ha => ?_, fun a ha => ?_, fun i hi a ha => ?_, hflushed.known,
    hflushed.held⟩
  · dsimp only [State.setCount, State.setHead]
    by_cases hi : i = n
    · subst hi
      rw [update_self, if_pos (Nat.lt_succ_self i)]
    · rw [update_of_ne hi, hflushed.heads]
      by_cases hlt : i < n
      · rw [if_pos hlt, if_pos (by omega)]
      · rw [if_neg hlt, if_neg (by omega)]
  · dsimp only [State.setCount, State.setHead]
    by_cases hi : i = n
    · subst hi
      rw [update_self, if_pos (Nat.lt_succ_self i)]
    · rw [update_of_ne hi, hflushed.counts]
      by_cases hlt : i < n
      · rw [if_pos hlt, if_pos (by omega)]
      · rw [if_neg hlt, if_neg (by omega)]
  · by_cases hn : a ∈ B n
    · exact if_pos hn
    · refine (if_neg hn).trans (hflushed.gone i ?_ a ha)
      have hne : i ≠ n := fun heq => hn (heq ▸ ha)
      omega
  · by_cases hn : a ∈ B n
    · exact if_pos hn
    · exact (if_neg hn).trans (hflushed.free a ha)
  · refine (if_neg fun hn => ?_).trans (hflushed.kept i (by omega) a ha)
    have heq := h.one i n a ha hn
    omega

theorem Inv.flushed (h : Inv s B) (n : ℕ) :
    ∃ s', eachBucket (fun b s => (flushLoop s.known.length (s.heads b) s).map fun s =>
      (s.setHead b none).setCount b 0) n s = some s' ∧ Flushed s s' B n := by
  induction n with
  | zero =>
    refine ⟨s, rfl, fun i => (if_neg (Nat.not_lt_zero i)).symm, fun i => (if_neg (Nat.not_lt_zero i)).symm,
      fun i hi => absurd hi (Nat.not_lt_zero i), fun _ ha => ha, fun _ _ _ _ => rfl, rfl, rfl⟩
  | succ n ih =>
    obtain ⟨s', hs', hflushed⟩ := ih
    obtain ⟨s'', hs'', hnext⟩ := hflushed.next h
    refine ⟨s'', ?_, hnext⟩
    unfold eachBucket
    rw [hs', Option.bind_some]
    exact hs''

/-- Flushing leaves an empty table, if nobody holds an entry. -/
theorem Inv.flush (h : Inv s B) (hheld : ∀ a, s.held a = 0) : ∃ s', step s .flush = some s' ∧ Inv s' fun _ => [] := by
  obtain ⟨s', hs', hflushed⟩ := h.flushed conntrackBuckets
  refine ⟨{ s' with totalCount := 0 }, ?_, ?_⟩
  · simp only [step, conntrackFlush]
    rw [hs', Option.map_some]
  have hempty (a : ℕ) : s'.mem a = none := by
    cases ha : s.mem a with
    | none => exact hflushed.free a ha
    | some e => exact hflushed.gone _ (tupleHash_lt e.tuple) a (h.home a e ha).1
  have hsome {a : ℕ} {e : Entry} (he : s'.mem a = some e) : False := by
    rw [hempty] at he
    cases he
  refine ⟨fun i => ?_, fun i => ?_, (sumBelow_zero fun _ _ => rfl).symm, Nat.zero_le _,
    fun _ _ ha => absurd ha List.not_mem_nil, fun _ _ he => (hsome he).elim, fun _ _ _ ha => absurd ha List.not_mem_nil,
    fun _ _ he => (hsome he).elim, fun _ _ _ _ _ he => (hsome he).elim, fun _ _ ha => absurd ha List.not_mem_nil,
    fun _ _ he => (hsome he).elim, fun a ha => ?_⟩
  · dsimp only
    rw [hflushed.heads]
    by_cases hi : i < conntrackBuckets
    · rw [if_pos hi]
      exact .nil
    · rw [if_neg hi, (h.list i).head_eq, h.eq_nil (Nat.le_of_not_lt hi)]
      exact .nil
  · dsimp only
    rw [hflushed.counts]
    by_cases hi : i < conntrackBuckets
    · rw [if_pos hi]
      rfl
    · rw [if_neg hi, h.count, h.eq_nil (Nat.le_of_not_lt hi)]
  · dsimp only at ha
    rw [hflushed.held, hheld] at ha
    exact absurd ha (Nat.lt_irrefl 0)

/-! ## Runs -/

/-- The call does not make an entry whose reply has another bucket, take more references than the counter counts, clean
up while an expired entry is only in the table, or flush while somebody holds an entry. -/
def Fine (s : State) : Call → Prop
  | .add t _ (some _) => s.totalCount < conntrackMax → conntrackLookup t s = some none →
      conntrackTupleHash (conntrackMakeReply t) = conntrackTupleHash t
  | .findGet t => ∀ a, conntrackLookup t s = some (some a) → s.held a + 2 < 2 ^ 32
  | .cleanup => ∀ a e, s.mem a = some e → s.now ≥ e.timeout → 0 < s.held a
  | .flush => ∀ a, s.held a = 0
  | _ => True

/-- What the table promises. -/
structure Sound (s : State) (B : ℕ → List ℕ) : Prop where
  found : ∀ a e, s.mem a = some e →
    conntrackLookup e.tuple s = some (some a) ∧ conntrackLookup e.replyTuple s = some (some a)
  apart : ∀ a b e x t, s.mem a = some e → s.mem b = some x → Covers e t → Covers x t → a = b
  list : ∀ i, IsDList s.nx s.pv (s.heads i) (B i)
  live : ∀ a, s.mem a ≠ none ↔ ∃ i, a ∈ B i
  counts : ∀ i, s.counts i = (B i).length
  total : s.totalCount = sumBelow (fun i => (B i).length) conntrackBuckets
  held : ∀ a, 0 < s.held a → s.mem a ≠ none

theorem Inv.sound (h : Inv s B) : Sound s B where
  found _ _ he := ⟨h.lookup_covers he (.inl rfl), h.lookup_covers he (.inr rfl)⟩
  apart := h.apart
  list := h.list
  live a := by
    refine ⟨fun ha => ?_, fun ⟨i, hi⟩ => h.allocated i a hi⟩
    obtain ⟨e, he⟩ := Option.ne_none_iff_exists'.mp ha
    exact ⟨_, (h.home a e he).1⟩
  counts := h.count
  total := h.total
  held := h.held

/-- Adding: a full table, an entry that is there, no memory, or a new entry. -/
theorem Inv.add (h : Inv s B) {proto : UInt8} {addr : Option ℕ} (hallowed : Allowed s (.add t proto addr))
    (hfine : Fine s (.add t proto addr)) : ∃ s' B', step s (.add t proto addr) = some s' ∧ Inv s' B' := by
  simp only [step, conntrackAdd]
  by_cases hfull : s.totalCount ≥ conntrackMax
  · rw [if_pos hfull]
    exact ⟨s, B, rfl, h⟩
  · rw [if_neg hfull]
    cases hlookup : conntrackLookup t s with
    | none =>
      rw [h.lookup_eq] at hlookup
      cases hlookup
    | some r =>
      rw [Option.bind_some]
      cases r with
      | some a => exact ⟨s, B, rfl, h⟩
      | none =>
        cases addr with
        | none => exact ⟨s, B, rfl, h⟩
        | some a =>
          dsimp only
          obtain ⟨s', hs', hin⟩ := insert_eq h hallowed
            ⟨t, conntrackMakeReply t, proto, (fresh proto s.now).1, (fresh proto s.now).2, s.now, 1, none, none⟩
          rw [hs']
          have hlt : s.totalCount < conntrackMax := Nat.lt_of_not_le hfull
          exact ⟨s', _, rfl, hin.inv h hallowed hlookup hlt (hfine hlt hlookup) rfl rfl rfl⟩

/-- A call that meets the condition returns and keeps the table. -/
theorem step_spec (h : Inv s B) {c : Call} (hallowed : Allowed s c) (hfine : Fine s c) :
    ∃ s' B', step s c = some s' ∧ Inv s' B' := by
  cases c with
  | add t proto addr => exact h.add hallowed hfine
  | lookup t =>
    refine ⟨s, B, ?_, h⟩
    simp only [step]
    rw [h.lookup_eq, Option.map_some]
  | findGet t =>
    cases hlookup : conntrackLookup t s with
    | none =>
      rw [h.lookup_eq] at hlookup
      cases hlookup
    | some r =>
      cases r with
      | none =>
        refine ⟨s, B, ?_, h⟩
        simp only [step, conntrackFindGet]
        rw [hlookup]
        rfl
      | some a =>
        obtain ⟨s', hs', hinv, -⟩ := h.findGet hlookup (hfine a hlookup)
        exact ⟨s', B, hs', hinv⟩
  | put a =>
    obtain ⟨s', hs', hinv, -⟩ := h.put hallowed
    exact ⟨s', B, hs', hinv⟩
  | update a newState timeout =>
    obtain ⟨e, he⟩ := Option.ne_none_iff_exists'.mp hallowed
    obtain ⟨s', hs', hinv⟩ := h.update he newState timeout
    exact ⟨s', B, hs', hinv⟩
  | cleanup => exact ⟨s, B, h.cleanup, h⟩
  | flush =>
    obtain ⟨s', hs', hinv⟩ := h.flush hfine
    exact ⟨s', _, hs', hinv⟩
  | wait seconds =>
    exact ⟨_, B, rfl, ⟨h.list, h.count, h.total, h.bounded, h.allocated, h.home, h.one, h.reply, h.apart, h.known,
      h.refcnt, h.held⟩⟩

/-- In every run of calls that meet the condition the table keeps its promises, the next such call returns, and after
a cleanup no expired entry is only in the table. -/
theorem conntrack_table (s : State) (hrun : Reach step (fun s c => Allowed s c ∧ Fine s c) start s) :
    (∃ B, Sound s B) ∧ (∀ c, Allowed s c → Fine s c → ∃ s', step s c = some s') ∧
    ∀ s', Fine s .cleanup → step s .cleanup = some s' →
      ∀ a e, s'.mem a = some e → s'.now ≥ e.timeout → 0 < s'.held a := by
  have hinv : ∃ B, Inv s B := by
    refine hrun.invariant (I := fun s => ∃ B, Inv s B) ⟨_, inv_start⟩ fun s c s' hs hc hstep => ?_
    obtain ⟨B, h⟩ := hs
    obtain ⟨hallowed, hfine⟩ := hc
    obtain ⟨s₁, B₁, hs₁, hinv⟩ := step_spec h hallowed hfine
    rw [hs₁] at hstep
    exact ⟨B₁, Option.some.inj hstep ▸ hinv⟩
  obtain ⟨B, h⟩ := hinv
  refine ⟨⟨B, h.sound⟩, fun c hallowed hfine => ?_, fun s' hfine hstep => ?_⟩
  · obtain ⟨s', -, hs', -⟩ := step_spec h hallowed hfine
    exact ⟨s', hs'⟩
  · rw [h.cleanup] at hstep
    obtain rfl := Option.some.inj hstep
    exact hfine

/-- A connection of an address with itself. -/
def loopback : Tuple := ⟨1, 1, 7, 7, ipprotoTcp⟩

theorem conntrack_table_loopback : ∃ s B, run step start [.add loopback ipprotoTcp (some 4096)] = some s ∧
    s.totalCount = 1 ∧ Sound s B := by
  obtain ⟨s₁, hs₁⟩ : ∃ s₁, step start (.add loopback ipprotoTcp (some 4096)) = some s₁ := ⟨_, rfl⟩
  obtain ⟨B, hB⟩ := (conntrack_table s₁ (.step (.add loopback ipprotoTcp (some 4096)) .start
    ⟨rfl, fun _ _ => rfl⟩ hs₁)).1
  refine ⟨s₁, B, ?_, ?_, hB⟩
  · rw [run_cons hs₁, run_nil]
  · obtain rfl := Option.some.inj hs₁
    rfl

/-- A connection whose reply has another bucket. -/
def outgoing : Tuple := ⟨1, 2, 7, 80, ipprotoTcp⟩

/-- The first packet back is not found, and is entered as a connection of its own. -/
theorem conntrack_misses_reply : ∃ s s', run step start [.add outgoing ipprotoTcp (some 4096)] = some s ∧
    (s.mem 4096).map (fun e => (e.tuple, e.replyTuple)) = some (outgoing, conntrackMakeReply outgoing) ∧
    conntrackLookup (conntrackMakeReply outgoing) s = some none ∧
    step s (.add (conntrackMakeReply outgoing) ipprotoTcp (some 8192)) = some s' ∧ s'.totalCount = 2 :=
  ⟨_, _, rfl, rfl, rfl, rfl, rfl⟩

end Conntrack
