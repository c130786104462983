import Kenux.Lib.Run
import Mathlib.Data.UInt

/-!
# Hash tables of the kernel API (`api/kapi_hash.c`)

A bucket is the list of its nodes from its first one on. The nodes hold no key: what `hash_fn` gives for the key
`(NULL, 0)` decides where they come to in a resize.
-/

namespace Hash

open Run
open Function (update_self update_of_ne)

/-- `kapi_hash_table_t`; `hash_fn` and `cmp_fn` are parameters. -/
structure HashTable (Node : Type) where
  buckets : ℕ → List Node
  bits : ℕ
  size : ℕ

/-- `KAPI_OK`, `KAPI_EBUSY`, `KAPI_ENOENT` and `KAPI_ENOMEM`. -/
inductive Result where
  | ok
  | busy
  | noent
  | nomem

variable {Node Key : Type} [DecidableEq Node] [DecidableEq Key]

def clampBits (bits : ℕ) : ℕ :=
  let bits := if bits < 4 then 4 else bits
  if bits > 20 then 20 else bits

/-- `hash & (bucket_count - 1)` -/
def bucket (bits : ℕ) (hash : UInt64) : ℕ := hash.toNat &&& (2 ^ bits - 1)

def hashOf (hashFn : Option (Key → UInt64)) (key : Key) : UInt64 :=
  match hashFn with
  | some hash => hash key
  | none => 0

/-- `kapi_hash_create`, where there is a free table and memory. -/
def kapiHashCreate (bits : ℕ) : HashTable Node := ⟨fun _ => [], clampBits bits, 0⟩

/-- `!kapi_hlist_unhashed` -/
def Hashed (ht : HashTable Node) (node : Node) : Prop := ∃ i < 2 ^ ht.bits, node ∈ ht.buckets i

instance (ht : HashTable Node) (node : Node) : Decidable (Hashed ht node) :=
  inferInstanceAs (Decidable (∃ i < 2 ^ ht.bits, node ∈ ht.buckets i))

/-- `kapi_hlist_add_head` -/
def addHead (buckets : ℕ → List Node) (i : ℕ) (node : Node) : ℕ → List Node :=
  Function.update buckets i (node :: buckets i)

def kapiHashAdd (hashFn : Option (Key → UInt64)) (ht : HashTable Node) (key : Key) (node : Node) :
    Result × HashTable Node :=
  if Hashed ht node then (.busy, ht)
  else (.ok, ⟨addHead ht.buckets (bucket ht.bits (hashOf hashFn key)) node, ht.bits, ht.size + 1⟩)

/-- `kapi_hash_del`; a hashed node is taken out of its bucket. -/
def kapiHashDel (ht : HashTable Node) (node : Node) : Result × HashTable Node :=
  if ¬Hashed ht node then (.noent, ht)
  else (.ok, ⟨fun i => (ht.buckets i).filter (· ≠ node), ht.bits, ht.size - 1⟩)

def kapiHashFind (hashFn : Option (Key → UInt64)) (cmpFn : Node → Key → ℤ) (ht : HashTable Node) (key : Key) :
    Option Node :=
  (ht.buckets (bucket ht.bits (hashOf hashFn key))).find? fun pos => cmpFn pos key = 0

/-- The nodes with their buckets, as the loops of `kapi_hash_resize` come to them. -/
def placed (ht : HashTable Node) : List (ℕ × Node) :=
  (List.range (2 ^ ht.bits)).flatMap fun i => (ht.buckets i).map fun pos => (i, pos)

/-- The hash that a node of bucket `i` is moved by. -/
def movedHash (hashFn : Option (Key → UInt64)) (null : Key) (i : ℕ) : UInt64 :=
  match hashFn with
  | some hash => hash null
  | none => UInt64.ofNat i

/-- `kapi_hash_resize`; `null` is the key `(NULL, 0)`. -/
def kapiHashResize (hashFn : Option (Key → UInt64)) (null : Key) (ht : HashTable Node) (newBits : ℕ) (allocates : Bool) :
    Result × HashTable Node :=
  let newBits := clampBits newBits
  if newBits = ht.bits then (.ok, ht)
  else if ¬allocates then (.nomem, ht)
  else
    (.ok, ⟨(placed ht).foldl (fun new p => addHead new (bucket newBits (movedHash hashFn null p.1)) p.2) fun _ => [],
      newBits, ht.size⟩)

inductive Op (Node Key : Type) where
  | add (key : Key) (node : Node)
  | del (node : Node)
  | resize (newBits : ℕ) (allocates : Bool)

def step (hashFn : Option (Key → UInt64)) (null : Key) (ht : HashTable Node) : Op Node Key → Result × HashTable Node
  | .add key node => kapiHashAdd hashFn ht key node
  | .del node => kapiHashDel ht node
  | .resize newBits allocates => kapiHashResize hashFn null ht newBits allocates

/-! ## What a table is for -/

/-- The nodes with their keys, the last one added first. -/
def mapStep (es : List (Node × Key)) : Op Node Key → List (Node × Key)
  | .add key node => if node ∈ es.map Prod.fst then es else (node, key) :: es
  | .del node => es.filter fun e => e.1 ≠ node
  | .resize _ _ => es

/-- A table and the nodes that are to be in it. -/
def pairStep (hashFn : Option (Key → UInt64)) (null : Key) (s : HashTable Node × List (Node × Key)) (op : Op Node Key) :
    Option (HashTable Node × List (Node × Key)) :=
  some ((step hashFn null s.1 op).2, mapStep s.2 op)

/-- A comparison that knows the keys finds for each key the last node added with it, and the nodes are counted. -/
def Finds (hashFn : Option (Key → UInt64)) (s : HashTable Node × List (Node × Key)) : Prop :=
  s.1.size = s.2.length ∧ ∀ cmpFn : Node → Key → ℤ, (∀ e ∈ s.2, ∀ key, cmpFn e.1 key = 0 ↔ e.2 = key) →
    ∀ key, kapiHashFind hashFn cmpFn s.1 key = (s.2.find? fun e => e.2 = key).map Prod.fst

/-- A resize that does something is made only while each key has the bucket of `null` and one node at most. -/
def Harmless (hashFn : Option (Key → UInt64)) (null : Key) (s : HashTable Node × List (Node × Key)) : Op Node Key → Prop
  | .resize newBits true => clampBits newBits = s.1.bits ∨
      (∀ e ∈ s.2, bucket (clampBits newBits) (hashOf hashFn e.2) = bucket (clampBits newBits) (hashOf hashFn null)) ∧
        ∀ key, (s.2.filter fun e => e.2 = key).length ≤ 1
  | _ => True

variable {hashFn : Option (Key → UInt64)} {null key : Key} {ht : HashTable Node} {es : List (Node × Key)} {node : Node}

/-- Each node stands in the bucket of its key, and those of one key in their order. -/
structure Inv (hashFn : Option (Key → UInt64)) (ht : HashTable Node) (es : List (Node × Key)) : Prop where
  distinct : (es.map Prod.fst).Nodup
  place : ∀ i, ∀ n ∈ ht.buckets i, ∃ k, (n, k) ∈ es ∧ bucket ht.bits (hashOf hashFn k) = i
  order : ∀ k, ((ht.buckets (bucket ht.bits (hashOf hashFn k))).filter fun n => (n, k) ∈ es) =
    (es.filter fun e => e.2 = k).map Prod.fst
  size : ht.size = es.length

theorem bucket_lt (bits : ℕ) (hash : UInt64) : bucket bits hash < 2 ^ bits :=
  Nat.lt_of_le_of_lt Nat.and_le_right (Nat.sub_lt (Nat.two_pow_pos bits) Nat.one_pos)

theorem Inv.key_eq (h : Inv hashFn ht es) {k k' : Key} (hk : (node, k) ∈ es) (hk' : (node, k') ∈ es) : k = k' :=
  congrArg Prod.snd (List.inj_on_of_nodup_map h.distinct hk hk' rfl)

theorem Inv.hashed_iff (h : Inv hashFn ht es) : Hashed ht node ↔ node ∈ es.map Prod.fst := by
  constructor
  · rintro ⟨i, -, hnode⟩
    obtain ⟨k, hk, -⟩ := h.place i node hnode
    exact List.mem_map_of_mem hk
  · intro hnode
    obtain ⟨⟨n, k⟩, hk, rfl⟩ := List.mem_map.mp hnode
    have hin : n ∈ (es.filter fun e => e.2 = k).map Prod.fst :=
      List.mem_map.mpr ⟨(n, k), List.mem_filter.mpr ⟨hk, decide_eq_true rfl⟩, rfl⟩
    rw [← h.order k] at hin
    exact ⟨_, bucket_lt _ _, List.mem_of_mem_filter hin⟩

theorem Inv.finds (h : Inv hashFn ht es) : Finds hashFn (ht, es) := by
  refine ⟨h.size, fun cmpFn hcmp key => ?_⟩
  have hagree : ∀ pos ∈ ht.buckets (bucket ht.bits (hashOf hashFn key)),
      decide (cmpFn pos key = 0) = decide ((pos, key) ∈ es) := by
    intro pos hpos
    obtain ⟨k, hk, -⟩ := h.place _ pos hpos
    apply decide_eq_decide.mpr
    rw [hcmp (pos, k) hk]
    exact ⟨fun heq => heq ▸ hk, fun hkey => h.key_eq hk hkey⟩
  unfold kapiHashFind
  rw [← List.head?_filter, List.filter_congr hagree, h.order, List.head?_map, List.head?_filter]

theorem Inv.create (bits : ℕ) : Inv hashFn (kapiHashCreate bits) ([] : List (Node × Key)) where
  distinct := List.nodup_nil
  place := fun _ _ hn => nomatch hn
  order := fun _ => rfl
  size := rfl

theorem Inv.add (h : Inv hashFn ht es) (hnew : node ∉ es.map Prod.fst) :
    Inv hashFn (kapiHashAdd hashFn ht key node).2 ((node, key) :: es) := by
  have hold {i : ℕ} {n : Node} (hn : n ∈ ht.buckets i) : n ≠ node := by
    rintro rfl
    obtain ⟨k, hk, -⟩ := h.place i n hn
    exact hnew (List.mem_map_of_mem hk)
  unfold kapiHashAdd
  rw [if_neg fun hin => hnew (h.hashed_iff.mp hin)]
  refine ⟨List.nodup_cons.mpr ⟨hnew, h.distinct⟩, fun i n hn => ?_, fun k => ?_, congrArg (· + 1) h.size⟩
  · dsimp only [addHead] at hn
    by_cases hi : i = bucket ht.bits (hashOf hashFn key)
    · rw [hi, update_self] at hn
      rcases List.mem_cons.mp hn with rfl | hn
      · exact ⟨key, List.mem_cons_self, hi.symm⟩
      · obtain ⟨k, hk, hb⟩ := h.place _ n hn
        exact ⟨k, List.mem_cons_of_mem _ hk, hb.trans hi.symm⟩
    · rw [update_of_ne hi] at hn
      obtain ⟨k, hk, hb⟩ := h.place i n hn
      exact ⟨k, List.mem_cons_of_mem _ hk, hb⟩
  · have hrest : ((ht.buckets (bucket ht.bits (hashOf hashFn k))).filter fun n => (n, k) ∈ (node, key) :: es) =
        (es.filter fun e => e.2 = k).map Prod.fst := by
      rw [← h.order k]
      refine List.filter_congr fun n hn => decide_eq_decide.mpr ⟨fun hmem => ?_, List.mem_cons_of_mem _⟩
      rcases List.mem_cons.mp hmem with heq | hmem
      · exact (hold hn (congrArg Prod.fst heq)).elim
      · exact hmem
    have hself : (node, k) ∈ (node, key) :: es ↔ key = k := by
      rw [List.mem_cons, Prod.mk.injEq]
      exact ⟨fun hmem => hmem.elim (fun heq => heq.2.symm) fun hmem => (hnew (List.mem_map_of_mem hmem)).elim,
        fun heq => .inl ⟨rfl, heq.symm⟩⟩
    dsimp only [addHead]
    by_cases hk : key = k
    · subst hk
      rw [update_self, List.filter_cons_of_pos (by simp), hrest, List.filter_cons_of_pos (by simp),
        List.map_cons]
    · rw [List.filter_cons_of_neg (by simpa using hk), ← hrest]
      by_cases hi : bucket ht.bits (hashOf hashFn k) = bucket ht.bits (hashOf hashFn key)
      · rw [hi, update_self, List.filter_cons_of_neg (by simpa using mt hself.mp hk)]
      · rw [update_of_ne hi]

theorem Inv.del (h : Inv hashFn ht es) : Inv hashFn (kapiHashDel ht node).2 (es.filter fun e => e.1 ≠ node) := by
  have hmap : (es.filter fun e => e.1 ≠ node).map Prod.fst = (es.map Prod.fst).filter (· ≠ node) :=
    (List.filter_map (f := Prod.fst) (p := fun n => decide (n ≠ node))).symm
  unfold kapiHashDel
  by_cases hin : Hashed ht node
  · rw [if_neg (not_not.mpr hin)]
    refine ⟨hmap ▸ h.distinct.filter _, fun i n hn => ?_, fun k => ?_, ?_⟩
    · obtain ⟨hn, hne⟩ := List.mem_filter.mp hn
      obtain ⟨k, hk, hb⟩ := h.place i n hn
      exact ⟨k, List.mem_filter.mpr ⟨hk, hne⟩, hb⟩
    · dsimp only
      have hswap : ((es.filter fun e => e.1 ≠ node).filter fun e => e.2 = k).map Prod.fst =
          ((es.filter fun e => e.2 = k).map Prod.fst).filter (· ≠ node) := by
        rw [List.filter_map, List.filter_filter, List.filter_filter]
        simp only [Function.comp_def, Bool.and_comm]
      rw [hswap, ← h.order k, List.filter_filter, List.filter_filter]
      refine List.filter_congr fun n _ => ?_
      by_cases hne : n = node <;> simp [hne]
    · dsimp only
      have hlength : (es.filter fun e => e.1 ≠ node).length = es.length - 1 := by
        have herase : (es.map Prod.fst).filter (· ≠ node) = (es.map Prod.fst).erase node := by
          rw [h.distinct.erase_eq_filter]
          exact List.filter_congr fun n _ => by by_cases hn : n = node <;> simp [hn]
        rw [← List.length_map Prod.fst, hmap, herase, List.length_erase_of_mem (h.hashed_iff.mp hin), List.length_map]
      rw [hlength, h.size]
  · rw [if_pos hin]
    have hall : (es.filter fun e => e.1 ≠ node) = es :=
      List.filter_eq_self.mpr fun e he => decide_eq_true fun heq =>
        hin (h.hashed_iff.mpr (heq ▸ List.mem_map_of_mem he))
    rwa [hall]

omit [DecidableEq Node] in
/-- Nodes that are put in front of their buckets one after the other. -/
theorem foldl_addHead {d : ℕ → ℕ} {ps : List (ℕ × Node)} {new : ℕ → List Node} {i : ℕ} :
    ps.foldl (fun new p => addHead new (d p.1) p.2) new i =
      ((ps.filter fun p => d p.1 = i).map Prod.snd).reverse ++ new i := by
  induction ps generalizing new with
  | nil => rfl
  | cons p ps ih =>
    rw [List.foldl_cons, ih]
    by_cases hi : d p.1 = i
    · subst hi
      rw [List.filter_cons_of_pos (by simp), addHead, update_self, List.map_cons, List.reverse_cons,
        List.append_assoc, List.singleton_append]
    · rw [List.filter_cons_of_neg (by simpa using hi), addHead, update_of_ne (Ne.symm hi)]

theorem flatMap_range_single {α : Type} {n b : ℕ} {f : ℕ → List α} (hb : b < n) (hf : ∀ i, i ≠ b → f i = []) :
    (List.range n).flatMap f = f b := by
  induction n with
  | zero => exact absurd hb (Nat.not_lt_zero b)
  | succ n ih =>
    rw [List.range_succ, List.flatMap_append, List.flatMap_singleton]
    rcases Nat.lt_succ_iff_lt_or_eq.mp hb with hlt | rfl
    · rw [ih hlt, hf n (Nat.ne_of_gt hlt), List.append_nil]
    · rw [List.flatMap_eq_nil_iff.mpr fun i hi => hf i (Nat.ne_of_lt (List.mem_range.mp hi)), List.nil_append]

theorem Inv.resize {newBits : ℕ} {allocates : Bool} (h : Inv hashFn ht es)
    (hok : Harmless hashFn null (ht, es) (.resize newBits allocates)) :
    Inv hashFn (kapiHashResize hashFn null ht newBits allocates).2 es := by
  unfold kapiHashResize
  dsimp only
  by_cases hsame : clampBits newBits = ht.bits
  · rwa [if_pos hsame]
  cases allocates with
  | false => rwa [if_neg hsame, if_pos (by decide)]
  | true =>
  rw [if_neg hsame, if_neg (by decide)]
  obtain ⟨hbuckets, hone⟩ := hok.resolve_left hsame
  -- where a node comes to is where its key belongs
  have hdest {i : ℕ} {n : Node} {k : Key} (hn : n ∈ ht.buckets i) (hk : (n, k) ∈ es) :
      bucket (clampBits newBits) (movedHash hashFn null i) = bucket (clampBits newBits) (hashOf hashFn k) := by
    cases hashFn with
    | some hash => exact (hbuckets (n, k) hk).symm
    | none =>
      obtain ⟨_, -, hb⟩ := h.place i n hn
      have hzero : i = 0 := hb.symm.trans (Nat.zero_and _)
      rw [hzero]
      rfl
  have hplaced {i : ℕ} {n : Node} (hp : (i, n) ∈ placed ht) : n ∈ ht.buckets i := by
    obtain ⟨j, -, hj⟩ := List.mem_flatMap.mp hp
    obtain ⟨m, hm, heq⟩ := List.mem_map.mp hj
    cases heq
    exact hm
  refine ⟨h.distinct, fun i n hn => ?_, fun k => ?_, h.size⟩
  · dsimp only at hn
    rw [foldl_addHead (d := fun i => bucket (clampBits newBits) (movedHash hashFn null i)), List.append_nil,
      List.mem_reverse] at hn
    obtain ⟨⟨j, m⟩, hp, rfl⟩ := List.mem_map.mp hn
    obtain ⟨hp, hj⟩ := List.mem_filter.mp hp
    obtain ⟨k, hk, -⟩ := h.place j m (hplaced hp)
    exact ⟨k, hk, (hdest (hplaced hp) hk).symm.trans (of_decide_eq_true hj)⟩
  · dsimp only
    have hlist : ((placed ht).map Prod.snd).filter (fun n => (n, k) ∈ es) = (es.filter fun e => e.2 = k).map Prod.fst := by
      rw [← h.order k, placed, List.map_flatMap, List.filter_flatMap]
      simp only [List.map_map, Function.comp_def, List.map_id']
      refine flatMap_range_single (bucket_lt _ _) fun i hi => List.filter_eq_nil_iff.mpr fun n hn hk => hi ?_
      obtain ⟨k', hk', hb⟩ := h.place i n hn
      rw [← hb, h.key_eq hk' (of_decide_eq_true hk)]
    have hshort : ((es.filter fun e => e.2 = k).map Prod.fst).reverse = (es.filter fun e => e.2 = k).map Prod.fst := by
      have hlength : (es.filter fun e => e.2 = k).length ≤ 1 := hone k
      generalize es.filter (fun e => decide (e.2 = k)) = l at hlength
      rcases l with _ | ⟨e, _ | ⟨_, _⟩⟩
      · rfl
      · rfl
      · cases hlength with
        | step hlength => cases hlength
    rw [foldl_addHead (d := fun i => bucket (clampBits newBits) (movedHash hashFn null i)), List.append_nil,
      List.filter_reverse, ← hshort, ← hlist, List.filter_map, List.filter_map,
      List.filter_filter]
    congr 2
    refine List.filter_congr fun p hp => ?_
    rw [Bool.and_eq_left_iff_imp]
    exact fun hk => decide_eq_true (hdest (hplaced hp) (of_decide_eq_true hk))

theorem Inv.pairStep {s t : HashTable Node × List (Node × Key)} {op : Op Node Key} (h : Inv hashFn s.1 s.2)
    (hok : Harmless hashFn null s op) (hst : pairStep hashFn null s op = some t) : Inv hashFn t.1 t.2 := by
  cases hst
  cases op with
  | add key node =>
    dsimp only [step, mapStep]
    by_cases hin : node ∈ s.2.map Prod.fst
    · rw [if_pos hin, kapiHashAdd, if_pos (h.hashed_iff.mpr hin)]
      exact h
    · rw [if_neg hin]
      exact h.add hin
  | del node => exact h.del
  | resize newBits allocates => exact h.resize hok

/-- In a run whose resizes are harmless the table finds the last node of each key in every state. -/
theorem find_last_added (hashFn : Option (Key → UInt64)) (null : Key) (bits : ℕ) (s : HashTable Node × List (Node × Key))
    (hs : Reach (pairStep hashFn null) (Harmless hashFn null) (kapiHashCreate bits, []) s) : Finds hashFn s :=
  (hs.invariant (I := fun s => Inv hashFn s.1 s.2) (.create bits) fun _ _ _ h hok hst => h.pairStep hok hst).finds

/-- An empty table grows, and then finds what is added. -/
theorem grown_found : Finds (some id) ((step (some id) 0 (kapiHashResize (some id) (0 : UInt64) (kapiHashCreate 4) 5 true).2
    (.add 1 true)).2, [(true, (1 : UInt64))]) :=
  find_last_added (some id) 0 4 _ (.step (.add 1 true) (.step (.resize 5 true) .start (.inr ⟨nofun, fun _ => Nat.zero_le 1⟩)
    rfl) trivial rfl)

/-- Key 1 has its bucket after a resize to 5 bits, but the node went to that of `(NULL, 0)`. -/
theorem resized_lost : ¬∀ s, Reach (pairStep (some id) (0 : UInt64)) (fun _ _ => True)
    (kapiHashCreate 4, ([] : List (Bool × UInt64))) s → Finds (some id) s := by
  intro hall
  obtain ⟨-, hfind⟩ := hall _ (.step (.resize 5 true) (.step (.add 1 true) .start trivial rfl) trivial rfl)
  have hlost := hfind (fun _ key => if key = 1 then 0 else 1) (fun e he key => ?_) 1
  · revert hlost
    decide
  · obtain rfl : e = (true, 1) := List.mem_singleton.mp he
    dsimp only
    split_ifs with hkey <;> simp [hkey, eq_comm]

end Hash
