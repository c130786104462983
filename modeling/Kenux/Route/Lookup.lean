import Kenux.Lib.Ordered
import Kenux.Lib.Run
import Mathlib.Data.UInt

/-!
# Routing tables (`arch/x86_64/route.c`)

A table is a list of entries. The locks and the fields of an entry that a lookup only hands on (`mtu`, `type`, `flags`
and `ifname`) are left out.
-/

namespace Route

def fibTableMax : ℕ := 256

def fibEntryMax : ℕ := 1024

def rtTableMain : UInt32 := 254

def rtTableDefault : UInt32 := 253

def rtTableLocal : UInt32 := 255

/-- `route_entry_t` -/
structure Entry where
  dst : UInt32
  mask : UInt32
  gw : UInt32
  ifIndex : Int32
  metric : UInt32
  /-- Not in the source: how many entries were added before. -/
  serial : ℕ

/-- `route_table_t` -/
structure Table where
  tbId : UInt32 := 0
  entries : List Entry := []
  count : ℕ := 0

/-- The global `fib`, and how many entries were added so far. -/
structure Fib where
  tables : ℕ → Table
  tableCount : ℕ
  added : ℕ

def Fib.setTable (f : Fib) (i : ℕ) (table : Table) : Fib := { f with tables := Function.update f.tables i table }

/-- The loop of `mask_to_prefix`; 32 rounds shift every bit out. -/
def prefixLoop : ℕ → UInt32 → ℕ
  | 0, _ => 0
  | k + 1, mask => if mask = 0 then 0 else (mask &&& 1).toNat + prefixLoop k (mask >>> 1)

def maskToPrefix (mask : UInt32) : ℕ := prefixLoop 32 mask

/-- `route_table_get`: the first table with the number. The tables that are not in use have number 0. -/
def routeTableGet (f : Fib) (tableId : UInt32) : Option ℕ :=
  (List.range fibTableMax).find? fun i => (f.tables i).tbId = tableId

/-- `route_table_create`; `none` stands for -1. -/
def routeTableCreate (f : Fib) (tableId : UInt32) : Option Fib :=
  ((List.range fibTableMax).find? fun i => (f.tables i).tbId = 0).map fun i =>
    { f.setTable i { tbId := tableId } with tableCount := f.tableCount + 1 }

/-- The test at which the loop of `route_insert_sorted` stops. -/
def GoesBefore (entry cur : Entry) : Prop :=
  maskToPrefix cur.mask < maskToPrefix entry.mask ∨
    maskToPrefix entry.mask = maskToPrefix cur.mask ∧ entry.metric < cur.metric

instance (entry cur : Entry) : Decidable (GoesBefore entry cur) := inferInstanceAs (Decidable (_ ∨ _))

def routeInsertSorted (table : Table) (entry : Entry) : Table :=
  { table with entries := table.entries.orderedInsert GoesBefore entry }

/-- The table for a new entry, which is created if it is not there yet. -/
def getOrCreate (f : Fib) (tableId : UInt32) : Fib × Option ℕ :=
  match routeTableGet f tableId with
  | some i => (f, some i)
  | none =>
    match routeTableCreate f tableId with
    | none => (f, none)
    | some f => (f, routeTableGet f tableId)

/-- `route_add`; `alloc` says whether the entry is allocated. -/
def routeAdd (f : Fib) (tableId dst mask gw : UInt32) (ifIndex : Int32) (metric : UInt32) (alloc : Bool) : Bool × Fib :=
  match getOrCreate f tableId with
  | (f, none) => (false, f)
  | (f, some i) =>
    if (f.tables i).count ≥ fibEntryMax then (false, f)
    else if ¬alloc then (false, f)
    else
      let table := routeInsertSorted (f.tables i) ⟨dst &&& mask, mask, gw, ifIndex, metric, f.added⟩
      (true, { f.setTable i { table with count := table.count + 1 } with added := f.added + 1 })

/-- `route_del` -/
def routeDel (f : Fib) (tableId dst mask : UInt32) : Bool × Fib :=
  match routeTableGet f tableId with
  | none => (false, f)
  | some i =>
    let table := f.tables i
    let found := fun e : Entry => e.dst = dst &&& mask ∧ e.mask = mask
    if table.entries.any fun e => found e then
      (true, f.setTable i { table with entries := table.entries.eraseP fun e => found e, count := table.count - 1 })
    else (false, f)

/-- `route_flush` -/
def routeFlush (f : Fib) (tableId : UInt32) : Fib :=
  match routeTableGet f tableId with
  | none => f
  | some i => f.setTable i { f.tables i with entries := [], count := 0 }

/-- The body of the inner loop of `route_lookup`: the best entry so far, and its prefix length. -/
def lookupEntry (dst : UInt32) (best : Option Entry × ℕ) (e : Entry) : Option Entry × ℕ :=
  if dst &&& e.mask = e.dst then
    let p := maskToPrefix e.mask
    if p > best.2 then (some e, p) else best
  else best

/-- `route_lookup` -/
def routeLookup (f : Fib) (dst : UInt32) : Option Entry :=
  ((List.range fibTableMax).foldl (fun best t =>
    if (f.tables t).tbId = 0 then best else (f.tables t).entries.foldl (lookupEntry dst) best) (none, 0)).1

/-- `route_init`; the arguments say whether its two entries are allocated. -/
def routeInit (alloc₁ alloc₂ : Bool) : Fib :=
  let f : Fib := ⟨fun _ => {}, 0, 0⟩
  let f := (routeTableCreate f rtTableLocal).getD f
  let f := (routeTableCreate f rtTableMain).getD f
  let f := (routeTableCreate f rtTableDefault).getD f
  let f := (routeAdd f rtTableLocal 0x7f000001 0xffffffff 0 1 0 alloc₁).2
  (routeAdd f rtTableLocal 0x7f000000 0xff000000 0 1 0 alloc₂).2

/-! ## Runs -/

inductive Call where
  | add (tableId dst mask gw : UInt32) (ifIndex : Int32) (metric : UInt32) (alloc : Bool)
  | del (tableId dst mask : UInt32)
  | flush (tableId : UInt32)

def step (f : Fib) : Call → Option Fib
  | .add tableId dst mask gw ifIndex metric alloc => some (routeAdd f tableId dst mask gw ifIndex metric alloc).2
  | .del tableId dst mask => some (routeDel f tableId dst mask).2
  | .flush tableId => some (routeFlush f tableId)

/-! ## Longest prefix -/

/-- The prefix of the entry contains the destination. -/
def Matches (dst : UInt32) (e : Entry) : Prop := dst &&& e.mask = e.dst

/-- Some table holds the entry, be it in use or not. -/
def Fib.Holds (f : Fib) (e : Entry) : Prop := ∃ t < fibTableMax, e ∈ (f.tables t).entries

/-- What a lookup should find: in one table in use a matching entry, none longer in any table; in that table it has the
lowest metric of the matching entries of its length, and is the earliest of these. -/
structure Longest (f : Fib) (dst : UInt32) (e : Entry) : Prop where
  inside : Matches dst e
  longest : ∀ e', f.Holds e' → Matches dst e' → maskToPrefix e'.mask ≤ maskToPrefix e.mask
  lowest : ∃ t < fibTableMax, e ∈ (f.tables t).entries ∧ ∀ e' ∈ (f.tables t).entries, Matches dst e' →
    maskToPrefix e'.mask = maskToPrefix e.mask →
      e.metric < e'.metric ∨ e.metric = e'.metric ∧ e.serial ≤ e'.serial

/-- A lookup finds such an entry, and none only if no entry matches. -/
def LookupOk (f : Fib) (dst : UInt32) : Prop :=
  match routeLookup f dst with
  | some e => Longest f dst e
  | none => ∀ e, f.Holds e → ¬Matches dst e

/-!
## The longest prefix

In every table the entries stand by prefix length, metric and age, so the first match of a length is the one to find.
-/

open Ordered

variable {f f' : Fib} {e e' : Entry} {table : Table} {dst : UInt32} {i t : ℕ}

section Order

/-- The order in a table. -/
def Before (a b : Entry) : Prop :=
  maskToPrefix b.mask < maskToPrefix a.mask ∨ maskToPrefix a.mask = maskToPrefix b.mask ∧
    (a.metric < b.metric ∨ a.metric = b.metric ∧ a.serial < b.serial)

/-- A new entry comes to stand by the order. -/
theorem pairwise_insert (h : table.entries.Pairwise Before) (hnew : ∀ b ∈ table.entries, b.serial < e.serial) :
    (routeInsertSorted table e).entries.Pairwise Before := by
  unfold routeInsertSorted
  refine pairwise_orderedInsert h (fun b _ hlt => ?_) (fun b hb hnot => ?_) fun b _ c _ hbc hlt => ?_
  · rcases hlt with hlt | ⟨heq, hlt⟩
    · exact .inl hlt
    · exact .inr ⟨heq, .inl hlt⟩
  · obtain ⟨hge, hmetric⟩ := not_or.mp hnot
    have hserial := hnew b hb
    rcases Nat.lt_or_eq_of_le (Nat.not_lt.mp hge) with hlt | heq
    · exact .inl hlt
    · have hle : ¬e.metric < b.metric := fun hlt => hmetric ⟨heq, hlt⟩
      refine .inr ⟨heq.symm, ?_⟩
      rcases UInt32.lt_or_eq_of_le (UInt32.not_lt.mp hle) with hlt | heq
      · exact .inl hlt
      · exact .inr ⟨heq, hserial⟩
  · unfold GoesBefore at hlt
    unfold Before at hbc ⊢
    rw [UInt32.lt_iff_toNat_lt] at hlt hbc ⊢
    rw [← UInt32.toNat_inj] at hbc ⊢
    omega

/-- Every table is in order, and the entries in it are numbered as they were added. -/
structure Inv (f : Fib) : Prop where
  ordered : ∀ t, (f.tables t).entries.Pairwise Before
  numbered : ∀ t, ∀ e ∈ (f.tables t).entries, e.serial < f.added

theorem Inv.setTable (h : Inv f) (hordered : table.entries.Pairwise Before)
    (hnumbered : ∀ e ∈ table.entries, e.serial < f.added) (i : ℕ) : Inv (f.setTable i table) := by
  constructor
  · intro t
    unfold Fib.setTable
    dsimp only
    by_cases hti : t = i
    · rw [hti, Function.update_self]
      exact hordered
    · rw [Function.update_of_ne hti]
      exact h.ordered t
  · intro t
    unfold Fib.setTable
    dsimp only
    by_cases hti : t = i
    · rw [hti, Function.update_self]
      exact hnumbered
    · rw [Function.update_of_ne hti]
      exact h.numbered t

theorem Inv.sublist (h : Inv f) (hsub : table.entries.Sublist (f.tables i).entries) : Inv (f.setTable i table) :=
  h.setTable ((h.ordered i).sublist hsub) (fun e he => h.numbered i e (hsub.subset he)) i

theorem Inv.create (h : Inv f) {tableId : UInt32} (hcreate : routeTableCreate f tableId = some f') : Inv f' := by
  obtain ⟨i, -, rfl⟩ := Option.map_eq_some_iff.mp hcreate
  have hempty : Inv (f.setTable i { tbId := tableId }) :=
    h.setTable List.Pairwise.nil (fun _ he => absurd he List.not_mem_nil) i
  exact ⟨hempty.ordered, hempty.numbered⟩

theorem Inv.getOrCreate (h : Inv f) (tableId : UInt32) : Inv (getOrCreate f tableId).1 := by
  unfold Route.getOrCreate
  cases routeTableGet f tableId with
  | some i => exact h
  | none =>
    cases hcreate : routeTableCreate f tableId with
    | none => exact h
    | some f' => exact h.create hcreate

theorem Inv.insert (h : Inv f) (i : ℕ) {e : Entry} (he : e.serial = f.added) (count : ℕ) :
    Inv { f.setTable i { routeInsertSorted (f.tables i) e with count := count } with added := f.added + 1 } := by
  have hnew : ∀ b ∈ (f.tables i).entries, b.serial < e.serial := fun b hb => he ▸ h.numbered i b hb
  have hlater : Inv { f with added := f.added + 1 } :=
    ⟨h.ordered, fun t b hb => Nat.lt_succ_of_lt (h.numbered t b hb)⟩
  have hput : Inv (Fib.setTable { f with added := f.added + 1 } i
      { routeInsertSorted (f.tables i) e with count := count }) := by
    have hordered : ({ routeInsertSorted (f.tables i) e with count := count } : Table).entries.Pairwise Before :=
      pairwise_insert (h.ordered i) hnew
    refine hlater.setTable hordered (fun b hb => ?_) i
    rcases (List.mem_orderedInsert _).mp hb with rfl | hb
    · dsimp only
      omega
    · exact Nat.lt_succ_of_lt (h.numbered i b hb)
  exact ⟨hput.ordered, hput.numbered⟩

theorem Inv.add (h : Inv f) (tableId dst mask gw : UInt32) (ifIndex : Int32) (metric : UInt32) (alloc : Bool) :
    Inv (routeAdd f tableId dst mask gw ifIndex metric alloc).2 := by
  have hget := h.getOrCreate tableId
  unfold routeAdd
  generalize Route.getOrCreate f tableId = r at hget ⊢
  rcases r with ⟨f, _ | i⟩
  · exact hget
  · dsimp only at hget ⊢
    split_ifs
    · exact hget
    · exact hget.insert i rfl _
    · exact hget

theorem Inv.step {c : Call} (h : Inv f) (hst : step f c = some f') : Inv f' := by
  cases c with
  | add tableId dst mask gw ifIndex metric alloc =>
    cases hst
    exact h.add tableId dst mask gw ifIndex metric alloc
  | del tableId dst mask =>
    cases hst
    unfold routeDel
    cases routeTableGet f tableId with
    | none => exact h
    | some i =>
      dsimp only
      split_ifs
      · exact h.sublist List.eraseP_sublist
      · exact h
  | flush tableId =>
    cases hst
    unfold routeFlush
    cases routeTableGet f tableId with
    | none => exact h
    | some i => exact h.sublist (List.nil_sublist _)

theorem inv_init (alloc₁ alloc₂ : Bool) : Inv (routeInit alloc₁ alloc₂) := by
  have hempty : Inv ⟨fun _ => {}, 0, 0⟩ :=
    ⟨fun _ => List.Pairwise.nil, fun _ _ he => absurd he List.not_mem_nil⟩
  have hcreate : ∀ f tableId, Inv f → Inv ((routeTableCreate f tableId).getD f) := by
    intro f tableId h
    cases hcreate : routeTableCreate f tableId with
    | none => exact h
    | some f' => exact h.create hcreate
  unfold routeInit
  exact ((hcreate _ _ (hcreate _ _ (hcreate _ _ hempty))).add _ _ _ _ _ _ _).add _ _ _ _ _ _ _

end Order

section Lookup

/-- The length of a matching prefix. -/
def score (dst : UInt32) (e : Entry) : ℕ := if dst &&& e.mask = e.dst then maskToPrefix e.mask else 0

theorem score_of_matches (h : Matches dst e) : score dst e = maskToPrefix e.mask := if_pos h

theorem matches_of_score (h : 0 < score dst e) : Matches dst e := by
  by_contra hno
  have hzero : score dst e = 0 := if_neg hno
  omega

/-- The entries that a lookup sees of a table. -/
def seen (f : Fib) (t : ℕ) : List Entry := if (f.tables t).tbId = 0 then [] else (f.tables t).entries

theorem mem_seen : e ∈ seen f t ↔ (f.tables t).tbId ≠ 0 ∧ e ∈ (f.tables t).entries := by
  unfold seen
  split_ifs with h
  · simp [h]
  · simp [h]

theorem lookupEntry_eq (dst : UInt32) : lookupEntry dst = better (score dst) := by
  funext best e
  unfold lookupEntry better score
  dsimp only
  by_cases hmatch : dst &&& e.mask = e.dst
  · rw [if_pos hmatch, if_pos hmatch]
  · rw [if_neg hmatch, if_neg hmatch, if_neg (Nat.not_lt_zero _)]

theorem routeLookup_eq : routeLookup f dst = (bestOf (score dst) (seen f) (List.range fibTableMax)).1 := by
  unfold routeLookup bestOf seen
  rw [lookupEntry_eq]
  congr 2
  funext best t
  split_ifs
  · rfl
  · rfl

/-- In every state, a lookup finds the entry with the longest matching prefix, of the lowest metric and the earliest
of these, exactly when every matching entry has a matching entry at least as long, which is not a default route, in a
table with a number other than 0. -/
theorem route_lookup_iff {alloc₁ alloc₂ : Bool}
    (h : Run.Reach step (fun _ _ => True) (routeInit alloc₁ alloc₂) f) (dst : UInt32) :
    LookupOk f dst ↔ ∀ e, f.Holds e → Matches dst e → ∃ t < fibTableMax, (f.tables t).tbId ≠ 0 ∧
      ∃ e' ∈ (f.tables t).entries, Matches dst e' ∧ 0 < maskToPrefix e'.mask ∧
        maskToPrefix e.mask ≤ maskToPrefix e'.mask := by
  have hinv : Inv f := h.invariant (inv_init alloc₁ alloc₂) fun _ _ _ hi _ hst => hi.step hst
  unfold LookupOk
  rw [routeLookup_eq]
  rcases @bestOf_spec _ _ (score dst) (seen f) (List.range fibTableMax) with
    ⟨hbest, hzero⟩ | ⟨i, hi, l₁, a, l₂, hsplit, hbest, hpos, hless, hall⟩
  · rw [hbest]
    constructor
    · intro hnone e he hmatch
      exact absurd hmatch (hnone e he)
    · intro hcover e he hmatch
      obtain ⟨t, ht, hnamed, e', he', hmatch', hpos, -⟩ := hcover e he hmatch
      have hscore := hzero t (List.mem_range.mpr ht) e' (mem_seen.mpr ⟨hnamed, he'⟩)
      rw [score_of_matches hmatch'] at hscore
      omega
  · rw [hbest]
    have hmatch := matches_of_score hpos
    have hscore := score_of_matches hmatch
    have hseen : a ∈ seen f i := hsplit ▸ List.mem_append_right l₁ List.mem_cons_self
    obtain ⟨hnamed, hmem⟩ := mem_seen.mp hseen
    constructor
    · intro hlongest e he hmatch'
      exact ⟨i, List.mem_range.mp hi, hnamed, a, hmem, hmatch, by omega, hlongest.longest e he hmatch'⟩
    · intro hcover
      refine ⟨hmatch, fun e he hmatch' => ?_, i, List.mem_range.mp hi, hmem, fun e he hmatch' hlen => ?_⟩
      · obtain ⟨t, ht, hnamed', e', he', hin, -, hle⟩ := hcover e he hmatch'
        have hbound := hall t (List.mem_range.mpr ht) e' (mem_seen.mpr ⟨hnamed', he'⟩)
        rw [score_of_matches hin, hscore] at hbound
        omega
      · have hentries : (f.tables i).entries = l₁ ++ a :: l₂ := by
          unfold seen at hsplit
          rwa [if_neg hnamed] at hsplit
        have hordered := hinv.ordered i
        rw [hentries] at he hordered
        obtain ⟨-, hrest, -⟩ := List.pairwise_append.mp hordered
        rcases List.mem_append.mp he with he | he
        · have hlt := hless e he
          rw [score_of_matches hmatch'] at hlt
          omega
        · rcases List.mem_cons.mp he with rfl | he
          · exact .inr ⟨rfl, Nat.le_refl _⟩
          · rcases (List.pairwise_cons.mp hrest).1 e he with hlt | ⟨-, hmetric⟩
            · omega
            · exact hmetric.imp id fun hage => ⟨hage.1, Nat.le_of_lt hage.2⟩

/-- A route to 10.0.0.0/8, and a default route. -/
def twoRoutes : List Call :=
  [.add rtTableMain 0x0a000000 0xff000000 0 2 0 true, .add rtTableMain 0 0 0x0a000001 2 0 true]

/-- An address in 10.0.0.0/8 is routed by the longer prefix. -/
theorem route_lookup_iff_ten : ∃ f, Run.run step (routeInit true true) twoRoutes = some f ∧
    (LookupOk f 0x0a010203 ↔ ∀ e, f.Holds e → Matches 0x0a010203 e → ∃ t < fibTableMax, (f.tables t).tbId ≠ 0 ∧
      ∃ e' ∈ (f.tables t).entries, Matches 0x0a010203 e' ∧ 0 < maskToPrefix e'.mask ∧
        maskToPrefix e.mask ≤ maskToPrefix e'.mask) := by
  obtain ⟨f, hrun⟩ : ∃ f, Run.run step (routeInit true true) twoRoutes = some f := ⟨_, rfl⟩
  exact ⟨f, hrun, route_lookup_iff (.of_run .start hrun) 0x0a010203⟩

/-- Another address is not routed at all. -/
theorem default_route_unused :
    ¬∀ f, Run.Reach step (fun _ _ => True) (routeInit true true) f → ∀ dst, LookupOk f dst := by
  intro hall
  obtain ⟨f, hrun⟩ : ∃ f, Run.run step (routeInit true true) twoRoutes = some f := ⟨_, rfl⟩
  have hlookup : (Run.run step (routeInit true true) twoRoutes).map
      (fun f => ((routeLookup f 0x08080808).isNone, (f.tables 1).entries.any fun e => 0x08080808 &&& e.mask = e.dst)) =
        some (true, true) := by
    decide +kernel
  rw [hrun] at hlookup
  obtain ⟨hnone, hany⟩ := Prod.mk.inj (Option.some.inj hlookup)
  have hok := hall f (.of_run .start hrun) 0x08080808
  unfold LookupOk at hok
  rw [Option.isNone_iff_eq_none.mp hnone] at hok
  obtain ⟨e, he, hmatch⟩ := List.any_eq_true.mp hany
  have hmatch : 0x08080808 &&& e.mask = e.dst := of_decide_eq_true hmatch
  exact hok e ⟨1, by decide, he⟩ hmatch

end Lookup

end Route
