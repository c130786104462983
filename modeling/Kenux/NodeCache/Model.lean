import Kenux.Lib.Count
import Kenux.Lib.Run
import Mathlib.Data.UInt

/-!
# The page cache of nodes (`arch/x86_64/pagecache.c`)

Entries are named in the order of their insertion, and none is ever removed, so the hash chains are lists
to which entries are added in front. Several callers take steps: a section under `pc_lock` is one step, and
so are the accesses to a page outside the lock. The bytes of a page are left out; `passed` and `unsaved`
record whether the page was passed to `node->write` and has got bytes since.
-/

namespace NodeCache

def pageSize : ℕ := 4096
def pageCacheHashSize : ℕ := 1024

/-- `pagecache_entry_t`, with the flags that are used. -/
structure Entry where
  node : UInt64
  offset : UInt64
  uptodate : Bool
  dirty : Bool
  writeback : Bool
  refCount : ℕ
  deriving DecidableEq

/-- The variables of the file; `pcDirty` below zero is a wrapped counter. -/
structure Cache where
  hashTable : ℕ → List ℕ
  lru : List ℕ
  entries : ℕ → Entry
  pcTotal : ℕ
  pcDirty : ℤ

/-- `__hash` -/
def hashOf (node offset : UInt64) : ℕ := ((node ^^^ offset) &&& 1023).toNat

/-- Which nodes have the functions `read` and `write`. -/
structure VfsOps where
  read : UInt64 → Bool
  write : UInt64 → Bool

/-! ## Sections under the lock -/

def Cache.mod (s : Cache) (e : ℕ) (f : Entry → Entry) : Cache :=
  { s with entries := Function.update s.entries e (f (s.entries e)) }

/-- `pagecache_init` -/
def pagecacheInit : Cache where
  hashTable _ := []
  lru := []
  entries _ := ⟨0, 0, false, false, false, 0⟩
  pcTotal := 0
  pcDirty := 0

/-- The walk of `pagecache_find_page`. -/
def Cache.find (s : Cache) (node offset : UInt64) : Option ℕ :=
  (s.hashTable (hashOf node offset)).find? fun e =>
    (s.entries e).node = node && (s.entries e).offset = offset

/-- `pagecache_find_page` for an entry that it finds. -/
def Cache.hold (s : Cache) (e : ℕ) : Cache :=
  let s := s.mod e fun p => { p with refCount := p.refCount + 1 }
  { s with lru := e :: s.lru.erase e }

/-- The insertion in `pagecache_get_page`. -/
def Cache.insert (s : Cache) (node offset : UInt64) : Cache :=
  let e := s.pcTotal
  let h := hashOf node offset
  { s with
    hashTable := Function.update s.hashTable h (e :: s.hashTable h)
    lru := e :: s.lru
    entries := Function.update s.entries e ⟨node, offset, false, false, false, 1⟩
    pcTotal := s.pcTotal + 1 }

def Cache.setDirty (s : Cache) (e : ℕ) : Cache :=
  if (s.entries e).dirty then s
  else
    let s := s.mod e fun p => { p with dirty := true }
    { s with pcDirty := s.pcDirty + 1 }

def Cache.clearDirty (s : Cache) (e : ℕ) : Cache :=
  if (s.entries e).dirty then
    let s := s.mod e fun p => { p with dirty := false }
    { s with pcDirty := s.pcDirty - 1 }
  else s

/-- What `pagecache_sync_node` does to an entry when it has the lock again. -/
def Cache.written (s : Cache) (e : ℕ) : Cache :=
  let s := s.mod e fun p => { p with dirty := false, writeback := false }
  { s with pcDirty := s.pcDirty - 1 }

def Cache.toSync (s : Cache) (node : UInt64) (e : ℕ) : Bool :=
  (s.entries e).node = node && (s.entries e).dirty

/-- The next entry to write: in the rest of chain `h`, or in a later chain. -/
def Cache.nextDirty (s : Cache) (node : UInt64) (h : ℕ) (rest : List ℕ) : Option (ℕ × ℕ) :=
  match rest.find? (s.toSync node) with
  | some e => some (h, e)
  | none => (List.range' (h + 1) (pageCacheHashSize - (h + 1))).findSome? fun h =>
      ((s.hashTable h).find? (s.toSync node)).map fun e => (h, e)

/-- The entries of a chain behind an entry. -/
def behind (chain : List ℕ) (e : ℕ) : List ℕ := (chain.dropWhile (· ≠ e)).tail

/-! ## Callers -/

/-- Where a caller is. -/
inductive Pc where
  | idle
  /-- in `pagecache_get_page`, the page was not found -/
  | getMiss (node offset : UInt64)
  /-- in `pagecache_get_page`, the entry is inserted -/
  | getRead (e : ℕ)
  /-- in `pagecache_write`, the bytes are copied -/
  | wrote (e : ℕ)
  /-- in `pagecache_sync_node`, the lock is released for an entry -/
  | syncWrite (node : UInt64) (h e count : ℕ)
  /-- in `pagecache_sync_node`, the entry was passed to `node->write` -/
  | syncLock (node : UInt64) (h e count : ℕ)
  deriving DecidableEq

inductive Action where
  | getPage (node offset : UInt64)
  | insert (alloc : Bool)
  | readNode
  | write (e : ℕ) (offsetInPage len : UInt64)
  | markWritten
  | setDirty (e : ℕ)
  | clearDirty (e : ℕ)
  | syncNode (node : UInt64)
  | writeNode
  | relock

structure State (ι : Type*) where
  cache : Cache
  pc : ι → Pc
  passed : ℕ → Bool
  unsaved : ℕ → Bool

variable {ι : Type*} [DecidableEq ι]

def State.goto (s : State ι) (c : ι) (pc : Pc) : State ι := { s with pc := Function.update s.pc c pc }

/-- The bytes that `pagecache_write` copies. -/
def copied (offsetInPage len : UInt64) : UInt64 :=
  if offsetInPage + len > 4096 then 4096 - offsetInPage else len

/-- `n` bytes are copied into a page. -/
def State.copy (s : State ι) (e : ℕ) (n : UInt64) : State ι :=
  { s with unsaved := Function.update s.unsaved e (s.unsaved e || (s.passed e && n ≠ 0)) }

/-- A page is passed to `node->write`. -/
def State.pass (s : State ι) (e : ℕ) : State ι :=
  { s with passed := Function.update s.passed e true, unsaved := Function.update s.unsaved e false }

/-- `pagecache_sync_node` goes on, up to the next entry to write, which it marks, or to its end. -/
def State.syncOn (s : State ι) (c : ι) (node : UInt64) (count : ℕ) : Option (ℕ × ℕ) → State ι
  | none => s.goto c .idle
  | some (h, e) =>
    { s with cache := s.cache.mod e fun p => { p with writeback := true } }.goto c
      (.syncWrite node h e count)

/-- One step of a caller; `none` is a step that it cannot take. -/
def step (ops : VfsOps) (s : State ι) : ι × Action → Option (State ι)
  | (c, .getPage node offset) =>
    if s.pc c = .idle then
      match s.cache.find node offset with
      | some e => some { s with cache := s.cache.hold e }
      | none => some (s.goto c (.getMiss node offset))
    else none
  | (c, .insert alloc) =>
    match s.pc c with
    | .getMiss node offset =>
      if alloc then
        some ({ s with
          cache := s.cache.insert node offset
          passed := Function.update s.passed s.cache.pcTotal false
          unsaved := Function.update s.unsaved s.cache.pcTotal false }.goto c (.getRead s.cache.pcTotal))
      else some (s.goto c .idle)
    | _ => none
  | (c, .readNode) =>
    match s.pc c with
    | .getRead e =>
      let node := (s.cache.entries e).node
      if node ≠ 0 ∧ ops.read node then
        some ({ s with cache := s.cache.mod e fun p => { p with uptodate := true } }.goto c .idle)
      else some (s.goto c .idle)
    | _ => none
  | (c, .write e offsetInPage len) =>
    if s.pc c = .idle ∧ e < s.cache.pcTotal then
      if offsetInPage ≥ 4096 then some s
      else
        let n := copied offsetInPage len
        if offsetInPage.toNat + n.toNat > pageSize then none
        else some ((s.copy e n).goto c (.wrote e))
    else none
  | (c, .markWritten) =>
    match s.pc c with
    | .wrote e => some ({ s with cache := s.cache.setDirty e }.goto c .idle)
    | _ => none
  | (c, .setDirty e) =>
    if s.pc c = .idle ∧ e < s.cache.pcTotal then some { s with cache := s.cache.setDirty e } else none
  | (c, .clearDirty e) =>
    if s.pc c = .idle ∧ e < s.cache.pcTotal then some { s with cache := s.cache.clearDirty e } else none
  | (c, .syncNode node) =>
    if s.pc c = .idle then
      if node = 0 then some s
      else some (s.syncOn c node 0 (s.cache.nextDirty node 0 (s.cache.hashTable 0)))
    else none
  | (c, .writeNode) =>
    match s.pc c with
    | .syncWrite node h e count =>
      if ops.write node then some ((s.pass e).goto c (.syncLock node h e count))
      else some (s.goto c (.syncLock node h e count))
    | _ => none
  | (c, .relock) =>
    match s.pc c with
    | .syncLock node h e count =>
      let cache := s.cache.written e
      some ({ s with cache }.syncOn c node (count + 1)
        (cache.nextDirty node h (behind (cache.hashTable h) e)))
    | _ => none

def start : State ι := ⟨pagecacheInit, fun _ => .idle, fun _ => false, fun _ => false⟩

/-! ## What is asked of it -/

/-- Bytes that came into a page after it was passed to `node->write` are in a dirty entry, or their writer
is about to make it dirty. -/
def State.Kept (s : State ι) (e : ℕ) : Prop :=
  s.unsaved e → (s.cache.entries e).dirty ∨ ∃ c, s.pc c = .wrote e

structure Good (s : State ι) : Prop where
  unique : ∀ e < s.cache.pcTotal, ∀ e' < s.cache.pcTotal,
    (s.cache.entries e).node = (s.cache.entries e').node →
    (s.cache.entries e).offset = (s.cache.entries e').offset → e = e'
  count : s.cache.pcDirty = Count.count s.cache.pcTotal fun e => (s.cache.entries e).dirty
  kept : ∀ e < s.cache.pcTotal, s.Kept e

/-- The page has no bytes that would be lost with its dirty flag. -/
def State.Saved (s : State ι) (e : ℕ) : Prop := s.unsaved e → ∃ c, s.pc c = .wrote e

/-- The step before it: an insertion for a node and offset that have no entry by now; a dirty flag that is
cleared when no bytes depend on it; and a `pagecache_sync_node` that finds its entry still dirty. -/
def StepOk (s : State ι) : ι × Action → Prop
  | (c, .insert alloc) => alloc → ∀ node offset, s.pc c = .getMiss node offset →
    ∀ e < s.cache.pcTotal, ¬((s.cache.entries e).node = node ∧ (s.cache.entries e).offset = offset)
  | (_, .clearDirty e) => (s.cache.entries e).dirty → s.Saved e
  | (c, .relock) => ∀ node h e count, s.pc c = .syncLock node h e count →
    (s.cache.entries e).dirty ∧ s.Saved e
  | _ => True

end NodeCache

/-!
## The sections under the lock

What each section does to the keys of the entries and to their dirty flags.
-/

namespace NodeCache

open Count

section Sections

variable {s t : Cache} {e : ℕ} {f : Entry → Entry}

/-- Both have the same entries, up to their flags and reference counts. -/
structure SameKeys (s t : Cache) : Prop where
  total : t.pcTotal = s.pcTotal
  node : ∀ j, (t.entries j).node = (s.entries j).node
  offset : ∀ j, (t.entries j).offset = (s.entries j).offset
  chain : t.hashTable = s.hashTable

/-- Both have the same dirty entries. -/
structure SameDirty (s t : Cache) : Prop where
  pcDirty : t.pcDirty = s.pcDirty
  dirty : ∀ j, (t.entries j).dirty = (s.entries j).dirty

/-- Of the dirty flags, that of `e` has become `b`, and the counter has changed by `d`. -/
structure Flips (s t : Cache) (e : ℕ) (b : Bool) (d : ℤ) : Prop where
  pcDirty : t.pcDirty = s.pcDirty + d
  dirty : (t.entries e).dirty = b
  other : ∀ j, j ≠ e → (t.entries j).dirty = (s.entries j).dirty

theorem SameKeys.refl (s : Cache) : SameKeys s s := ⟨rfl, fun _ => rfl, fun _ => rfl, rfl⟩

theorem SameKeys.trans {u : Cache} (h : SameKeys s t) (h' : SameKeys t u) : SameKeys s u where
  total := h'.total.trans h.total
  node j := (h'.node j).trans (h.node j)
  offset j := (h'.offset j).trans (h.offset j)
  chain := h'.chain.trans h.chain

theorem SameDirty.refl (s : Cache) : SameDirty s s := ⟨rfl, fun _ => rfl⟩

theorem SameDirty.trans {u : Cache} (h : SameDirty s t) (h' : SameDirty t u) : SameDirty s u where
  pcDirty := h'.pcDirty.trans h.pcDirty
  dirty j := (h'.dirty j).trans (h.dirty j)

theorem Flips.trans_same {u : Cache} {b : Bool} {d : ℤ} (h : Flips s t e b d) (h' : SameDirty t u) :
    Flips s u e b d where
  pcDirty := h'.pcDirty.trans h.pcDirty
  dirty := (h'.dirty e).trans h.dirty
  other j hj := (h'.dirty j).trans (h.other j hj)

theorem mod_self (s : Cache) (e : ℕ) (f : Entry → Entry) : (s.mod e f).entries e = f (s.entries e) := by
  show Function.update s.entries e (f (s.entries e)) e = _
  rw [Function.update_self]

theorem mod_of_ne {j : ℕ} (h : j ≠ e) : (s.mod e f).entries j = s.entries j := by
  show Function.update s.entries e (f (s.entries e)) j = _
  rw [Function.update_of_ne h]

/-- What holds between each entry and its change holds between the entries of both caches. -/
theorem mod_rel {r : Entry → Entry → Prop} (hrefl : ∀ p, r p p) (hf : ∀ p, r p (f p)) (j : ℕ) :
    r (s.entries j) ((s.mod e f).entries j) := by
  by_cases hj : j = e
  · rw [hj, mod_self]
    exact hf _
  · rw [mod_of_ne hj]
    exact hrefl _

theorem mod_sameKeys (hf : ∀ p, (f p).node = p.node ∧ (f p).offset = p.offset) :
    SameKeys s (s.mod e f) where
  total := rfl
  node := mod_rel (r := fun p q => q.node = p.node) (fun _ => rfl) fun p => (hf p).1
  offset := mod_rel (r := fun p q => q.offset = p.offset) (fun _ => rfl) fun p => (hf p).2
  chain := rfl

theorem mod_sameDirty (hf : ∀ p, (f p).dirty = p.dirty) : SameDirty s (s.mod e f) where
  pcDirty := rfl
  dirty := mod_rel (r := fun p q => q.dirty = p.dirty) (fun _ => rfl) hf

theorem hold_sameKeys (s : Cache) (e : ℕ) : SameKeys s (s.hold e) :=
  have h : SameKeys s (s.mod e fun p => { p with refCount := p.refCount + 1 }) :=
    mod_sameKeys fun _ => ⟨rfl, rfl⟩
  ⟨h.total, h.node, h.offset, h.chain⟩

theorem hold_sameDirty (s : Cache) (e : ℕ) : SameDirty s (s.hold e) :=
  have h : SameDirty s (s.mod e fun p => { p with refCount := p.refCount + 1 }) :=
    mod_sameDirty fun _ => rfl
  ⟨h.pcDirty, h.dirty⟩

theorem writeback_sameKeys (s : Cache) (e : ℕ) :
    SameKeys s (s.mod e fun p => { p with writeback := true }) :=
  mod_sameKeys fun _ => ⟨rfl, rfl⟩

theorem writeback_sameDirty (s : Cache) (e : ℕ) :
    SameDirty s (s.mod e fun p => { p with writeback := true }) :=
  mod_sameDirty fun _ => rfl

theorem setDirty_sameKeys (s : Cache) (e : ℕ) : SameKeys s (s.setDirty e) := by
  unfold Cache.setDirty
  by_cases hd : (s.entries e).dirty
  · rw [if_pos hd]
    exact .refl s
  · rw [if_neg hd]
    have h : SameKeys s (s.mod e fun p => { p with dirty := true }) := mod_sameKeys fun _ => ⟨rfl, rfl⟩
    exact ⟨h.total, h.node, h.offset, h.chain⟩

theorem setDirty_dirty (s : Cache) (e : ℕ) : ((s.setDirty e).entries e).dirty := by
  unfold Cache.setDirty
  by_cases hd : (s.entries e).dirty
  · rw [if_pos hd]
    exact hd
  · rw [if_neg hd]
    show ((s.mod e fun p => { p with dirty := true }).entries e).dirty
    rw [mod_self]

/-- The flag of an entry that was clean is set and counted. -/
theorem setDirty_flips (hd : ¬(s.entries e).dirty) : Flips s (s.setDirty e) e true 1 where
  pcDirty := by
    unfold Cache.setDirty
    rw [if_neg hd]
    rfl
  dirty := setDirty_dirty s e
  other j hj := by
    unfold Cache.setDirty
    rw [if_neg hd]
    show ((s.mod e fun p => { p with dirty := true }).entries j).dirty = _
    rw [mod_of_ne hj]

theorem setDirty_of_dirty (hd : (s.entries e).dirty) : s.setDirty e = s := by
  unfold Cache.setDirty
  rw [if_pos hd]

theorem clearDirty_of_clean (hd : ¬(s.entries e).dirty) : s.clearDirty e = s := by
  unfold Cache.clearDirty
  rw [if_neg hd]

theorem clearDirty_sameKeys (s : Cache) (e : ℕ) : SameKeys s (s.clearDirty e) := by
  by_cases hd : (s.entries e).dirty
  · unfold Cache.clearDirty
    rw [if_pos hd]
    have h : SameKeys s (s.mod e fun p => { p with dirty := false }) := mod_sameKeys fun _ => ⟨rfl, rfl⟩
    exact ⟨h.total, h.node, h.offset, h.chain⟩
  · rw [clearDirty_of_clean hd]
    exact .refl s

theorem clearDirty_flips (hd : (s.entries e).dirty) : Flips s (s.clearDirty e) e false (-1) := by
  unfold Cache.clearDirty
  rw [if_pos hd]
  refine ⟨rfl, ?_, fun j hj => ?_⟩
  · show ((s.mod e fun p => { p with dirty := false }).entries e).dirty = false
    rw [mod_self]
  · show ((s.mod e fun p => { p with dirty := false }).entries j).dirty = _
    rw [mod_of_ne hj]

theorem written_sameKeys (s : Cache) (e : ℕ) : SameKeys s (s.written e) :=
  have h : SameKeys s (s.mod e fun p => { p with dirty := false, writeback := false }) :=
    mod_sameKeys fun _ => ⟨rfl, rfl⟩
  ⟨h.total, h.node, h.offset, h.chain⟩

/-- The flag is cleared and the counter decremented, also where the flag was clear. -/
theorem written_flips (s : Cache) (e : ℕ) : Flips s (s.written e) e false (-1) where
  pcDirty := rfl
  dirty := by
    show ((s.mod e fun p => { p with dirty := false, writeback := false }).entries e).dirty = false
    rw [mod_self]
  other j hj := by
    show ((s.mod e fun p => { p with dirty := false, writeback := false }).entries j).dirty = _
    rw [mod_of_ne hj]

theorem insert_old (s : Cache) (node offset : UInt64) {j : ℕ} (hj : j < s.pcTotal) :
    (s.insert node offset).entries j = s.entries j := by
  show Function.update s.entries s.pcTotal _ j = _
  rw [Function.update_of_ne hj.ne]

theorem insert_new (s : Cache) (node offset : UInt64) :
    (s.insert node offset).entries s.pcTotal = ⟨node, offset, false, false, false, 1⟩ := by
  show Function.update s.entries s.pcTotal _ s.pcTotal = _
  rw [Function.update_self]

/-- The chains have the entries that they had, and the new one. -/
theorem mem_insert {node offset : UInt64} {h j : ℕ} (hj : j ∈ (s.insert node offset).hashTable h) :
    j ∈ s.hashTable h ∨ j = s.pcTotal := by
  have hj : j ∈ Function.update s.hashTable (hashOf node offset)
      (s.pcTotal :: s.hashTable (hashOf node offset)) h := hj
  by_cases hh : h = hashOf node offset
  · rw [hh, Function.update_self] at hj
    rcases List.mem_cons.mp hj with rfl | hj
    · exact .inr rfl
    · exact .inl (hh ▸ hj)
  · rw [Function.update_of_ne hh] at hj
    exact .inl hj

end Sections

/-! ## The counter -/

section Counter

variable {s t u : Cache} {e : ℕ}

/-- `pc_dirty` is the number of dirty entries. -/
def Cache.Counted (s : Cache) : Prop :=
  s.pcDirty = count s.pcTotal fun e => (s.entries e).dirty

theorem SameDirty.counted (h : SameDirty s t) (hk : SameKeys s t) : s.Counted → t.Counted := by
  intro hs
  unfold Cache.Counted at *
  rw [h.pcDirty, hk.total, hs]
  congr 1
  exact count_congr fun j _ => by rw [h.dirty]

theorem Flips.counted_set (h : Flips s t e true 1) (hk : SameKeys s t) (he : e < s.pcTotal)
    (hd : ¬(s.entries e).dirty) (hs : s.Counted) : t.Counted := by
  unfold Cache.Counted at *
  have hadd : count s.pcTotal (fun j => ((t.entries j).dirty : Prop)) =
      count s.pcTotal (fun j => ((s.entries j).dirty : Prop)) + 1 :=
    count_add he hd h.dirty fun j hj => by rw [h.other j hj]
  rw [h.pcDirty, hk.total, hs, hadd]
  push_cast
  rfl

/-- A flag that is cleared and counted was set, if the counter is right before and after. -/
theorem Flips.counted_iff (h : Flips s t e false (-1)) (hk : SameKeys s t) (he : e < s.pcTotal)
    (hs : s.Counted) : t.Counted ↔ (s.entries e).dirty := by
  unfold Cache.Counted at *
  rw [h.pcDirty, hk.total, hs]
  have hclean : ¬(t.entries e).dirty := by rw [h.dirty]; exact Bool.false_ne_true
  by_cases hd : (s.entries e).dirty
  · have hadd : count s.pcTotal (fun j => ((s.entries j).dirty : Prop)) =
        count s.pcTotal (fun j => ((t.entries j).dirty : Prop)) + 1 :=
      count_add he hclean hd fun j hj => by rw [h.other j hj]
    refine ⟨fun _ => hd, fun _ => ?_⟩
    rw [hadd]
    push_cast
    omega
  · have hsame : count s.pcTotal (fun j => ((t.entries j).dirty : Prop)) =
        count s.pcTotal (fun j => ((s.entries j).dirty : Prop)) := by
      refine count_congr fun j _ => ?_
      by_cases hj : j = e
      · rw [hj]
        exact ⟨fun hp => absurd hp hclean, fun hp => absurd hp hd⟩
      · rw [h.other j hj]
    refine ⟨fun hcount => ?_, fun hp => absurd hp hd⟩
    rw [hsame] at hcount
    omega

theorem insert_counted (s : Cache) (node offset : UInt64) (hs : s.Counted) :
    (s.insert node offset).Counted := by
  unfold Cache.Counted at *
  have hnew : ¬((s.insert node offset).entries s.pcTotal).dirty := by
    rw [insert_new]
    exact Bool.false_ne_true
  show s.pcDirty = (count (s.pcTotal + 1) fun j => ((s.insert node offset).entries j).dirty : ℕ)
  rw [count_succ hnew, hs]
  congr 1
  exact count_congr fun j hj => by rw [insert_old s node offset hj]

end Counter

end NodeCache
