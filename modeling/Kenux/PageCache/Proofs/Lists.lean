import Kenux.Lib.TailList
import Kenux.PageCache.Model

/-!
# The LRU list and the hash chains

`Listed s M` says that the LRU list and the hash chains have exactly the pages in `M`, each once. A page
is taken out of both or put into both without any other field of a page changing.
-/

namespace PageCache

open SList Deque

variable {σ : Type*} {s s' : Cache σ} {M M' : ℕ → Prop} {i j page : ℕ}

section Mod

variable {f : CachePage → CachePage}

theorem mod_self : (s.mod i f).pagePool i = f (s.pagePool i) := Function.update_self ..

theorem mod_ne (h : j ≠ i) : (s.mod i f).pagePool j = s.pagePool j := Function.update_of_ne h ..

theorem mod_pagePool : (s.mod i f).pagePool j = if j = i then f (s.pagePool j) else s.pagePool j := by
  by_cases h : j = i
  · rw [h, mod_self, if_pos rfl]
  · rw [mod_ne h, if_neg h]

end Mod

section Lru

/-- The LRU list has the pages in `M`. -/
def LruListed (s : Cache σ) (M : ℕ → Prop) : Prop :=
  ∃ l, IsDeque s.lruNext s.lruPrev s.lruHead s.lruTail l ∧ ∀ i, i ∈ l ↔ M i

theorem LruListed.congr (h : LruListed s M) (hn : ∀ i, M i → s'.lruNext i = s.lruNext i)
    (hp : ∀ i, M i → s'.lruPrev i = s.lruPrev i) (hh : s'.lruHead = s.lruHead)
    (ht : s'.lruTail = s.lruTail) (hM : ∀ i, M i ↔ M' i) : LruListed s' M' := by
  obtain ⟨l, hl, hmem⟩ := h
  refine ⟨l, ?_, fun i => (hmem i).trans (hM i)⟩
  rw [hh, ht]
  exact hl.congr (fun i hi => hn i ((hmem i).mp hi)) fun i hi => hp i ((hmem i).mp hi)

/-- The page with other links in the LRU list. -/
def CachePage.withLinks (p : CachePage) (prev next : Option ℕ) : CachePage :=
  { p with lruPrev := prev, lruNext := next }

theorem setNext_pagePool (prev next : Option ℕ) :
    (s.setNext prev next).pagePool i =
      (s.pagePool i).withLinks (s.lruPrev i) (if prev = some i then next else s.lruNext i) := by
  cases prev with
  | none => rfl
  | some prev =>
    unfold Cache.setNext
    rw [mod_pagePool]
    by_cases h : i = prev
    · rw [if_pos h, if_pos (congrArg some h.symm)]
      rfl
    · rw [if_neg h, if_neg fun heq => h (Option.some.inj heq).symm]
      rfl

theorem setPrev_pagePool (next prev : Option ℕ) :
    (s.setPrev next prev).pagePool i =
      (s.pagePool i).withLinks (if next = some i then prev else s.lruPrev i) (s.lruNext i) := by
  cases next with
  | none => rfl
  | some next =>
    unfold Cache.setPrev
    rw [mod_pagePool]
    by_cases h : i = next
    · rw [if_pos h, if_pos (congrArg some h.symm)]
      rfl
    · rw [if_neg h, if_neg fun heq => h (Option.some.inj heq).symm]
      rfl

/-- Everything but the pages and the ends of the LRU list is the same. -/
structure SameGlobals (s s' : Cache σ) : Prop where
  totalPages : s'.totalPages = s.totalPages
  usedPages : s'.usedPages = s.usedPages
  dirtyPages : s'.dirtyPages = s.dirtyPages
  world : s'.world = s.world

theorem SameGlobals.trans {s'' : Cache σ} (h : SameGlobals s s') (h' : SameGlobals s' s'') :
    SameGlobals s s'' :=
  ⟨h'.1.trans h.1, h'.2.trans h.2, h'.3.trans h.3, h'.4.trans h.4⟩

theorem setNext_globals (prev next : Option ℕ) : SameGlobals s (s.setNext prev next) := by
  cases prev <;> exact ⟨rfl, rfl, rfl, rfl⟩

theorem setPrev_globals (next prev : Option ℕ) : SameGlobals s (s.setPrev next prev) := by
  cases next <;> exact ⟨rfl, rfl, rfl, rfl⟩

theorem setNext_ends (prev next : Option ℕ) :
    (s.setNext prev next).lruHead = (if prev = none then next else s.lruHead) ∧
      (s.setNext prev next).lruTail = s.lruTail ∧ (s.setNext prev next).hashTable = s.hashTable := by
  cases prev <;> exact ⟨rfl, rfl, rfl⟩

theorem setPrev_ends (next prev : Option ℕ) :
    (s.setPrev next prev).lruTail = (if next = none then prev else s.lruTail) ∧
      (s.setPrev next prev).lruHead = s.lruHead ∧ (s.setPrev next prev).hashTable = s.hashTable := by
  cases next <;> exact ⟨rfl, rfl, rfl⟩

/-- What the pages point to without `page` in the list. -/
theorem lruRemove_pagePool (hp : s.lruPrev page ≠ some page) :
    (s.lruRemove page).pagePool i = (s.pagePool i).withLinks
      (if i = page then none else if s.lruNext page = some i then s.lruPrev page else s.lruPrev i)
      (if i = page then none else if s.lruPrev page = some i then s.lruNext page else s.lruNext i) := by
  have hnext : (s.setNext (s.lruPrev page) (s.lruNext page)).lruNext page = s.lruNext page := by
    unfold Cache.lruNext
    rw [setNext_pagePool]
    exact if_neg hp
  have hprev : ∀ i, (s.setNext (s.lruPrev page) (s.lruNext page)).lruPrev i = s.lruPrev i := by
    intro i
    unfold Cache.lruPrev
    rw [setNext_pagePool]
    rfl
  unfold Cache.lruRemove
  dsimp only
  rw [mod_pagePool, setPrev_pagePool, hnext, hprev, hprev]
  by_cases h : i = page
  · rw [if_pos h, if_pos h, if_pos h, setNext_pagePool]
    rfl
  · rw [if_neg h, if_neg h, if_neg h]
    unfold Cache.lruNext
    rw [setNext_pagePool]
    rfl

theorem lruRemove_ends (hp : s.lruPrev page ≠ some page) :
    (s.lruRemove page).lruHead = (if s.lruPrev page = none then s.lruNext page else s.lruHead) ∧
      (s.lruRemove page).lruTail = (if s.lruNext page = none then s.lruPrev page else s.lruTail) ∧
      (s.lruRemove page).hashTable = s.hashTable := by
  have hnext : (s.setNext (s.lruPrev page) (s.lruNext page)).lruNext page = s.lruNext page := by
    unfold Cache.lruNext
    rw [setNext_pagePool]
    exact if_neg hp
  have hprev : (s.setNext (s.lruPrev page) (s.lruNext page)).lruPrev page = s.lruPrev page := by
    unfold Cache.lruPrev
    rw [setNext_pagePool]
    rfl
  obtain ⟨hh₁, ht₁, htab₁⟩ := @setNext_ends _ s (s.lruPrev page) (s.lruNext page)
  obtain ⟨ht₂, hh₂, htab₂⟩ := @setPrev_ends _ (s.setNext (s.lruPrev page) (s.lruNext page))
    (s.lruNext page) (s.lruPrev page)
  unfold Cache.lruRemove
  dsimp only
  rw [hnext, hprev]
  exact ⟨hh₂.trans hh₁, ht₂.trans (by rw [ht₁]), htab₂.trans htab₁⟩

theorem lruRemove_globals : SameGlobals s (s.lruRemove page) := by
  have h := (@setNext_globals _ s (s.lruPrev page) (s.lruNext page)).trans
    (setPrev_globals ((s.setNext (s.lruPrev page) (s.lruNext page)).lruNext page)
      ((s.setNext (s.lruPrev page) (s.lruNext page)).lruPrev page))
  exact ⟨h.1, h.2, h.3, h.4⟩

theorem lruInsertHead_pagePool :
    (s.lruInsertHead page).pagePool i = (s.pagePool i).withLinks
      (if s.lruHead = some i then some page else if i = page then none else s.lruPrev i)
      (if i = page then s.lruHead else s.lruNext i) := by
  unfold Cache.lruInsertHead
  dsimp only
  rw [setPrev_pagePool]
  unfold Cache.lruPrev Cache.lruNext
  rw [mod_pagePool]
  by_cases h : i = page
  · rw [if_pos h, if_pos h, if_pos h]
    rfl
  · rw [if_neg h, if_neg h, if_neg h]
    rfl

theorem lruInsertHead_ends :
    (s.lruInsertHead page).lruHead = some page ∧
      (s.lruInsertHead page).lruTail = (if s.lruHead = none then some page else s.lruTail) ∧
      (s.lruInsertHead page).hashTable = s.hashTable := by
  unfold Cache.lruInsertHead
  dsimp only
  generalize hmod : s.mod page _ = t
  obtain ⟨ht, -, htab⟩ := @setPrev_ends _ t t.lruHead (some page)
  subst hmod
  exact ⟨rfl, ht, htab⟩

theorem lruInsertHead_globals : SameGlobals s (s.lruInsertHead page) := by
  unfold Cache.lruInsertHead
  dsimp only
  generalize hmod : s.mod page _ = t
  have h := @setPrev_globals _ t t.lruHead (some page)
  subst hmod
  exact ⟨h.1, h.2, h.3, h.4⟩

theorem LruListed.prev_ne (h : LruListed s M) (hp : M page) : s.lruPrev page ≠ some page := by
  obtain ⟨l, hl, hmem⟩ := h
  obtain ⟨l₁, l₂, rfl⟩ := List.append_of_mem ((hmem page).mpr hp)
  rw [hl.neighbours.2]
  intro hlast
  have hnd := hl.nodup
  rw [List.nodup_append] at hnd
  exact hnd.2.2 page (List.mem_of_getLast? hlast) page List.mem_cons_self rfl

/-- Without a page that it has, the list has the other pages. -/
theorem LruListed.remove (h : LruListed s M) (hp : M page) :
    LruListed (s.lruRemove page) fun i => M i ∧ i ≠ page := by
  have hne := h.prev_ne hp
  obtain ⟨l, hl, hmem⟩ := h
  obtain ⟨l₁, l₂, rfl⟩ := List.append_of_mem ((hmem page).mpr hp)
  have hpage : page ∉ l₁ ++ l₂ := fun hin => by
    have hnd := List.perm_middle.nodup_iff.mp hl.nodup
    exact (List.nodup_cons.mp hnd).1 hin
  have hother : ∀ i ∈ l₁ ++ l₂, i ≠ page := fun i hi heq => hpage (heq ▸ hi)
  obtain ⟨hhead, htail, -⟩ := lruRemove_ends hne
  refine ⟨l₁ ++ l₂, hl.remove (fun i hi => ?_) (fun i hi => ?_) hhead htail, fun i => ?_⟩
  · unfold Cache.lruNext
    rw [lruRemove_pagePool hne]
    exact if_neg (hother i hi)
  · unfold Cache.lruPrev
    rw [lruRemove_pagePool hne]
    exact if_neg (hother i hi)
  · show i ∈ l₁ ++ l₂ ↔ M i ∧ i ≠ page
    rw [← hmem i, List.mem_append, List.mem_append, List.mem_cons]
    constructor
    · intro hi
      exact ⟨hi.imp_right .inr, hother i (List.mem_append.mpr hi)⟩
    · rintro ⟨h₁ | rfl | h₂, hi⟩
      · exact .inl h₁
      · exact absurd rfl hi
      · exact .inr h₂

/-- With a new page in front. -/
theorem LruListed.insert (h : LruListed s M) (hp : ¬M page) :
    LruListed (s.lruInsertHead page) fun i => M i ∨ i = page := by
  obtain ⟨l, hl, hmem⟩ := h
  have hpage : page ∉ l := fun hin => hp ((hmem page).mp hin)
  have hother : ∀ i ∈ l, i ≠ page := fun i hi heq => hpage (heq ▸ hi)
  have hhead : s.lruHead ≠ some page := by
    rw [hl.head_eq]
    exact fun heq => hpage (List.mem_of_head? heq)
  obtain ⟨hhead', htail', -⟩ := @lruInsertHead_ends _ s page
  refine ⟨page :: l, ?_, fun i => ?_⟩
  · rw [hhead']
    refine hl.push hpage ?_ ?_ (fun i hi => ?_) (fun i hi => ?_) htail'
    · unfold Cache.lruNext
      rw [lruInsertHead_pagePool]
      exact if_pos rfl
    · unfold Cache.lruPrev
      rw [lruInsertHead_pagePool]
      exact (if_neg hhead).trans (if_pos rfl)
    · unfold Cache.lruNext
      rw [lruInsertHead_pagePool]
      exact if_neg (hother i hi)
    · unfold Cache.lruPrev
      rw [lruInsertHead_pagePool]
      show (if s.lruHead = some i then _ else if i = page then _ else _) = _
      rw [if_neg (hother i hi)]
      rfl
  · rw [List.mem_cons, hmem, or_comm]

end Lru

section Chains

/-- The hash chains have the pages in `M`, each the pages for its bucket. -/
def ChainsListed (s : Cache σ) (M : ℕ → Prop) : Prop :=
  ∀ b, ∃ c, Chained s.hashNext (s.hashTable b) c ∧ c.Nodup ∧
    ∀ i, i ∈ c ↔ M i ∧ pagecacheHash (s.pagePool i).key = b

theorem ChainsListed.congr (h : ChainsListed s M) (hn : ∀ i, M i → s'.hashNext i = s.hashNext i)
    (hk : ∀ i, M i → (s'.pagePool i).key = (s.pagePool i).key) (ht : s'.hashTable = s.hashTable)
    (hM : ∀ i, M i ↔ M' i) : ChainsListed s' M' := by
  intro b
  obtain ⟨c, hc, hnd, hmem⟩ := h b
  refine ⟨c, ?_, hnd, fun i => ?_⟩
  · rw [ht]
    exact hc.congr fun i hi => hn i ((hmem i).mp hi).1
  · rw [hmem, ← hM]
    exact and_congr_right fun hi => by rw [hk i hi]

/-- The page with another link in its hash chain. -/
def CachePage.withHash (p : CachePage) (next : Option ℕ) : CachePage := { p with hashNext := next }

/-- Only hash links and the hash table differ. -/
structure SameButHash (s s' : Cache σ) : Prop where
  page : ∀ i, s'.pagePool i = (s.pagePool i).withHash (s'.hashNext i)
  head : s'.lruHead = s.lruHead
  tail : s'.lruTail = s.lruTail
  globals : SameGlobals s s'

variable {bucket : UInt32} {slot next : Option ℕ}

theorem setSlot_hashNext :
    (s.setSlot bucket slot next).hashNext i = if slot = some i then next else s.hashNext i := by
  unfold Cache.hashNext
  cases slot with
  | none => rfl
  | some prev =>
    unfold Cache.setSlot
    rw [mod_pagePool]
    by_cases h : i = prev
    · rw [if_pos h, if_pos (congrArg some h.symm)]
    · rw [if_neg h, if_neg fun heq => h (Option.some.inj heq).symm]

theorem setSlot_hashTable (b : UInt32) : (s.setSlot bucket slot next).hashTable b =
    if slot = none ∧ b = bucket then next else s.hashTable b := by
  cases slot with
  | none =>
    show Function.update s.hashTable bucket next b = _
    by_cases h : b = bucket
    · rw [h, Function.update_self, if_pos ⟨rfl, rfl⟩]
    · rw [Function.update_of_ne h, if_neg fun hand => h hand.2]
  | some prev => exact (if_neg fun hand => absurd hand.1 (by simp)).symm

theorem setSlot_same : SameButHash s (s.setSlot bucket slot next) := by
  cases slot with
  | none => exact ⟨fun _ => rfl, rfl, rfl, ⟨rfl, rfl, rfl, rfl⟩⟩
  | some prev =>
    refine ⟨fun i => ?_, rfl, rfl, ⟨rfl, rfl, rfl, rfl⟩⟩
    unfold Cache.hashNext Cache.setSlot
    rw [mod_pagePool]
    split_ifs <;> rfl

theorem length_le {c : List ℕ} {n : ℕ} (hc : c.Nodup) (h : ∀ i ∈ c, i < n) : c.length ≤ n := by
  have hsub : c ⊆ List.range n := fun i hi => List.mem_range.mpr (h i hi)
  have hle := (hc.subperm hsub).length_le
  rwa [List.length_range] at hle

theorem ChainsListed.unlink (h : ChainsListed s M) (hp : M page) (hM : ∀ i, M i → i < s.totalPages) :
    ∃ s', s.hashUnlink page = some s' ∧ SameButHash s s' ∧
      ChainsListed s' fun i => M i ∧ i ≠ page := by
  obtain ⟨c, hc, hnd, hmem⟩ := h (pagecacheHash (s.pagePool page).key)
  obtain ⟨l₁, l₂, rfl⟩ := List.append_of_mem ((hmem page).mpr ⟨hp, rfl⟩)
  have hlen := length_le hnd fun i hi => hM i ((hmem i).mp hi).1
  have hpage : page ∉ l₁ ++ l₂ := (List.nodup_cons.mp (List.perm_middle.nodup_iff.mp hnd)).1
  have hnd' : (l₁ ++ l₂).Nodup := (List.nodup_cons.mp (List.perm_middle.nodup_iff.mp hnd)).2
  have hslot := hc.slotOf_eq (fun hin => hpage (List.mem_append_left _ hin))
    (show _ ≤ s.fuel from Nat.le_succ_of_le hlen) none
  rw [Option.or_none] at hslot
  have hmem' : ∀ i, i ∈ l₁ ++ l₂ ↔ (M i ∧ i ≠ page) ∧
      pagecacheHash (s.pagePool i).key = pagecacheHash (s.pagePool page).key := by
    intro i
    have hi := hmem i
    rw [List.mem_append, List.mem_cons] at hi
    rw [List.mem_append, and_right_comm, ← hi]
    constructor
    · intro hin
      exact ⟨hin.imp_right .inr, fun heq => hpage (heq ▸ List.mem_append.mpr hin)⟩
    · rintro ⟨h₁ | rfl | h₂, hne⟩
      · exact .inl h₁
      · exact absurd rfl hne
      · exact .inr h₂
  unfold Cache.hashUnlink
  dsimp only
  rw [hslot]
  have hsame : SameButHash s (s.setSlot (pagecacheHash (s.pagePool page).key) l₁.getLast?
      (s.hashNext page)) := setSlot_same
  refine ⟨_, rfl, hsame, fun b => ?_⟩
  by_cases hb : b = pagecacheHash (s.pagePool page).key
  · refine ⟨l₁ ++ l₂, ?_, hnd', fun i => ?_⟩
    · have hun := hc.unlink hnd fun i _ => @setSlot_hashNext _ s i (pagecacheHash (s.pagePool page).key)
        l₁.getLast? (s.hashNext page)
      rw [setSlot_hashTable, hb]
      cases l₁ with
      | nil =>
        rw [if_pos rfl] at hun
        rw [if_pos ⟨rfl, rfl⟩]
        exact hun
      | cons y ys =>
        rw [if_neg (by simp)]
        exact hun
    · rw [hmem', hsame.page i, hb]
      rfl
  · obtain ⟨c, hc', hndc, hmemc⟩ := h b
    refine ⟨c, ?_, hndc, fun i => ?_⟩
    · rw [setSlot_hashTable, if_neg fun hand => hb hand.2]
      refine hc'.congr fun i hi => ?_
      rw [setSlot_hashNext, if_neg]
      intro hlast
      have hin := (hmem i).mp (List.mem_append_left _ (List.mem_of_getLast? hlast))
      exact hb (((hmemc i).mp hi).2.symm.trans hin.2)
    · rw [hmemc, hsame.page i]
      refine ⟨fun ⟨hi, hbi⟩ => ⟨⟨hi, ?_⟩, hbi⟩, fun ⟨⟨hi, _⟩, hbi⟩ => ⟨hi, hbi⟩⟩
      rintro rfl
      exact hb hbi.symm

theorem hashInsert_same : SameButHash s (s.hashInsert page bucket) := by
  refine ⟨fun i => ?_, rfl, rfl, ⟨rfl, rfl, rfl, rfl⟩⟩
  unfold Cache.hashNext Cache.hashInsert
  dsimp only
  rw [mod_pagePool]
  split_ifs <;> rfl

theorem hashInsert_hashNext : (s.hashInsert page bucket).hashNext i =
    if i = page then s.hashTable bucket else s.hashNext i := by
  unfold Cache.hashNext Cache.hashInsert
  dsimp only
  rw [mod_pagePool]
  split_ifs <;> rfl

theorem ChainsListed.insert (h : ChainsListed s M) (hp : ¬M page)
    (hb : pagecacheHash (s.pagePool page).key = bucket) :
    ChainsListed (s.hashInsert page bucket) fun i => M i ∨ i = page := by
  have hsame : SameButHash s (s.hashInsert page bucket) := hashInsert_same
  intro b
  obtain ⟨c, hc, hnd, hmem⟩ := h b
  have hpage : page ∉ c := fun hin => hp ((hmem page).mp hin).1
  have hnext : ∀ i ∈ c, (s.hashInsert page bucket).hashNext i = s.hashNext i := by
    intro i hi
    rw [hashInsert_hashNext, if_neg fun heq : i = page => hpage (heq ▸ hi)]
  by_cases hbb : b = bucket
  · refine ⟨page :: c, ?_, List.nodup_cons.mpr ⟨hpage, hnd⟩, fun i => ?_⟩
    · have htab : (s.hashInsert page bucket).hashTable b = some page := by
        rw [hbb]
        exact Function.update_self ..
      rw [htab]
      refine hc.push ?_ hnext
      rw [hashInsert_hashNext, if_pos rfl, hbb]
    · rw [List.mem_cons, hmem, hsame.page i]
      show _ ↔ (M i ∨ i = page) ∧ pagecacheHash (s.pagePool i).key = b
      constructor
      · rintro (rfl | ⟨hi, hbi⟩)
        · exact ⟨.inr rfl, hb.trans hbb.symm⟩
        · exact ⟨.inl hi, hbi⟩
      · rintro ⟨hi | rfl, hbi⟩
        · exact .inr ⟨hi, hbi⟩
        · exact .inl rfl
  · refine ⟨c, ?_, hnd, fun i => ?_⟩
    · rw [show (s.hashInsert page bucket).hashTable b = s.hashTable b from Function.update_of_ne hbb ..]
      exact hc.congr hnext
    · rw [hmem, hsame.page i]
      show _ ↔ (M i ∨ i = page) ∧ pagecacheHash (s.pagePool i).key = b
      constructor
      · exact fun ⟨hi, hbi⟩ => ⟨.inl hi, hbi⟩
      · rintro ⟨hi | rfl, hbi⟩
        · exact ⟨hi, hbi⟩
        · exact absurd (hbi.symm.trans hb) hbb

end Chains

end PageCache
