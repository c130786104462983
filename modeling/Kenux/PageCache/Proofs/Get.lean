import Kenux.PageCache.Proofs.Lists
import Kenux.PageCache.Spec

/-!
# Getting a page

`CacheOk` ties the pool, the LRU list and the hash chains together: the used pages are valid, have
different keys and are in both lists. While `pagecache_get` replaces a page the rest of the cache is in
order, `OkBut`. What it does to the fields that matter to callers is a change of one page.
-/

namespace PageCache

open SList Deque

variable {σ : Type*} {s s' s₁ s₂ : Cache σ} {M M' : ℕ → Prop} {i j page : ℕ} {k : Key} {ops : Ops σ}

section Info

/-- A page without its links. -/
structure Info where
  key : Key
  data : Page
  dirty : Bool
  refCount : ℕ
  valid : Bool

def CachePage.info (p : CachePage) : Info := ⟨p.key, p.data, p.dirty, p.refCount, p.valid⟩

/-- The caches differ in their lists only. -/
structure SameInfo (s s' : Cache σ) : Prop where
  info : ∀ i, (s'.pagePool i).info = (s.pagePool i).info
  globals : SameGlobals s s'

theorem SameInfo.trans (h : SameInfo s s₁) (h' : SameInfo s₁ s₂) : SameInfo s s₂ :=
  ⟨fun i => (h'.info i).trans (h.info i), h.globals.trans h'.globals⟩

theorem SameInfo.key (h : SameInfo s s') (i : ℕ) : (s'.pagePool i).key = (s.pagePool i).key :=
  congrArg Info.key (h.info i)

theorem SameInfo.data (h : SameInfo s s') (i : ℕ) : (s'.pagePool i).data = (s.pagePool i).data :=
  congrArg Info.data (h.info i)

theorem SameInfo.dirty (h : SameInfo s s') (i : ℕ) : (s'.pagePool i).dirty = (s.pagePool i).dirty :=
  congrArg Info.dirty (h.info i)

theorem SameInfo.refCount (h : SameInfo s s') (i : ℕ) :
    (s'.pagePool i).refCount = (s.pagePool i).refCount :=
  congrArg Info.refCount (h.info i)

theorem SameInfo.valid (h : SameInfo s s') (i : ℕ) : (s'.pagePool i).valid = (s.pagePool i).valid :=
  congrArg Info.valid (h.info i)

theorem SameButHash.sameInfo (h : SameButHash s s') : SameInfo s s' :=
  ⟨fun i => by rw [h.page i]; rfl, h.globals⟩

theorem lruInsertHead_sameInfo : SameInfo s (s.lruInsertHead page) :=
  ⟨fun i => by rw [lruInsertHead_pagePool]; rfl, lruInsertHead_globals⟩

theorem lruRemove_sameInfo (hp : s.lruPrev page ≠ some page) : SameInfo s (s.lruRemove page) :=
  ⟨fun i => by rw [lruRemove_pagePool hp]; rfl, lruRemove_globals⟩

end Info

section Listed

/-- The LRU list and the hash chains have the pages in `M`. -/
structure Listed (s : Cache σ) (M : ℕ → Prop) : Prop where
  lru : LruListed s M
  chains : ChainsListed s M

theorem Listed.congr (h : Listed s M) (hn : ∀ i, M i → s'.lruNext i = s.lruNext i)
    (hp : ∀ i, M i → s'.lruPrev i = s.lruPrev i) (hc : ∀ i, M i → s'.hashNext i = s.hashNext i)
    (hk : ∀ i, M i → (s'.pagePool i).key = (s.pagePool i).key) (hh : s'.lruHead = s.lruHead)
    (ht : s'.lruTail = s.lruTail) (htab : s'.hashTable = s.hashTable) (hM : ∀ i, M i ↔ M' i) :
    Listed s' M' :=
  ⟨h.lru.congr hn hp hh ht hM, h.chains.congr hc hk htab hM⟩

/-- Other fields of a page do not matter, nor does the key of a page that is in no list. -/
theorem Listed.mod (h : Listed s M) {f : CachePage → CachePage}
    (hf : ∀ p, (f p).lruNext = p.lruNext ∧ (f p).lruPrev = p.lruPrev ∧ (f p).hashNext = p.hashNext)
    (hk : M i → ∀ p, (f p).key = p.key) : Listed (s.mod i f) M := by
  refine h.congr ?_ ?_ ?_ ?_ rfl rfl rfl fun _ => Iff.rfl
  · intro j _
    unfold Cache.lruNext
    rw [mod_pagePool]
    split_ifs
    · exact (hf _).1
    · rfl
  · intro j _
    unfold Cache.lruPrev
    rw [mod_pagePool]
    split_ifs
    · exact (hf _).2.1
    · rfl
  · intro j _
    unfold Cache.hashNext
    rw [mod_pagePool]
    split_ifs
    · exact (hf _).2.2
    · rfl
  · intro j hj
    rw [mod_pagePool]
    split_ifs with h
    · exact hk (h ▸ hj) _
    · rfl

theorem ChainsListed.lruRemove (h : ChainsListed s M) (hp : s.lruPrev page ≠ some page) :
    ChainsListed (s.lruRemove page) M := by
  refine h.congr (fun i _ => ?_) (fun i _ => ?_) (lruRemove_ends hp).2.2 fun _ => Iff.rfl
  · unfold Cache.hashNext
    rw [lruRemove_pagePool hp]
    rfl
  · rw [lruRemove_pagePool hp]
    rfl

theorem ChainsListed.lruInsertHead (h : ChainsListed s M) : ChainsListed (s.lruInsertHead page) M := by
  refine h.congr (fun i _ => ?_) (fun i _ => ?_) lruInsertHead_ends.2.2 fun _ => Iff.rfl
  · unfold Cache.hashNext
    rw [lruInsertHead_pagePool]
    rfl
  · rw [lruInsertHead_pagePool]
    rfl

theorem LruListed.sameButHash (h : LruListed s M) (hs : SameButHash s s') : LruListed s' M := by
  refine h.congr (fun i _ => ?_) (fun i _ => ?_) hs.head hs.tail fun _ => Iff.rfl
  · unfold Cache.lruNext
    rw [hs.page i]
    rfl
  · unfold Cache.lruPrev
    rw [hs.page i]
    rfl

/-- A page leaves both lists. -/
theorem Listed.remove (h : Listed s M) (hp : M page) (hM : ∀ i, M i → i < s.totalPages) :
    ∃ s', (s.lruRemove page).hashUnlink page = some s' ∧ SameInfo s s' ∧
      Listed s' fun i => M i ∧ i ≠ page := by
  have hne := h.lru.prev_ne hp
  have htotal := (@lruRemove_globals _ s page).totalPages
  obtain ⟨s', hs', hsame, hchains⟩ :=
    (h.chains.lruRemove hne).unlink hp fun i hi => htotal.symm ▸ hM i hi
  exact ⟨s', hs', (lruRemove_sameInfo hne).trans hsame.sameInfo,
    (h.lru.remove hp).sameButHash hsame, hchains⟩

/-- A page enters both lists. -/
theorem Listed.insert (h : Listed s M) (hp : ¬M page) :
    SameInfo s ((s.hashInsert page (pagecacheHash (s.pagePool page).key)).lruInsertHead page) ∧
      Listed ((s.hashInsert page (pagecacheHash (s.pagePool page).key)).lruInsertHead page)
        fun i => M i ∨ i = page := by
  have hsame := @hashInsert_same _ s page (pagecacheHash (s.pagePool page).key)
  exact ⟨hsame.sameInfo.trans lruInsertHead_sameInfo, (h.lru.sameButHash hsame).insert hp,
    (h.chains.insert hp rfl).lruInsertHead⟩

theorem Listed.moveHead (h : Listed s M) (hp : M page) :
    SameInfo s (s.lruMoveHead page) ∧ Listed (s.lruMoveHead page) M := by
  have hne := h.lru.prev_ne hp
  refine ⟨(lruRemove_sameInfo hne).trans lruInsertHead_sameInfo, ?_, (h.chains.lruRemove hne).lruInsertHead⟩
  refine ((h.lru.remove hp).insert fun hand => hand.2 rfl).congr (fun _ _ => rfl) (fun _ _ => rfl) rfl rfl ?_
  intro i
  constructor
  · rintro (⟨hi, -⟩ | rfl)
    · exact hi
    · exact hp
  · intro hi
    by_cases heq : i = page
    · exact .inr heq
    · exact .inl ⟨hi, heq⟩

end Listed

section Ok

/-- The cache with a page taken out of its lists. -/
structure OkBut (s : Cache σ) (page : ℕ) : Prop where
  used_le : s.usedPages ≤ s.totalPages
  lt : page < s.usedPages
  listed : Listed s fun i => i < s.usedPages ∧ i ≠ page
  valid : ∀ i, i ≠ page → ((s.pagePool i).valid = true ↔ i < s.usedPages)
  keys : ∀ i j, i < s.usedPages → j < s.usedPages → i ≠ page → j ≠ page →
    (s.pagePool i).key = (s.pagePool j).key → i = j
  clean : ∀ i, s.usedPages ≤ i → (s.pagePool i).dirty = false

/-- Pool, LRU list and hash chains fit together. -/
structure CacheOk (s : Cache σ) : Prop where
  used_le : s.usedPages ≤ s.totalPages
  listed : Listed s fun i => i < s.usedPages
  valid : ∀ i, (s.pagePool i).valid = true ↔ i < s.usedPages
  keys : ∀ i j, i < s.usedPages → j < s.usedPages → (s.pagePool i).key = (s.pagePool j).key → i = j
  clean : ∀ i, s.usedPages ≤ i → (s.pagePool i).dirty = false

/-- A change of the other fields of a page keeps the cache in order. -/
theorem CacheOk.mod (h : CacheOk s) {f : CachePage → CachePage}
    (hf : ∀ p, (f p).lruNext = p.lruNext ∧ (f p).lruPrev = p.lruPrev ∧ (f p).hashNext = p.hashNext)
    (hk : ∀ p, (f p).key = p.key) (hv : ∀ p, (f p).valid = p.valid)
    (hd : i < s.usedPages ∨ (f (s.pagePool i)).dirty = false) : CacheOk (s.mod i f) := by
  have hkey : ∀ j, ((s.mod i f).pagePool j).key = (s.pagePool j).key := by
    intro j
    rw [mod_pagePool]
    split_ifs
    · exact hk _
    · rfl
  refine ⟨h.used_le, h.listed.mod hf fun _ => hk, fun j => ?_, fun a b ha hb hab => ?_, fun j hj => ?_⟩
  · rw [mod_pagePool]
    split_ifs
    · rw [hv]
      exact h.valid j
    · exact h.valid j
  · rw [hkey, hkey] at hab
    exact h.keys a b ha hb hab
  · rw [mod_pagePool]
    split_ifs with hji
    · have hj' : s.usedPages ≤ j := hj
      rw [hji] at hj' ⊢
      exact hd.resolve_left (by omega)
    · exact h.clean j hj

/-- What the lists say survives any change of counters and of the store. -/
theorem CacheOk.globals (h : CacheOk s) (dirtyPages : ℤ) (hits misses : UInt64) (world : σ) :
    CacheOk { s with dirtyPages, hits, misses, world } :=
  ⟨h.used_le, ⟨h.listed.lru, h.listed.chains⟩, h.valid, h.keys, h.clean⟩

theorem clean_pagePool : (s.clean i).pagePool j =
    if j = i then { s.pagePool j with dirty := false } else s.pagePool j := by
  unfold Cache.clean
  dsimp only
  rw [mod_pagePool]

theorem CacheOk.clean' (h : CacheOk s) : CacheOk (s.clean i) := by
  have hmod : CacheOk (s.mod i fun p => { p with dirty := false }) :=
    h.mod (fun _ => ⟨rfl, rfl, rfl⟩) (fun _ => rfl) (fun _ => rfl) (.inr rfl)
  exact hmod.globals ..

theorem writeBack_eq (ops : Ops σ) (s : Cache σ) (i : ℕ) : ∃ w, (s.writeBack ops i).2 = { s with world := w } := by
  unfold Cache.writeBack
  cases ops.writePage with
  | none => exact ⟨s.world, rfl⟩
  | some write => exact ⟨_, rfl⟩

theorem CacheOk.writeBack (h : CacheOk s) : CacheOk (s.writeBack ops i).2 := by
  obtain ⟨w, hw⟩ := writeBack_eq ops s i
  rw [hw]
  exact h.globals ..

/-- Taking a page out of both lists. -/
theorem CacheOk.remove (h : CacheOk s) (hp : page < s.usedPages) :
    ∃ s', (s.lruRemove page).hashUnlink page = some s' ∧ SameInfo s s' ∧ OkBut s' page := by
  obtain ⟨s', hs', hsame, hlisted⟩ := h.listed.remove hp fun i hi => Nat.lt_of_lt_of_le hi h.used_le
  have hused := hsame.globals.usedPages
  refine ⟨s', hs', hsame, ?_⟩
  refine ⟨?_, ?_, ?_, fun i _ => ?_, fun i j hi hj _ _ hij => ?_, fun i hi => ?_⟩
  · rw [hused, hsame.globals.totalPages]
    exact h.used_le
  · rw [hused]
    exact hp
  · rw [hused]
    exact hlisted
  · rw [hsame.valid, hused]
    exact h.valid i
  · rw [hused] at hi hj
    rw [hsame.key, hsame.key] at hij
    exact h.keys i j hi hj hij
  · rw [hsame.dirty]
    exact h.clean i (hused ▸ hi)

/-- A change of the page that is out. -/
theorem OkBut.mod (h : OkBut s page) {f : CachePage → CachePage}
    (hf : ∀ p, (f p).lruNext = p.lruNext ∧ (f p).lruPrev = p.lruPrev ∧ (f p).hashNext = p.hashNext) :
    OkBut (s.mod page f) page := by
  refine ⟨h.used_le, h.lt, h.listed.mod hf fun hand => absurd rfl hand.2, fun i hi => ?_,
    fun i j hi hj hip hjp hij => ?_, fun i hi => ?_⟩
  · rw [mod_ne hi]
    exact h.valid i hi
  · rw [mod_ne hip, mod_ne hjp] at hij
    exact h.keys i j hi hj hip hjp hij
  · have hlt := h.lt
    have hi' : s.usedPages ≤ i := hi
    rw [mod_ne (by omega)]
    exact h.clean i hi

theorem OkBut.world (h : OkBut s page) (world : σ) : OkBut { s with world } page :=
  ⟨h.used_le, h.lt, ⟨h.listed.lru, h.listed.chains⟩, h.valid, h.keys, h.clean⟩

/-- Putting a valid page with a new key into both lists. -/
theorem OkBut.insert (h : OkBut s page) (hv : (s.pagePool page).valid = true)
    (hk : ∀ i, i < s.usedPages → i ≠ page → (s.pagePool i).key ≠ (s.pagePool page).key) :
    SameInfo s ((s.hashInsert page (pagecacheHash (s.pagePool page).key)).lruInsertHead page) ∧
      CacheOk ((s.hashInsert page (pagecacheHash (s.pagePool page).key)).lruInsertHead page) := by
  obtain ⟨hsame, hlisted⟩ := @Listed.insert _ s _ page h.listed fun hand => hand.2 rfl
  have hused := hsame.globals.usedPages
  refine ⟨hsame, ⟨?_, ?_, fun i => ?_, fun i j hi hj hij => ?_, fun i hi => ?_⟩⟩
  · rw [hused, hsame.globals.totalPages]
    exact h.used_le
  · rw [hused]
    refine ⟨hlisted.lru.congr (fun _ _ => rfl) (fun _ _ => rfl) rfl rfl ?_,
      hlisted.chains.congr (fun _ _ => rfl) (fun _ _ => rfl) rfl ?_⟩
    all_goals
      intro i
      have hlt := h.lt
      by_cases hi : i = page
      · simp [hi, hlt]
      · simp [hi]
  · rw [hsame.valid, hused]
    by_cases hi : i = page
    · rw [hi, hv]
      exact ⟨fun _ => h.lt, fun _ => rfl⟩
    · exact h.valid i hi
  · rw [hused] at hi hj
    rw [hsame.key, hsame.key] at hij
    by_cases hip : i = page
    · by_cases hjp : j = page
      · exact hip.trans hjp.symm
      · rw [hip] at hij
        exact absurd hij.symm (hk j hj hjp)
    · by_cases hjp : j = page
      · rw [hjp] at hij
        exact absurd hij (hk i hi hip)
      · exact h.keys i j hi hj hip hjp hij
  · rw [hsame.dirty]
    exact h.clean i (hused ▸ hi)

theorem init_ok (maxPages : ℕ) (contents : ℕ → Page) (world : σ) :
    CacheOk (pagecacheInit maxPages contents world) := by
  refine ⟨Nat.zero_le _, ⟨⟨[], .nil, fun i => ?_⟩, fun b => ⟨[], rfl, List.nodup_nil, fun i => ?_⟩⟩,
    fun i => ?_, fun i j hi => absurd hi (Nat.not_lt_zero i), fun _ _ => rfl⟩
  · exact ⟨fun hi => absurd hi List.not_mem_nil, fun hi => absurd hi (Nat.not_lt_zero i)⟩
  · exact ⟨fun hi => absurd hi List.not_mem_nil, fun hi => absurd hi.1 (Nat.not_lt_zero i)⟩
  · exact ⟨fun hv => absurd hv Bool.false_ne_true, fun hi => absurd hi (Nat.not_lt_zero i)⟩

end Ok

section Get

/-- The cache with page `i` written back if it was dirty. -/
def cleaned (ops : Ops σ) (s : Cache σ) (i : ℕ) : Cache σ :=
  if (s.pagePool i).dirty then (s.writeBack ops i).2.clean i else s

/-- How `pagecache_get` comes by a page for new contents. -/
inductive Takes (ops : Ops σ) (s : Cache σ) : ℕ → Cache σ → Prop where
  | fresh (h : s.usedPages < s.totalPages) :
      Takes ops s s.usedPages { s with usedPages := s.usedPages + 1 }
  | evict {i : ℕ} {s' : Cache σ} (hfull : ¬s.usedPages < s.totalPages) (hlt : i < s.usedPages)
      (href : (s.pagePool i).refCount = 0) (h : SameInfo (cleaned ops s i) s') : Takes ops s i s'

variable (ops) in
theorem CacheOk.cleaned (h : CacheOk s) (i : ℕ) : CacheOk (cleaned ops s i) := by
  unfold PageCache.cleaned
  split_ifs
  · exact h.writeBack.clean'
  · exact h

theorem cleaned_pagePool (i : ℕ) : (cleaned ops s i).pagePool j =
    if j = i then { s.pagePool j with dirty := false } else s.pagePool j := by
  unfold cleaned
  obtain ⟨w, hw⟩ := writeBack_eq ops s i
  rw [hw]
  by_cases hd : (s.pagePool i).dirty = true
  · rw [if_pos hd, clean_pagePool]
  · rw [if_neg hd]
    split_ifs with hj
    · rw [hj]
      simp only [Bool.not_eq_true] at hd
      rw [← hd]
    · rfl

theorem cleaned_usedPages : (cleaned ops s i).usedPages = s.usedPages := by
  unfold cleaned
  obtain ⟨w, hw⟩ := writeBack_eq ops s i
  rw [hw]
  split_ifs <;> rfl

theorem cleaned_totalPages : (cleaned ops s i).totalPages = s.totalPages := by
  unfold cleaned
  obtain ⟨w, hw⟩ := writeBack_eq ops s i
  rw [hw]
  split_ifs <;> rfl

theorem find?_some_iff {l : List ℕ} {p : ℕ → Bool} (hl : l.find? p = some i) : i ∈ l ∧ p i = true :=
  ⟨List.mem_of_find?_eq_some hl, List.find?_some hl⟩

variable (ops) in
theorem lruEvict_spec (h : CacheOk s) (hfull : ¬s.usedPages < s.totalPages) :
    (∃ i s₁, lruEvict ops s = some (some i, s₁) ∧ Takes ops s i s₁ ∧ OkBut s₁ i) ∨
      lruEvict ops s = some (none, s) ∧ ∀ i < s.usedPages, (s.pagePool i).refCount ≠ 0 := by
  obtain ⟨l, hl, hmem⟩ := h.listed.lru
  have hlen : l.reverse.length ≤ s.fuel := by
    rw [List.length_reverse]
    exact Nat.le_succ_of_le (length_le hl.nodup fun i hi => Nat.lt_of_lt_of_le ((hmem i).mp hi) h.used_le)
  have hsearch := hl.backwards.search_eq hlen fun i => decide ((s.pagePool i).refCount = 0)
  unfold lruEvict
  rw [hsearch]
  cases hfind : l.reverse.find? fun i => decide ((s.pagePool i).refCount = 0) with
  | none =>
    refine .inr ⟨rfl, fun i hi href => ?_⟩
    exact List.find?_eq_none.mp hfind i (List.mem_reverse.mpr ((hmem i).mpr hi)) (decide_eq_true href)
  | some victim =>
    obtain ⟨hin, href⟩ := find?_some_iff hfind
    have hlt := (hmem victim).mp (List.mem_reverse.mp hin)
    obtain ⟨s₁, hs₁, hsame, hok⟩ :=
      (h.cleaned ops victim).remove (cleaned_usedPages.symm ▸ hlt)
    refine .inl ⟨victim, s₁, ?_, .evict hfull hlt (of_decide_eq_true href) hsame, hok⟩
    unfold cleaned at hs₁
    dsimp only
    rw [hs₁]
    rfl

variable (ops) in
theorem takePage_spec (h : CacheOk s) :
    (∃ i s₁, takePage ops s = some (some i, s₁) ∧ Takes ops s i s₁ ∧ OkBut s₁ i) ∨
      takePage ops s = some (none, s) ∧ s.usedPages = s.totalPages ∧
        ∀ i < s.usedPages, (s.pagePool i).refCount ≠ 0 := by
  unfold takePage
  split_ifs with hlt
  · refine .inl ⟨_, _, rfl, .fresh hlt, ⟨hlt, Nat.lt_succ_self _, ?_, fun i hi => ?_,
      fun i j hi hj hip hjp => ?_, fun i hi => ?_⟩⟩
    · refine h.listed.congr (fun _ _ => rfl) (fun _ _ => rfl) (fun _ _ => rfl) (fun _ _ => rfl) rfl rfl rfl
        fun i => ?_
      show i < s.usedPages ↔ i < s.usedPages + 1 ∧ i ≠ s.usedPages
      omega
    · show _ ↔ i < s.usedPages + 1
      rw [h.valid]
      omega
    · have hi' : i < s.usedPages + 1 := hi
      have hj' : j < s.usedPages + 1 := hj
      exact h.keys i j (by omega) (by omega)
    · have hi' : s.usedPages + 1 ≤ i := hi
      exact h.clean i (by omega)
  · rcases lruEvict_spec ops h hlt with hsome | ⟨hnone, href⟩
    · exact .inl hsome
    · have hle := h.used_le
      exact .inr ⟨hnone, by omega, href⟩

/-- The walk along the hash chain finds the page with the key. -/
theorem findPage_spec (h : CacheOk s) (k : Key) :
    (∃ i, s.findPage k = some (some i) ∧ i < s.usedPages ∧ (s.pagePool i).key = k) ∨
      s.findPage k = some none ∧ ∀ i < s.usedPages, (s.pagePool i).key ≠ k := by
  obtain ⟨c, hc, hnd, hmem⟩ := h.listed.chains (pagecacheHash k)
  have hlen : c.length ≤ s.fuel := Nat.le_succ_of_le
    (length_le hnd fun i hi => Nat.lt_of_lt_of_le ((hmem i).mp hi).1 h.used_le)
  have hsearch := hc.search_eq hlen fun i => decide ((s.pagePool i).key = k) && (s.pagePool i).valid
  unfold Cache.findPage
  rw [hsearch]
  cases hfind : c.find? fun i => decide ((s.pagePool i).key = k) && (s.pagePool i).valid with
  | none =>
    refine .inr ⟨rfl, fun i hi hk => ?_⟩
    have hin := (hmem i).mpr ⟨hi, by rw [hk]⟩
    refine List.find?_eq_none.mp hfind i hin ?_
    rw [(h.valid i).mpr hi, Bool.and_true]
    exact decide_eq_true hk
  | some i =>
    obtain ⟨hin, hp⟩ := find?_some_iff hfind
    rw [Bool.and_eq_true] at hp
    exact .inl ⟨i, rfl, ((hmem i).mp hin).1, of_decide_eq_true hp.1⟩

/-- The page that is out with its new key, read in. -/
def filled (ops : Ops σ) (s₁ : Cache σ) (i : ℕ) (k : Key) : Cache σ := (readIn ops (s₁.claim i k) i).2

theorem readIn_eq (ops : Ops σ) (s : Cache σ) (i : ℕ) : (readIn ops s i).2 = s ∨
    ∃ d w, (readIn ops s i).2 = { s.mod i fun p => { p with data := d } with world := w } := by
  unfold readIn
  cases ops.readPage with
  | none => exact .inl rfl
  | some read => exact .inr ⟨_, _, rfl⟩

/-- What `pagecache_get` does. -/
inductive Gets (ops : Ops σ) (s : Cache σ) (k : Key) : Option ℕ → Cache σ → Prop where
  | hit {i : ℕ} {s' : Cache σ} (hlt : i < s.usedPages) (hkey : (s.pagePool i).key = k)
      (hsame : SameInfo (s.mod i fun p => { p with refCount := p.refCount + 1 }) s') (hok : CacheOk s') :
      Gets ops s k (some i) s'
  | full (hnew : ∀ i < s.usedPages, (s.pagePool i).key ≠ k) (hfull : s.usedPages = s.totalPages)
      (href : ∀ i < s.usedPages, (s.pagePool i).refCount ≠ 0) : Gets ops s k none s.missed
  | fill {i : ℕ} {s₁ s' : Cache σ} (hnew : ∀ i < s.usedPages, (s.pagePool i).key ≠ k)
      (ht : Takes ops s.missed i s₁) (hbut : OkBut s₁ i) (hsame : SameInfo (filled ops s₁ i k) s')
      (hok : CacheOk s') : Gets ops s k (some i) s'
  | lost {i : ℕ} {s₁ s' : Cache σ} (hfind : s.findPage k = some none)
      (htake : takePage ops s.missed = some (some i, s₁))
      (hread : (readIn ops (s₁.claim i k) i).1 ≠ 0) : Gets ops s k none s'

/-- The keys of the other pages are those they had before. -/
theorem Takes.key (ht : Takes ops s i s₁) (j : ℕ) : (s₁.pagePool j).key = (s.pagePool j).key := by
  cases ht with
  | fresh => rfl
  | evict hfull hlt href hsame =>
    rw [hsame.key]
    unfold cleaned
    obtain ⟨w, hw⟩ := writeBack_eq ops s i
    rw [hw]
    split_ifs
    · rw [clean_pagePool]
      split_ifs <;> rfl
    · rfl

theorem Takes.lt_used (ht : Takes ops s i s₁) (hj : j < s₁.usedPages) (hne : j ≠ i) :
    j < s.usedPages := by
  cases ht with
  | fresh =>
    have hj' : j < s.usedPages + 1 := hj
    omega
  | evict hfull hlt href hsame => rwa [hsame.globals.usedPages, cleaned_usedPages] at hj

/-- A page that is read in differs from the one taken in its own fields only. -/
theorem filled_spec (s₁ : Cache σ) (i : ℕ) (k : Key) (h : OkBut s₁ i) :
    OkBut (filled ops s₁ i k) i ∧ ((filled ops s₁ i k).pagePool i).key = k ∧
      ((filled ops s₁ i k).pagePool i).valid = true ∧
      (∀ j, j ≠ i → (filled ops s₁ i k).pagePool j = s₁.pagePool j) ∧
      (filled ops s₁ i k).usedPages = s₁.usedPages := by
  have hclaim : OkBut (s₁.claim i k) i := h.mod fun _ => ⟨rfl, rfl, rfl⟩
  have hself : (s₁.claim i k).pagePool i = { s₁.pagePool i with
      key := k, refCount := 1, dirty := false, valid := true } := mod_self
  have hother : ∀ j, j ≠ i → (s₁.claim i k).pagePool j = s₁.pagePool j := fun j hj => mod_ne hj
  unfold filled
  rcases readIn_eq ops (s₁.claim i k) i with hread | ⟨d, w, hread⟩
  · rw [hread]
    exact ⟨hclaim, by rw [hself], by rw [hself], hother, rfl⟩
  · rw [hread]
    refine ⟨?_, ?_, ?_, fun j hj => ?_, rfl⟩
    · have hmod : OkBut ((s₁.claim i k).mod i fun p => { p with data := d }) i :=
        hclaim.mod fun _ => ⟨rfl, rfl, rfl⟩
      exact hmod.world w
    · show (((s₁.claim i k).mod i fun p => { p with data := d }).pagePool i).key = k
      rw [mod_self, hself]
    · show (((s₁.claim i k).mod i fun p => { p with data := d }).pagePool i).valid = true
      rw [mod_self, hself]
    · show ((s₁.claim i k).mod i fun p => { p with data := d }).pagePool j = _
      rw [mod_ne hj, hother j hj]

theorem takes_refCount (ht : Takes ops s i s₁) (hj : j ≠ i) :
    (s₁.pagePool j).refCount = (s.pagePool j).refCount := by
  cases ht with
  | fresh => rfl
  | evict hfull hlt href hsame => rw [hsame.refCount, cleaned_pagePool, if_neg hj]

theorem takes_totalPages (ht : Takes ops s i s₁) : s₁.totalPages = s.totalPages := by
  cases ht with
  | fresh => rfl
  | evict hfull hlt href hsame =>
    rw [hsame.globals.totalPages, cleaned_totalPages]

theorem filled_self (s₁ : Cache σ) (i : ℕ) (k : Key) :
    ((filled ops s₁ i k).pagePool i).refCount = 1 ∧ ((filled ops s₁ i k).pagePool i).dirty = false ∧
      (filled ops s₁ i k).totalPages = s₁.totalPages ∧
      (filled ops s₁ i k).dirtyPages = s₁.dirtyPages := by
  have hself : (s₁.claim i k).pagePool i = { s₁.pagePool i with
      key := k, refCount := 1, dirty := false, valid := true } := mod_self
  unfold filled
  rcases readIn_eq ops (s₁.claim i k) i with hread | ⟨d, w, hread⟩
  · rw [hread, hself]
    exact ⟨rfl, rfl, rfl, rfl⟩
  · rw [hread]
    have hdata : ((s₁.claim i k).mod i fun p => { p with data := d }).pagePool i =
        { s₁.pagePool i with key := k, data := d, refCount := 1, dirty := false, valid := true } := by
      rw [mod_self, hself]
    exact ⟨congrArg CachePage.refCount hdata, congrArg CachePage.dirty hdata, rfl, rfl⟩

theorem CacheOk.missed (h : CacheOk s) : CacheOk s.missed := h.globals ..

variable (ops) in
theorem get_spec (h : CacheOk s) (k : Key) :
    ∃ r s', pagecacheGet ops s k = some (r, s') ∧ Gets ops s k r s' := by
  unfold pagecacheGet
  rcases findPage_spec h k with ⟨i, hfind, hlt, hkey⟩ | ⟨hfind, hnew⟩
  · rw [hfind]
    have hmod : CacheOk (s.mod i fun p => { p with refCount := p.refCount + 1 }) :=
      h.mod (fun _ => ⟨rfl, rfl, rfl⟩) (fun _ => rfl) (fun _ => rfl) (.inl hlt)
    obtain ⟨hsame, hlisted⟩ := @Listed.moveHead _ _ _ i hmod.listed hlt
    have hused := hsame.globals.usedPages
    refine ⟨some i, _, rfl, .hit hlt hkey ⟨hsame.info, hsame.globals.1, hused, hsame.globals.3, hsame.globals.4⟩ ?_⟩
    refine CacheOk.globals ⟨?_, ?_, fun j => ?_, fun a b ha hb hab => ?_, fun j hj => ?_⟩ _ _ _ _
    · rw [hused, hsame.globals.totalPages]
      exact hmod.used_le
    · rw [hused]
      exact hlisted
    · rw [hsame.valid, hused]
      exact hmod.valid j
    · rw [hused] at ha hb
      rw [hsame.key, hsame.key] at hab
      exact hmod.keys a b ha hb hab
    · rw [hsame.dirty]
      exact hmod.clean j (hused ▸ hj)
  · rw [hfind]
    rcases takePage_spec ops h.missed with ⟨i, s₁, htake, ht, hbut⟩ | ⟨htake, hfull, href⟩
    · obtain ⟨hbut', hkey, hvalid, hother, hused⟩ := @filled_spec _ ops s₁ i k hbut
      have hnew' : ∀ j, j < (filled ops s₁ i k).usedPages → j ≠ i →
          ((filled ops s₁ i k).pagePool j).key ≠ ((filled ops s₁ i k).pagePool i).key := by
        intro j hj hne
        rw [hkey, hother j hne, ht.key j]
        exact hnew j (ht.lt_used (hused ▸ hj) hne)
      obtain ⟨hsame, hok⟩ := hbut'.insert hvalid hnew'
      rw [hkey] at hsame hok
      dsimp only
      rw [htake]
      dsimp only
      by_cases hread : (readIn ops (s₁.claim i k) i).1 = 0
      · rw [if_neg (not_not.mpr hread)]
        exact ⟨_, _, rfl, .fill hnew ht hbut hsame hok⟩
      · rw [if_pos hread]
        exact ⟨_, _, rfl, .lost hfind htake hread⟩
    · dsimp only
      rw [htake]
      exact ⟨_, _, rfl, .full hnew hfull href⟩

end Get

end PageCache
