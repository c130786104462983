import Kenux.PageCache.Proofs.Counts

/-!
# What every call keeps

A page that is read in with a failure or invalidated leaves the LRU list and its hash chain and is not valid any
more. So the lists have the valid pages after any calls, whatever the store answers.
-/

namespace PageCache

open SList Deque

variable {σ : Type*} {s s' s₁ : Cache σ} {i page : ℕ} {k : Key} {ops : Ops σ} {f : CachePage → CachePage}

/-- The lists have the valid pages, and these are among the used ones. -/
structure PoolOk (s : Cache σ) : Prop where
  used_le : s.usedPages ≤ s.totalPages
  listed : Listed s fun i => (s.pagePool i).valid = true
  used : ∀ i, (s.pagePool i).valid = true → i < s.usedPages

/-- The same with one of the used pages out of the lists. -/
structure PoolBut (s : Cache σ) (page : ℕ) : Prop where
  used_le : s.usedPages ≤ s.totalPages
  lt : page < s.usedPages
  listed : Listed s fun i => (s.pagePool i).valid = true ∧ i ≠ page
  used : ∀ i, (s.pagePool i).valid = true → i < s.usedPages

section Pool

theorem PoolOk.lt_total (h : PoolOk s) (hv : (s.pagePool i).valid = true) : i < s.totalPages :=
  Nat.lt_of_lt_of_le (h.used i hv) h.used_le

theorem Listed.of_iff {M M' : ℕ → Prop} (h : Listed s M) (hM : ∀ i, M i ↔ M' i) : Listed s M' :=
  h.congr (fun _ _ => rfl) (fun _ _ => rfl) (fun _ _ => rfl) (fun _ _ => rfl) rfl rfl rfl hM

theorem mod_valid (hv : ∀ p, (f p).valid = p.valid) (j : ℕ) :
    ((s.mod i f).pagePool j).valid = (s.pagePool j).valid := by
  rw [mod_pagePool]
  split_ifs
  · exact hv _
  · rfl

/-- A change of the other fields of a page. -/
theorem PoolOk.mod (h : PoolOk s)
    (hf : ∀ p, (f p).lruNext = p.lruNext ∧ (f p).lruPrev = p.lruPrev ∧ (f p).hashNext = p.hashNext)
    (hk : ∀ p, (f p).key = p.key) (hv : ∀ p, (f p).valid = p.valid) : PoolOk (s.mod i f) := by
  refine ⟨h.used_le, ?_, fun j hj => h.used j (mod_valid hv j ▸ hj)⟩
  exact (h.listed.mod hf fun _ => hk).of_iff fun j => by rw [mod_valid hv]

theorem PoolOk.globals (h : PoolOk s) (dirtyPages : ℤ) (hits misses : UInt64) (world : σ) :
    PoolOk { s with dirtyPages, hits, misses, world } :=
  ⟨h.used_le, ⟨h.listed.lru, h.listed.chains⟩, h.used⟩

/-- Only the order in the lists changes. -/
theorem PoolOk.relist (h : PoolOk s) (hsame : SameInfo s s')
    (hlisted : Listed s' fun i => (s.pagePool i).valid = true) : PoolOk s' := by
  refine ⟨?_, hlisted.of_iff fun i => by rw [hsame.valid], fun i hi => ?_⟩
  · rw [hsame.globals.usedPages, hsame.globals.totalPages]
    exact h.used_le
  · rw [hsame.globals.usedPages]
    rw [hsame.valid] at hi
    exact h.used i hi

/-- A valid page leaves the lists. -/
theorem PoolOk.remove (h : PoolOk s) (hp : (s.pagePool page).valid = true) :
    ∃ s', (s.lruRemove page).hashUnlink page = some s' ∧ SameInfo s s' ∧ PoolBut s' page := by
  obtain ⟨s', hs', hsame, hlisted⟩ := h.listed.remove hp fun i hi => h.lt_total hi
  have hused := hsame.globals.usedPages
  refine ⟨s', hs', hsame, ?_, ?_, hlisted.of_iff fun i => by rw [hsame.valid], fun i hi => ?_⟩
  · rw [hused, hsame.globals.totalPages]
    exact h.used_le
  · rw [hused]
    exact h.used page hp
  · rw [hsame.valid] at hi
    rw [hused]
    exact h.used i hi

/-- A change of the page that is out. -/
theorem PoolBut.mod (h : PoolBut s page)
    (hf : ∀ p, (f p).lruNext = p.lruNext ∧ (f p).lruPrev = p.lruPrev ∧ (f p).hashNext = p.hashNext) :
    PoolBut (s.mod page f) page := by
  have hother : ∀ j, j ≠ page → ((s.mod page f).pagePool j).valid = (s.pagePool j).valid := fun j hj => by
    rw [mod_ne hj]
  refine ⟨h.used_le, h.lt, ?_, fun j hj => ?_⟩
  · refine (h.listed.mod hf fun hand => absurd rfl hand.2).of_iff fun j => and_congr_left fun hj => ?_
    rw [hother j hj]
  · by_cases hjp : j = page
    · rw [hjp]
      exact h.lt
    · exact h.used j (hother j hjp ▸ hj)

theorem PoolBut.world (h : PoolBut s page) (world : σ) : PoolBut { s with world } page :=
  ⟨h.used_le, h.lt, ⟨h.listed.lru, h.listed.chains⟩, h.used⟩

/-- A page that is not valid need not be in the lists. -/
theorem PoolBut.invalid (h : PoolBut s page) (hv : (s.pagePool page).valid = false) : PoolOk s := by
  refine ⟨h.used_le, h.listed.of_iff fun i => ⟨And.left, fun hi => ⟨hi, ?_⟩⟩, h.used⟩
  rintro rfl
  rw [hv] at hi
  cases hi

/-- A valid page enters the lists. -/
theorem PoolBut.insert (h : PoolBut s page) (hv : (s.pagePool page).valid = true) :
    PoolOk ((s.hashInsert page (pagecacheHash (s.pagePool page).key)).lruInsertHead page) := by
  obtain ⟨hsame, hlisted⟩ := @Listed.insert _ s _ page h.listed fun hand => hand.2 rfl
  refine ⟨?_, hlisted.of_iff fun i => ?_, fun i hi => ?_⟩
  · rw [hsame.globals.usedPages, hsame.globals.totalPages]
    exact h.used_le
  · rw [hsame.valid]
    constructor
    · rintro (⟨hi, -⟩ | rfl)
      · exact hi
      · exact hv
    · intro hi
      by_cases heq : i = page
      · exact .inr heq
      · exact .inl ⟨hi, heq⟩
  · rw [hsame.valid] at hi
    rw [hsame.globals.usedPages]
    exact h.used i hi

theorem init_pool (maxPages : ℕ) (contents : ℕ → Page) (world : σ) : PoolOk (pagecacheInit maxPages contents world) := by
  have hinit := init_ok maxPages contents world
  refine ⟨hinit.used_le, hinit.listed.of_iff fun i => (hinit.valid i).symm, fun i hi => (hinit.valid i).mp hi⟩

end Pool

section Get

theorem PoolOk.writeBack (h : PoolOk s) (i : ℕ) : PoolOk (s.writeBack ops i).2 := by
  obtain ⟨w, hw⟩ := writeBack_eq ops s i
  rw [hw]
  exact h.globals ..

theorem PoolOk.clean (h : PoolOk s) (i : ℕ) : PoolOk (s.clean i) := by
  have hmod : PoolOk (s.mod i fun p => { p with dirty := false }) :=
    h.mod (fun _ => ⟨rfl, rfl, rfl⟩) (fun _ => rfl) fun _ => rfl
  exact hmod.globals ..

theorem cleaned_valid (j : ℕ) : ((cleaned ops s i).pagePool j).valid = (s.pagePool j).valid := by
  rw [cleaned_pagePool]
  split_ifs <;> rfl

theorem PoolOk.cleaned (h : PoolOk s) (i : ℕ) : PoolOk (cleaned ops s i) := by
  unfold PageCache.cleaned
  split_ifs
  · exact (h.writeBack i).clean i
  · exact h

variable (ops) in
theorem lruEvict_pool (h : PoolOk s) :
    (∃ i s₁, lruEvict ops s = some (some i, s₁) ∧ PoolBut s₁ i) ∨ lruEvict ops s = some (none, s) := by
  obtain ⟨l, hl, hmem⟩ := h.listed.lru
  have hlen : l.reverse.length ≤ s.fuel := by
    rw [List.length_reverse]
    exact Nat.le_succ_of_le (length_le hl.nodup fun i hi => h.lt_total ((hmem i).mp hi))
  have hsearch := hl.backwards.search_eq hlen fun i => decide ((s.pagePool i).refCount = 0)
  unfold lruEvict
  rw [hsearch]
  cases hfind : l.reverse.find? fun i => decide ((s.pagePool i).refCount = 0) with
  | none => exact .inr rfl
  | some victim =>
    have hvalid := (hmem victim).mp (List.mem_reverse.mp (List.mem_of_find?_eq_some hfind))
    have hcleaned : PoolOk (PageCache.cleaned ops s victim) := h.cleaned victim
    obtain ⟨s₁, hs₁, -, hbut⟩ := hcleaned.remove ((cleaned_valid victim).trans hvalid)
    refine .inl ⟨victim, s₁, ?_, hbut⟩
    unfold PageCache.cleaned at hs₁
    dsimp only
    rw [hs₁]
    rfl

variable (ops) in
theorem takePage_pool (h : PoolOk s) :
    (∃ i s₁, takePage ops s = some (some i, s₁) ∧ PoolBut s₁ i) ∨ takePage ops s = some (none, s) := by
  unfold takePage
  split_ifs with hlt
  · have hinvalid : ¬(s.pagePool s.usedPages).valid = true := fun hv => absurd (h.used _ hv) (Nat.lt_irrefl _)
    refine .inl ⟨_, _, rfl, hlt, Nat.lt_succ_self _, ?_, fun i hi => Nat.lt_succ_of_lt (h.used i hi)⟩
    refine h.listed.congr (fun _ _ => rfl) (fun _ _ => rfl) (fun _ _ => rfl) (fun _ _ => rfl) rfl rfl rfl fun i => ?_
    refine ⟨fun hi => ⟨hi, ?_⟩, And.left⟩
    rintro rfl
    exact hinvalid hi
  · exact lruEvict_pool ops h

/-- The walk along a hash chain finds a valid page or none. -/
theorem findPage_pool (h : PoolOk s) (k : Key) :
    (∃ i, s.findPage k = some (some i) ∧ (s.pagePool i).valid = true) ∨ s.findPage k = some none := by
  obtain ⟨c, hc, hnd, hmem⟩ := h.listed.chains (pagecacheHash k)
  have hlen : c.length ≤ s.fuel := Nat.le_succ_of_le (length_le hnd fun i hi => h.lt_total ((hmem i).mp hi).1)
  have hsearch := hc.search_eq hlen fun i => decide ((s.pagePool i).key = k) && (s.pagePool i).valid
  unfold Cache.findPage
  rw [hsearch]
  cases hfind : c.find? fun i => decide ((s.pagePool i).key = k) && (s.pagePool i).valid with
  | none => exact .inr rfl
  | some i => exact .inl ⟨i, rfl, ((hmem i).mp (List.mem_of_find?_eq_some hfind)).1⟩

theorem filled_pool (s₁ : Cache σ) (i : ℕ) (k : Key) (h : PoolBut s₁ i) :
    PoolBut (filled ops s₁ i k) i ∧ ((filled ops s₁ i k).pagePool i).key = k ∧
      ((filled ops s₁ i k).pagePool i).valid = true := by
  have hclaim : PoolBut (s₁.claim i k) i := h.mod fun _ => ⟨rfl, rfl, rfl⟩
  have hself : (s₁.claim i k).pagePool i = { s₁.pagePool i with
      key := k, refCount := 1, dirty := false, valid := true } := mod_self
  unfold filled
  rcases readIn_eq ops (s₁.claim i k) i with hread | ⟨d, w, hread⟩
  · rw [hread]
    exact ⟨hclaim, by rw [hself], by rw [hself]⟩
  · have hmod : PoolBut ((s₁.claim i k).mod i fun p => { p with data := d }) i :=
      hclaim.mod fun _ => ⟨rfl, rfl, rfl⟩
    rw [hread]
    refine ⟨hmod.world w, ?_, ?_⟩
    · show (((s₁.claim i k).mod i fun p => { p with data := d }).pagePool i).key = k
      rw [mod_self, hself]
    · show (((s₁.claim i k).mod i fun p => { p with data := d }).pagePool i).valid = true
      rw [mod_self, hself]

/-- Getting a page returns, also where the read fails. -/
theorem PoolOk.get (ops : Ops σ) (h : PoolOk s) (k : Key) : ∃ r s', pagecacheGet ops s k = some (r, s') ∧ PoolOk s' := by
  unfold pagecacheGet
  rcases findPage_pool h k with ⟨i, hfind, hvalid⟩ | hfind
  · have hmod : PoolOk (s.mod i fun p => { p with refCount := p.refCount + 1 }) :=
      h.mod (fun _ => ⟨rfl, rfl, rfl⟩) (fun _ => rfl) fun _ => rfl
    have hv : ((s.mod i fun p => { p with refCount := p.refCount + 1 }).pagePool i).valid = true := by
      rw [mod_self]
      exact hvalid
    obtain ⟨hsame, hlisted⟩ := hmod.listed.moveHead hv
    rw [hfind]
    exact ⟨_, _, rfl, (hmod.relist hsame hlisted).globals ..⟩
  · have hmissed : PoolOk s.missed := h.globals ..
    rw [hfind]
    dsimp only
    rcases takePage_pool ops hmissed with ⟨i, s₁, htake, hbut⟩ | htake
    · obtain ⟨hbut', hkey, hvalid⟩ := @filled_pool _ ops s₁ i k hbut
      have hok := hbut'.insert hvalid
      rw [hkey] at hok
      rw [htake]
      dsimp only
      by_cases hread : (readIn ops (s₁.claim i k) i).1 = 0
      · rw [if_neg (not_not.mpr hread)]
        exact ⟨_, _, rfl, hok⟩
      · rw [if_pos hread]
        refine ⟨_, _, rfl, PoolBut.invalid (hbut'.mod fun _ => ⟨rfl, rfl, rfl⟩) ?_⟩
        rw [mod_self]
    · rw [htake]
      exact ⟨_, _, rfl, hmissed⟩

end Get

section Calls

variable {fsId inodeId pos : UInt64} {done remaining : ℕ}

theorem PoolOk.release (h : PoolOk s) (page : ℕ) : PoolOk (pagecacheRelease s page) := by
  unfold pagecacheRelease
  split_ifs
  · exact h.mod (fun _ => ⟨rfl, rfl, rfl⟩) (fun _ => rfl) fun _ => rfl
  · exact h

theorem transfer_pool {α : Type*} (body : ℕ → ℕ → ℕ → ℕ → α × Cache σ → α × Cache σ)
    (hbody : ∀ s page off done n a, PoolOk s → PoolOk (body page off done n (a, s)).2) (h : PoolOk s) (fuel : ℕ) (a : α) :
    ∃ complete a' s', transfer ops fsId inodeId body fuel pos done remaining (a, s) = some (complete, a', s') ∧
      PoolOk s' := by
  induction fuel generalizing s pos done remaining a with
  | zero => exact ⟨true, a, s, rfl, h⟩
  | succ fuel ih =>
    unfold transfer
    split_ifs with hzero
    · exact ⟨true, a, s, rfl, h⟩
    · obtain ⟨r, s', hget, h'⟩ := h.get ops (keyAt fsId inodeId pos)
      rw [hget]
      cases r with
      | none => exact ⟨false, a, s', rfl, h'⟩
      | some page => exact ih ((hbody s' page (pos.toNat % pageSize) done (toCopy pos remaining) a h').release page) _

theorem readahead_pool {pageIndex : UInt64} (h : PoolOk s) (count i : ℕ) :
    ∃ s', pagecacheReadahead ops fsId inodeId pageIndex count i s = some s' ∧ PoolOk s' := by
  induction count generalizing s i with
  | zero => exact ⟨s, rfl, h⟩
  | succ count ih =>
    obtain ⟨r, s', hget, h'⟩ := h.get ops ⟨fsId, inodeId, pageIndex + UInt64.ofNat i⟩
    unfold pagecacheReadahead
    rw [hget]
    cases r with
    | none => exact ⟨s', rfl, h'⟩
    | some page => exact ih (h'.release page) (i + 1)

theorem PoolOk.flush (h : PoolOk s) (i : ℕ) : PoolOk (flush ops s i).2 := by
  unfold PageCache.flush
  dsimp only
  split_ifs
  · exact (h.writeBack i).clean i
  · exact h.writeBack i

theorem PoolOk.flushLoop {pick : CachePage → Bool} (h : PoolOk s) (n i : ℕ) (count : ℤ) :
    PoolOk (flushLoop ops pick n i (count, s)).2 := by
  induction n generalizing s i count with
  | zero => exact h
  | succ n ih =>
    unfold PageCache.flushLoop
    dsimp only
    split_ifs
    · exact ih (h.flush i) _ _
    · exact ih (h.flush i) _ _
    · exact ih h _ _

/-- What an invalidation leaves of a page. -/
def Info.dropped (p : Info) : Info := { p with dirty := false, valid := false }

/-- A valid page is dropped; the others keep what they have. -/
theorem PoolOk.drop (h : PoolOk s) (hv : (s.pagePool i).valid = true) :
    ∃ s', s.drop i = some s' ∧ PoolOk s' ∧ (s'.pagePool i).info = (s.pagePool i).info.dropped ∧
      (∀ j, j ≠ i → (s'.pagePool j).info = (s.pagePool j).info) ∧ s'.totalPages = s.totalPages := by
  obtain ⟨s₁, hs₁, hsame, hbut⟩ := h.remove hv
  have hout : PoolOk (s₁.mod i fun p => { p with valid := false, dirty := false, hashNext := none }) := by
    refine ⟨hbut.used_le, ?_, fun j hj => ?_⟩
    · refine hbut.listed.congr (fun j hj => ?_) (fun j hj => ?_) (fun j hj => ?_) (fun j hj => ?_) rfl rfl rfl fun j => ?_
      · exact congrArg CachePage.lruNext (mod_ne hj.2)
      · exact congrArg CachePage.lruPrev (mod_ne hj.2)
      · exact congrArg CachePage.hashNext (mod_ne hj.2)
      · rw [mod_ne hj.2]
      · by_cases hji : j = i
        · rw [hji, mod_self]
          exact ⟨fun hand => absurd rfl hand.2, fun hfalse => absurd hfalse Bool.false_ne_true⟩
        · rw [mod_ne hji]
          exact ⟨And.left, fun hj => ⟨hj, hji⟩⟩
    · by_cases hji : j = i
      · rw [hji]
        exact hbut.lt
      · rw [mod_ne hji] at hj
        exact hbut.used j hj
  refine ⟨_, ?_, hout, ?_, fun j hj => ?_, hsame.globals.totalPages⟩
  · unfold Cache.drop
    rw [hs₁]
    rfl
  · rw [mod_self, ← hsame.info i]
    rfl
  · rw [mod_ne hj]
    exact hsame.info j

/-- The pages that the loop over the pool drops. -/
def Picked (pick : Key → Bool) (p : Info) : Prop := p.valid = true ∧ pick p.key = true ∧ p.refCount = 0

instance (pick : Key → Bool) (p : Info) : Decidable (Picked pick p) := inferInstanceAs (Decidable (_ ∧ _ ∧ _))

theorem invalidateLoop_spec (pick : Key → Bool) (h : PoolOk s) (n i : ℕ) :
    ∃ s', invalidateLoop pick n i s = some s' ∧ PoolOk s' ∧ s'.totalPages = s.totalPages ∧
      ∀ j, (s'.pagePool j).info = if (i ≤ j ∧ j < i + n) ∧ Picked pick (s.pagePool j).info then
        (s.pagePool j).info.dropped else (s.pagePool j).info := by
  induction n generalizing s i with
  | zero => exact ⟨s, rfl, h, rfl, fun j => (if_neg fun hand => by omega).symm⟩
  | succ n ih =>
    unfold invalidateLoop
    dsimp only
    by_cases hpick : (s.pagePool i).valid = true ∧ pick (s.pagePool i).key = true ∧ (s.pagePool i).refCount = 0
    · obtain ⟨s₁, hs₁, h₁, hself, hother, htotal⟩ := h.drop hpick.1
      obtain ⟨s', hs', h', htotal', hinfo⟩ := ih h₁ (i + 1)
      rw [if_pos hpick, hs₁]
      refine ⟨s', hs', h', htotal'.trans htotal, fun j => ?_⟩
      by_cases hji : j = i
      · have hout : ¬((i + 1 ≤ j ∧ j < i + 1 + n) ∧ Picked pick (s₁.pagePool j).info) := fun hand => by omega
        have hin : (i ≤ j ∧ j < i + (n + 1)) ∧ Picked pick (s.pagePool j).info := ⟨by omega, hji ▸ hpick⟩
        rw [hinfo, if_neg hout, if_pos hin, hji, hself]
      · rw [hinfo, hother j hji]
        exact ite_congr (propext (and_congr_left fun _ => by omega)) (fun _ => rfl) fun _ => rfl
    · obtain ⟨s', hs', h', htotal, hinfo⟩ := ih h (i + 1)
      rw [if_neg hpick]
      refine ⟨s', hs', h', htotal, fun j => ?_⟩
      by_cases hji : j = i
      · have hout : ¬((i + 1 ≤ j ∧ j < i + 1 + n) ∧ Picked pick (s.pagePool j).info) := fun hand => by omega
        have hout' : ¬((i ≤ j ∧ j < i + (n + 1)) ∧ Picked pick (s.pagePool j).info) := fun hand =>
          hpick (hji ▸ hand.2)
        rw [hinfo, if_neg hout, if_neg hout']
      · rw [hinfo]
        exact ite_congr (propext (and_congr_left fun _ => by omega)) (fun _ => rfl) fun _ => rfl

/-- Every call returns and keeps the lists. -/
theorem call_pool (ops : Ops σ) (h : PoolOk s) (c : Call) : ∃ r s', call ops s c = some (r, s') ∧ PoolOk s' := by
  have hdrop : ∀ pick, ∃ s', invalidateLoop pick s.totalPages 0 s = some s' ∧ PoolOk s' := fun pick => by
    obtain ⟨s', hs', h', -⟩ := invalidateLoop_spec pick h s.totalPages 0
    exact ⟨s', hs', h'⟩
  cases c with
  | get k =>
    obtain ⟨r, s', hget, h'⟩ := h.get ops k
    exact ⟨_, s', congrArg (Option.map _) hget, h'⟩
  | release page => exact ⟨_, _, rfl, h.release page⟩
  | read fsId inodeId offset size =>
    simp only [call, pagecacheRead]
    by_cases hsize : size = 0
    · rw [if_pos hsize]
      exact ⟨_, _, rfl, h⟩
    · rw [if_neg hsize]
      obtain ⟨complete, dst, s', hread, h'⟩ := transfer_pool readBody (fun s page off done n a hs => hs) h size.toNat []
      rw [hread]
      exact ⟨_, _, rfl, h'⟩
  | write fsId inodeId offset src size =>
    have hbody : ∀ (s : Cache σ) (page off done n : ℕ) (a : Unit), PoolOk s →
        PoolOk (writeBody src page off done n (a, s)).2 := fun s page off done n a hs => by
      have hmod : PoolOk (s.mod page fun p =>
          { p with data := p.data.copyIn off n fun j => src (done + j), dirty := true }) :=
        hs.mod (fun _ => ⟨rfl, rfl, rfl⟩) (fun _ => rfl) fun _ => rfl
      exact hmod.globals ..
    simp only [call, pagecacheWrite]
    by_cases hsize : size = 0
    · rw [if_pos hsize]
      exact ⟨_, _, rfl, h⟩
    · rw [if_neg hsize]
      obtain ⟨complete, _, s', hwrite, h'⟩ := transfer_pool (writeBody src) hbody h size.toNat ()
      rw [hwrite]
      exact ⟨_, _, rfl, h'⟩
  | readahead fsId inodeId pageIndex count =>
    obtain ⟨s', hs', h'⟩ := readahead_pool h count 0
    exact ⟨.void, s', congrArg (Option.map fun s => (Result.void, s)) hs', h'⟩
  | markDirty page =>
    refine ⟨_, _, rfl, ?_⟩
    unfold pagecacheMarkDirty
    split_ifs
    · exact h
    · have hmod : PoolOk (s.mod page fun p => { p with dirty := true }) :=
        h.mod (fun _ => ⟨rfl, rfl, rfl⟩) (fun _ => rfl) fun _ => rfl
      exact hmod.globals ..
  | flushPage page =>
    refine ⟨_, _, rfl, ?_⟩
    unfold pagecacheFlushPage
    split_ifs
    · exact h.flush page
    · exact h
  | flushInode fsId inodeId => exact ⟨_, _, rfl, h.flushLoop _ _ _⟩
  | flushAll => exact ⟨_, _, rfl, h.flushLoop _ _ _⟩
  | invalidate fsId inodeId =>
    obtain ⟨s', hs', h'⟩ := hdrop (ofInode fsId inodeId)
    exact ⟨.void, s', congrArg (Option.map fun s => (Result.void, s)) hs', h'⟩
  | invalidateRange fsId inodeId start «end» =>
    obtain ⟨s', hs', h'⟩ := hdrop (inRange fsId inodeId start «end»)
    exact ⟨.void, s', congrArg (Option.map fun s => (Result.void, s)) hs', h'⟩
  | truncate fsId inodeId newSize =>
    obtain ⟨s', hs', h'⟩ := hdrop (inRange fsId inodeId ((newSize + 4096 - 1) / 4096 * 4096) 0xFFFFFFFFFFFFFFFF)
    exact ⟨.void, s', congrArg (Option.map fun s => (Result.void, s)) hs', h'⟩

/-- After any calls the lists have the valid pages. -/
theorem run_pool {maxPages : ℕ} {data : ℕ → Page} {w : σ} {cs : List Call}
    (hrun : Run.run (step ops) (pagecacheInit maxPages data w) cs = some s) : PoolOk s :=
  (Run.Reach.of_run .start hrun).invariant (init_pool maxPages data w) fun s c t hs _ hstep => by
    obtain ⟨r, s', hcall, hs'⟩ := call_pool ops hs c
    unfold step at hstep
    rw [hcall] at hstep
    exact Option.some_inj.mp hstep ▸ hs'

end Calls

end PageCache

/-!
## Invalidating a range of bytes

The end of a range is rounded up in 64 bits. From 2^64 - 4095 on this gives zero and nothing is dropped; a truncation
always passes such an end.
-/

namespace PageCache

variable {σ : Type*} {s s' : Cache σ} {ops : Ops σ} {fsId inodeId start «end» newSize : UInt64} {k : Key}

section Rounding

theorem pageIndex_start : (start / 4096).toNat = start.toNat / 4096 := UInt64.toNat_div start 4096

/-- The end of the range, rounded up. -/
theorem pageIndex_end : ((«end» + 4096 - 1) / 4096).toNat =
    if «end».toNat ≤ 2 ^ 64 - 4096 then («end».toNat + 4095) / 4096 else 0 := by
  have hlt := «end».toNat_lt
  have hone : (1 : UInt64).toNat = 1 := rfl
  have h4096 : (4096 : UInt64).toNat = 4096 := rfl
  rw [UInt64.toNat_div, UInt64.toNat_sub, UInt64.toNat_add, hone, h4096]
  split_ifs <;> omega

theorem inRange_iff : inRange fsId inodeId start «end» k = true ↔
    ofInode fsId inodeId k = true ∧ «end».toNat ≤ 2 ^ 64 - 4096 ∧ start.toNat / 4096 ≤ k.pageIndex.toNat ∧
      k.pageIndex.toNat < («end».toNat + 4095) / 4096 := by
  unfold inRange
  rw [Bool.and_eq_true, Bool.and_eq_true, decide_eq_true_iff, decide_eq_true_iff, ge_iff_le, UInt64.le_iff_toNat_le,
    UInt64.lt_iff_toNat_lt, pageIndex_start, pageIndex_end, and_assoc]
  refine and_congr_right fun _ => ?_
  split_ifs with hend
  · exact ⟨fun h => ⟨hend, h⟩, And.right⟩
  · exact ⟨fun h => absurd h.2 (Nat.not_lt_zero _), fun h => absurd h.1 hend⟩

/-- The pages that a range touches, if it is not empty. -/
theorem touches_iff {a b idx : ℕ} : Touches a b idx ↔ a < b ∧ a / 4096 ≤ idx ∧ idx < (b + 4095) / 4096 := by
  unfold Touches pageSize
  constructor
  · rintro ⟨x, hax, hxb, rfl⟩
    omega
  · rintro ⟨hab, hlow, hhigh⟩
    refine ⟨max a (idx * 4096), Nat.le_max_left .., ?_, ?_⟩ <;> omega

end Rounding

section Drops

theorem samePage_of_info {p p' : CachePage} (h : p'.info = p.info) : SamePage p p' :=
  ⟨congrArg Info.key h, congrArg Info.data h, congrArg Info.dirty h, congrArg Info.refCount h, congrArg Info.valid h⟩

/-- The loop drops exactly the pages with `P` if it picks these. -/
theorem dropsExactly_iff {pick : Key → Bool} {P : Key → Prop}
    (hinfo : ∀ i < s.totalPages, (s'.pagePool i).info =
      if Picked pick (s.pagePool i).info then (s.pagePool i).info.dropped else (s.pagePool i).info) :
    DropsExactly s s' P ↔ ∀ i < s.totalPages, (s.pagePool i).valid = true → (s.pagePool i).refCount = 0 →
      (pick (s.pagePool i).key = true ↔ P (s.pagePool i).key) := by
  refine forall_congr' fun i => forall_congr' fun hi => ?_
  have hpage := hinfo i hi
  by_cases hpick : Picked pick (s.pagePool i).info
  · rw [if_pos hpick] at hpage
    have hdropped : (s'.pagePool i).valid = false := congrArg Info.valid hpage
    obtain ⟨hvalid, hkey, href⟩ : (s.pagePool i).valid = true ∧ pick (s.pagePool i).key = true ∧
        (s.pagePool i).refCount = 0 := hpick
    constructor
    · rintro ⟨-, hsame⟩ - -
      refine ⟨fun _ => ?_, fun _ => hkey⟩
      by_contra hP
      have hv := (hsame fun hand => hP hand.2.2).2.2.2.2
      rw [hdropped, hvalid] at hv
      cases hv
    · intro hiff
      refine ⟨fun _ _ _ => hdropped, fun hnot => ?_⟩
      exact absurd ⟨hvalid, href, (hiff hvalid href).mp hkey⟩ hnot
  · rw [if_neg hpick] at hpage
    have hsame := samePage_of_info hpage
    constructor
    · rintro ⟨hdrop, -⟩ hvalid href
      refine ⟨fun hkey => absurd ⟨hvalid, hkey, href⟩ hpick, fun hP => ?_⟩
      have hv := hdrop hvalid href hP
      rw [hsame.2.2.2.2, hvalid] at hv
      cases hv
    · intro hiff
      refine ⟨fun hvalid href hP => ?_, fun _ => hsame⟩
      exact absurd ⟨hvalid, (hiff hvalid href).mpr hP, href⟩ hpick

/-- A range is invalidated as it should be in exactly these cases. -/
theorem invalidateRange_spec (h : PoolOk s) (hle : start ≤ «end») :
    ∃ s', pagecacheInvalidateRange s fsId inodeId start «end» = some s' ∧
      (InvalidatesRange s s' fsId inodeId start «end» ↔
        (2 ^ 64 - 4096 < «end».toNat → ¬HasFree s fsId inodeId (Touches start.toNat «end».toNat)) ∧
        (start = «end» → «end».toNat ≤ 2 ^ 64 - 4096 → ¬4096 ∣ start.toNat →
          ¬HasFree s fsId inodeId fun idx => idx = start.toNat / 4096)) := by
  obtain ⟨s', hs', -, -, hinfo⟩ := invalidateLoop_spec (inRange fsId inodeId start «end») h s.totalPages 0
  have hinfo' : ∀ i < s.totalPages, (s'.pagePool i).info =
      if Picked (inRange fsId inodeId start «end») (s.pagePool i).info then (s.pagePool i).info.dropped
      else (s.pagePool i).info := fun i hi => by
    rw [hinfo]
    exact ite_congr (propext ⟨And.right, fun hp => ⟨by omega, hp⟩⟩) (fun _ => rfl) fun _ => rfl
  refine ⟨s', hs', (dropsExactly_iff hinfo').trans ?_⟩
  have hle' := UInt64.le_iff_toNat_le.mp hle
  have heq : start = «end» ↔ start.toNat = «end».toNat := UInt64.toNat_inj.symm
  simp only [inRange_iff, touches_iff]
  unfold HasFree
  constructor
  · intro hiff
    constructor
    · rintro hend ⟨i, hi, hvalid, href, hinode, htouch⟩
      have hpicked := (hiff i hi hvalid href).mpr ⟨hinode, touches_iff.mp htouch⟩
      exact absurd hpicked.2.1 (Nat.not_le.mpr hend)
    · rintro hsame hend hdvd ⟨i, hi, hvalid, href, hinode, hidx⟩
      rw [heq] at hsame
      have htouched := (hiff i hi hvalid href).mp ⟨hinode, hend, by omega, by omega⟩
      omega
  · rintro ⟨hlarge, hempty⟩ i hi hvalid href
    refine and_congr_right fun hinode => ?_
    constructor
    · rintro ⟨hend, hlow, hhigh⟩
      refine ⟨?_, hlow, hhigh⟩
      by_contra hge
      have hsame : start = «end» := heq.mpr (by omega)
      exact hempty hsame hend (by omega) ⟨i, hi, hvalid, href, hinode, by omega⟩
    · rintro htouch
      refine ⟨?_, htouch.2.1, htouch.2.2⟩
      by_contra hend
      exact hlarge (Nat.not_le.mp hend) ⟨i, hi, hvalid, href, hinode, touches_iff.mpr htouch⟩

/-- A truncation drops nothing. -/
theorem truncate_eq : pagecacheTruncate s fsId inodeId newSize = some s := by
  refine invalidate_none fun i hi hpick => ?_
  have hend := (inRange_iff.mp hpick.2.1).2.1
  exact absurd hend (by decide)

/-- It is right only where there is nothing to drop. -/
theorem truncates_iff : Truncates s s fsId inodeId newSize ↔
    ¬HasFree s fsId inodeId fun idx => pagesOf newSize.toNat ≤ idx := by
  constructor
  · rintro ⟨hgone, -⟩ ⟨i, hi, hvalid, href, hinode, hidx⟩
    exact absurd (hgone i hi hvalid href hinode) (Nat.not_lt.mpr hidx)
  · intro hnone
    refine ⟨fun i hi hvalid href hinode => ?_, fun i _ _ => ⟨rfl, rfl, rfl, rfl, rfl⟩⟩
    by_contra hidx
    exact hnone ⟨i, hi, hvalid, href, hinode, Nat.not_lt.mp hidx⟩

end Drops

/-- After any calls: a truncation returns, and does what it should only if there is no page to drop. A range is
invalidated as it should be unless its end wraps around when it is rounded up, or it is empty within a page. -/
theorem pagecache_ranges_iff (ops : Ops σ) (maxPages : ℕ) (data : ℕ → Page) (w : σ) (cs : List Call) (s : Cache σ)
    (hrun : Run.run (step ops) (pagecacheInit maxPages data w) cs = some s)
    (fsId inodeId newSize start «end» : UInt64) (hle : start ≤ «end») :
    (∃ s', pagecacheTruncate s fsId inodeId newSize = some s' ∧
      (Truncates s s' fsId inodeId newSize ↔ ¬HasFree s fsId inodeId fun idx => pagesOf newSize.toNat ≤ idx)) ∧
    ∃ s', pagecacheInvalidateRange s fsId inodeId start «end» = some s' ∧
      (InvalidatesRange s s' fsId inodeId start «end» ↔
        (2 ^ 64 - 4096 < «end».toNat → ¬HasFree s fsId inodeId (Touches start.toNat «end».toNat)) ∧
        (start = «end» → «end».toNat ≤ 2 ^ 64 - 4096 → ¬4096 ∣ start.toNat →
          ¬HasFree s fsId inodeId fun idx => idx = start.toNat / 4096)) :=
  ⟨⟨s, truncate_eq, truncates_iff⟩, invalidateRange_spec (run_pool hrun) hle⟩

/-- A cache of one page, with page 0 of inode 1. -/
theorem readahead_run : ∃ s, Run.run (step memOps) (pagecacheInit 1 (fun _ _ => 0) fun _ _ => 0) [.readahead 0 1 0 1] = some s ∧
    HasFree s 0 1 fun idx => idx = 0 := by
  let run := Run.run (step memOps) (pagecacheInit 1 (fun _ _ => 0) fun _ _ => 0) [.readahead 0 1 0 1]
  have htotal : run.map (·.totalPages) = some 1 := by decide +kernel
  have hvalid : run.map (fun s => (s.pagePool 0).valid) = some true := by decide +kernel
  have href : run.map (fun s => (s.pagePool 0).refCount) = some 0 := by decide +kernel
  have hkey : run.map (fun s => (s.pagePool 0).key) = some ⟨0, 1, 0⟩ := by decide +kernel
  cases hrun : run with
  | none =>
    rw [hrun] at htotal
    cases htotal
  | some s =>
    rw [hrun] at htotal hvalid href hkey
    have htotal' : s.totalPages = 1 := Option.some_inj.mp htotal
    have hkey' : (s.pagePool 0).key = ⟨0, 1, 0⟩ := Option.some_inj.mp hkey
    refine ⟨s, hrun, 0, ?_, Option.some_inj.mp hvalid, Option.some_inj.mp href, ?_, ?_⟩
    · rw [htotal']
      exact Nat.one_pos
    · rw [hkey']
      decide
    · rw [hkey']
      rfl

theorem pagecache_ranges_iff_readahead : ∃ s,
    Run.run (step memOps) (pagecacheInit 1 (fun _ _ => 0) fun _ _ => 0) [.readahead 0 1 0 1] = some s ∧
    (∃ s', pagecacheTruncate s 0 1 0 = some s' ∧
      (Truncates s s' 0 1 0 ↔ ¬HasFree s 0 1 fun idx => pagesOf (0 : UInt64).toNat ≤ idx)) ∧
    ∃ s', pagecacheInvalidateRange s 0 1 0 1 = some s' ∧
      (InvalidatesRange s s' 0 1 0 1 ↔
        (2 ^ 64 - 4096 < (1 : UInt64).toNat → ¬HasFree s 0 1 (Touches (0 : UInt64).toNat (1 : UInt64).toNat)) ∧
        ((0 : UInt64) = 1 → (1 : UInt64).toNat ≤ 2 ^ 64 - 4096 → ¬4096 ∣ (0 : UInt64).toNat →
          ¬HasFree s 0 1 fun idx => idx = (0 : UInt64).toNat / 4096)) := by
  obtain ⟨s, hrun, -⟩ := readahead_run
  exact ⟨s, hrun, pagecache_ranges_iff memOps 1 _ _ _ s hrun 0 1 0 0 1 (by decide)⟩

/-- The page is still there when the file is truncated to nothing. -/
theorem truncate_leaves_page : ∃ s,
    Run.run (step memOps) (pagecacheInit 1 (fun _ _ => 0) fun _ _ => 0) [.readahead 0 1 0 1] = some s ∧
    pagecacheTruncate s 0 1 0 = some s ∧ ¬Truncates s s 0 1 0 := by
  obtain ⟨s, hrun, hfree⟩ := readahead_run
  obtain ⟨i, hi, hvalid, href, hinode, -⟩ := hfree
  exact ⟨s, hrun, truncate_eq, fun htrunc => truncates_iff.mp htrunc ⟨i, hi, hvalid, href, hinode, Nat.zero_le _⟩⟩

end PageCache
