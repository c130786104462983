import Kenux.Lib.Count
import Kenux.PageCache.Proofs.Arrays

/-!
# Counters and lists

When reads from the store succeed, pages are clean when they are written to and nothing is invalidated,
the cache counts its dirty pages and finds a page for every new key while one is not held.
-/

namespace PageCache

variable {σ : Type*} {s s' s₁ : Cache σ} {i j page : ℕ} {k : Key} {ops : Ops σ}

section Count

def dirtyCount (s : Cache σ) : ℕ :=
  ((Finset.range s.totalPages).filter fun i => (s.pagePool i).dirty = true).card

theorem dirtyCount_congr (ht : s'.totalPages = s.totalPages)
    (hd : ∀ i, (s'.pagePool i).dirty = (s.pagePool i).dirty) : dirtyCount s' = dirtyCount s := by
  unfold dirtyCount
  rw [ht]
  simp only [hd]

theorem mod_dirty {f : CachePage → CachePage} (hf : ∀ p, (f p).dirty = p.dirty) (j : ℕ) :
    ((s.mod i f).pagePool j).dirty = (s.pagePool j).dirty := by
  rw [mod_pagePool]
  split_ifs
  · exact hf _
  · rfl

theorem dirtyCount_mod {f : CachePage → CachePage} (hf : ∀ p, (f p).dirty = p.dirty) :
    dirtyCount (s.mod i f) = dirtyCount s := by
  have hsame : (s.mod i f).totalPages = s.totalPages := rfl
  exact dirtyCount_congr hsame (mod_dirty hf)

/-- A page becomes dirty. -/
theorem dirtyCount_add (ht : s'.totalPages = s.totalPages) (hi : i < s.totalPages)
    (hd : (s.pagePool i).dirty = false) (hd' : (s'.pagePool i).dirty = true)
    (h : ∀ j, j ≠ i → (s'.pagePool j).dirty = (s.pagePool j).dirty) :
    dirtyCount s' = dirtyCount s + 1 := by
  unfold dirtyCount
  rw [ht]
  exact Count.count_add hi (by rw [hd]; exact Bool.false_ne_true) hd' fun j hj => by rw [h j hj]

/-- The cache is in order and its count of dirty pages is right. -/
structure Counted (s : Cache σ) : Prop where
  ok : CacheOk s
  dirty : s.dirtyPages = dirtyCount s

theorem Counted.lt (hc : Counted s) (hi : i < s.usedPages) : i < s.totalPages :=
  Nat.lt_of_lt_of_le hi hc.ok.used_le

theorem Counted.congr (hc : Counted s) (hs : SameInfo s s') (hok : CacheOk s') : Counted s' :=
  ⟨hok, by rw [hs.globals.dirtyPages, dirtyCount_congr hs.globals.totalPages hs.dirty, hc.dirty]⟩

/-- A change of the other fields of a page. -/
theorem Counted.mod (hc : Counted s) {f : CachePage → CachePage}
    (hf : ∀ p, (f p).lruNext = p.lruNext ∧ (f p).lruPrev = p.lruPrev ∧ (f p).hashNext = p.hashNext)
    (hk : ∀ p, (f p).key = p.key) (hv : ∀ p, (f p).valid = p.valid)
    (hd : ∀ p, (f p).dirty = p.dirty) : Counted (s.mod i f) := by
  refine ⟨hc.ok.mod hf hk hv ?_, ?_⟩
  · rw [hd]
    by_cases hlt : i < s.usedPages
    · exact .inl hlt
    · exact .inr (hc.ok.clean i (Nat.le_of_not_lt hlt))
  · rw [dirtyCount_mod hd]
    exact hc.dirty

end Count

section Get

theorem Counted.writeBack (hc : Counted s) (i : ℕ) : Counted (s.writeBack ops i).2 := by
  have hok : CacheOk (s.writeBack ops i).2 := hc.ok.writeBack
  obtain ⟨w, hw⟩ := writeBack_eq ops s i
  rw [hw] at hok ⊢
  exact ⟨hok, hc.dirty⟩

/-- A dirty page is cleaned and counted. -/
theorem Counted.clean (hc : Counted s) (hi : i < s.usedPages) (hd : (s.pagePool i).dirty = true) :
    Counted (s.clean i) := by
  refine ⟨hc.ok.clean', ?_⟩
  have hadd : dirtyCount s = dirtyCount (s.clean i) + 1 := by
    refine dirtyCount_add rfl (hc.lt hi) ?_ hd fun j hj => ?_
    · rw [clean_pagePool, if_pos rfl]
    · rw [clean_pagePool, if_neg hj]
  have hdirty := hc.dirty
  show s.dirtyPages - 1 = _
  omega

theorem Counted.cleaned (hc : Counted s) (hi : i < s.usedPages) : Counted (cleaned ops s i) := by
  unfold PageCache.cleaned
  split_ifs with hd
  · obtain ⟨w, hw⟩ := writeBack_eq ops s i
    have hback : Counted (s.writeBack ops i).2 := hc.writeBack i
    rw [hw] at hback ⊢
    exact hback.clean hi hd
  · exact hc

theorem Counted.takes (hc : Counted s) (ht : Takes ops s i s₁) :
    s₁.dirtyPages = dirtyCount s₁ ∧ (s₁.pagePool i).dirty = false := by
  cases ht with
  | fresh hlt => exact ⟨hc.dirty, hc.ok.clean _ (Nat.le_refl _)⟩
  | evict hfull hlt href hsame =>
    rw [hsame.globals.dirtyPages, dirtyCount_congr hsame.globals.totalPages hsame.dirty, hsame.dirty,
      cleaned_pagePool, if_pos rfl]
    exact ⟨(hc.cleaned hlt).dirty, rfl⟩

/-- Getting a page keeps the count; a page that is not dirty in the cache is clean when it is got. -/
theorem Counted.get (hc : Counted s) (hread : ReadOk ops s k) :
    ∃ r s', pagecacheGet ops s k = some (r, s') ∧ Counted s' ∧
      ∀ page, r = some page → page < s'.usedPages ∧
        (s.CleanAt k → (s'.pagePool page).dirty = false) := by
  obtain ⟨r, s', hget, hg⟩ := get_spec ops hc.ok k
  refine ⟨r, s', hget, ?_⟩
  cases hg with
  | @hit i s' hlt hkey hsame hok =>
    have hmod : Counted (s.mod i fun p => { p with refCount := p.refCount + 1 }) :=
      hc.mod (fun _ => ⟨rfl, rfl, rfl⟩) (fun _ => rfl) (fun _ => rfl) fun _ => rfl
    refine ⟨hmod.congr hsame hok, ?_⟩
    rintro page ⟨⟩
    refine ⟨hsame.globals.usedPages.symm ▸ hlt, fun hclean => ?_⟩
    have hd : ∀ p : CachePage, { p with refCount := p.refCount + 1 }.dirty = p.dirty := fun _ => rfl
    rw [hsame.dirty, mod_dirty hd]
    exact hclean i (hc.lt hlt) ((hc.ok.valid i).mpr hlt) hkey
  | full hnew hfull href => exact ⟨⟨hc.ok.missed, hc.dirty⟩, fun page hpage => nomatch hpage⟩
  | @fill i s₁ s' hnew ht hbut hsame hok =>
    obtain ⟨hdirty, hclean⟩ := @Counted.takes _ _ _ _ _ ⟨hc.ok.missed, hc.dirty⟩ ht
    obtain ⟨-, -, -, hother, hused⟩ := @filled_spec _ ops s₁ i k hbut
    obtain ⟨-, hnot, htotal, hcount⟩ := @filled_self _ ops s₁ i k
    have hfield : ∀ j, ((filled ops s₁ i k).pagePool j).dirty = (s₁.pagePool j).dirty := by
      intro j
      by_cases hj : j = i
      · rw [hj, hnot, hclean]
      · rw [hother j hj]
    refine ⟨⟨hok, ?_⟩, ?_⟩
    · rw [hsame.globals.dirtyPages, dirtyCount_congr hsame.globals.totalPages hsame.dirty,
        dirtyCount_congr htotal hfield, hcount, hdirty]
    · rintro page ⟨⟩
      refine ⟨?_, fun _ => ?_⟩
      · rw [hsame.globals.usedPages, hused]
        exact hbut.lt
      · rw [hsame.dirty, hnot]
  | lost hfind htake hlost => exact absurd (hread _ _ hfind htake) hlost

theorem Counted.release (hc : Counted s) (page : ℕ) : Counted (pagecacheRelease s page) := by
  unfold pagecacheRelease
  split_ifs
  · exact hc.mod (fun _ => ⟨rfl, rfl, rfl⟩) (fun _ => rfl) (fun _ => rfl) fun _ => rfl
  · exact hc

/-- A clean page is written to or marked. -/
theorem Counted.mark (hc : Counted s) (hi : i < s.usedPages) (hd : (s.pagePool i).dirty = false)
    {f : CachePage → CachePage}
    (hf : ∀ p, (f p).lruNext = p.lruNext ∧ (f p).lruPrev = p.lruPrev ∧ (f p).hashNext = p.hashNext)
    (hk : ∀ p, (f p).key = p.key) (hv : ∀ p, (f p).valid = p.valid) (hfd : ∀ p, (f p).dirty = true) :
    Counted { s.mod i f with dirtyPages := s.dirtyPages + 1 } := by
  refine ⟨(hc.ok.mod hf hk hv (.inl hi)).globals .., ?_⟩
  have hadd : dirtyCount { s.mod i f with dirtyPages := s.dirtyPages + 1 } = dirtyCount s + 1 := by
    refine dirtyCount_add rfl (hc.lt hi) hd ?_ fun j hj => ?_
    · show ((s.mod i f).pagePool i).dirty = true
      rw [mod_self, hfd]
    · show ((s.mod i f).pagePool j).dirty = _
      rw [mod_ne hj]
  have hdirty := hc.dirty
  show s.dirtyPages + 1 = _
  omega

end Get

section Calls

variable {fsId inodeId pos : UInt64} {done remaining : ℕ}

/-- A loop over the pages of a request keeps the count if each round does. -/
theorem transfer_counted {α : Type*} (body : ℕ → ℕ → ℕ → ℕ → α × Cache σ → α × Cache σ)
    {ok : Cache σ → Key → Prop} {a : α} (hok : ∀ s k, ok s k → ReadOk ops s k)
    (hbody : ∀ s s' k page off done n a, Counted s → ok s k →
      pagecacheGet ops s k = some (some page, s') → Counted s' → page < s'.usedPages →
      (s.CleanAt k → (s'.pagePool page).dirty = false) →
      Counted (body page off done n (a, s')).2)
    (hc : Counted s) {fuel : ℕ}
    (hrounds : RoundsOk ops ok fsId inodeId body fuel pos done remaining (a, s)) :
    ∃ complete a' s', transfer ops fsId inodeId body fuel pos done remaining (a, s) =
      some (complete, a', s') ∧ Counted s' := by
  induction fuel generalizing s pos done remaining a with
  | zero => exact ⟨true, a, s, rfl, hc⟩
  | succ fuel ih =>
    unfold transfer
    split_ifs with hzero
    · exact ⟨true, a, s, rfl, hc⟩
    · obtain ⟨hround, hrest⟩ := hrounds hzero
      obtain ⟨r, s', hget, hc', hpage⟩ := hc.get (hok _ _ hround)
      rw [hget]
      cases r with
      | none => exact ⟨false, a, s', rfl, hc'⟩
      | some page =>
        obtain ⟨hlt, hclean⟩ := hpage page rfl
        have hc'' := hbody s s' _ page (pos.toNat % pageSize) done (toCopy pos remaining) a hc hround
          hget hc' hlt hclean
        exact ih (hc''.release page) (hrest page s' hget)

theorem readahead_counted {pageIndex : UInt64} {count i : ℕ} (hc : Counted s)
    (hok : ReadaheadOk ops fsId inodeId pageIndex count i s) :
    ∃ s', pagecacheReadahead ops fsId inodeId pageIndex count i s = some s' ∧ Counted s' := by
  induction count generalizing s i with
  | zero => exact ⟨s, rfl, hc⟩
  | succ count ih =>
    obtain ⟨hread, hrest⟩ := hok
    obtain ⟨r, s', hget, hc', hpage⟩ := hc.get hread
    unfold pagecacheReadahead
    rw [hget]
    cases r with
    | none => exact ⟨s', rfl, hc'⟩
    | some page => exact ih (hc'.release page) (hrest page s' hget)

theorem flush_counted (hc : Counted s) (hi : i < s.usedPages) (hd : (s.pagePool i).dirty = true) :
    Counted (flush ops s i).2 := by
  have hback : Counted (s.writeBack ops i).2 := hc.writeBack i
  unfold flush
  dsimp only
  split_ifs
  · obtain ⟨w, hw⟩ := writeBack_eq ops s i
    rw [hw] at hback ⊢
    exact hback.clean hi hd
  · exact hback

theorem flushLoop_counted {pick : CachePage → Bool} (hc : Counted s) (n i : ℕ) (count : ℤ) :
    Counted (flushLoop ops pick n i (count, s)).2 := by
  induction n generalizing s i count with
  | zero => exact hc
  | succ n ih =>
    unfold flushLoop
    dsimp only
    by_cases hcond : (s.pagePool i).valid = true ∧ (s.pagePool i).dirty = true ∧
        pick (s.pagePool i) = true ∧ ops.writePage.isSome = true
    · rw [if_pos hcond]
      exact ih (flush_counted hc ((hc.ok.valid i).mp hcond.1) hcond.2.1) _ _
    · rw [if_neg hcond]
      exact ih hc _ _

theorem Counted.used_of_dirty (hc : Counted s) (hd : (s.pagePool i).dirty = true) : i < s.usedPages := by
  by_contra hlt
  rw [hc.ok.clean i (Nat.le_of_not_lt hlt)] at hd
  exact Bool.false_ne_true hd

/-- Where nothing is picked the loop changes nothing. -/
theorem invalidateLoop_none {pick : Key → Bool} {n : ℕ} (hdrop : s.DropsNone pick) (hn : i + n ≤ s.totalPages) :
    invalidateLoop pick n i s = some s := by
  induction n generalizing i with
  | zero => rfl
  | succ n ih =>
    unfold invalidateLoop
    dsimp only
    rw [if_neg (hdrop i (by omega))]
    exact ih (by omega)

theorem invalidate_none {pick : Key → Bool} (hdrop : s.DropsNone pick) :
    invalidateLoop pick s.totalPages 0 s = some s := invalidateLoop_none hdrop (by omega)

theorem call_counted (hc : Counted s) {c : Call} (hok : CallOk ops s c) :
    ∃ r s', call ops s c = some (r, s') ∧ Counted s' := by
  cases c with
  | get k =>
    obtain ⟨r, s', hget, hc', -⟩ := hc.get hok
    simp only [call]
    rw [hget]
    exact ⟨_, _, rfl, hc'⟩
  | release page => exact ⟨_, _, rfl, hc.release page⟩
  | read fsId inodeId offset size =>
    simp only [call, pagecacheRead]
    by_cases hsize : size = 0
    · rw [if_pos hsize]
      exact ⟨_, _, rfl, hc⟩
    · rw [if_neg hsize]
      obtain ⟨complete, dst, s', hread, hc'⟩ := transfer_counted readBody
        (fun _ _ h => h) (fun s s' k page off done n a _ _ _ hc' _ _ => hc') hc hok
      rw [hread]
      exact ⟨_, _, rfl, hc'⟩
  | write fsId inodeId offset src size =>
    simp only [call, pagecacheWrite]
    by_cases hsize : size = 0
    · rw [if_pos hsize]
      exact ⟨_, _, rfl, hc⟩
    · rw [if_neg hsize]
      obtain ⟨complete, _, s', hwrite, hc'⟩ := transfer_counted (writeBody src)
        (fun _ _ h => h.1) (fun s s' k page off done n a _ hround _ hc' hlt hclean =>
          hc'.mark hlt (hclean hround.2) (fun _ => ⟨rfl, rfl, rfl⟩) (fun _ => rfl) (fun _ => rfl)
            fun _ => rfl) hc hok
      rw [hwrite]
      exact ⟨_, _, rfl, hc'⟩
  | readahead fsId inodeId pageIndex count =>
    obtain ⟨s', hs', hc'⟩ := readahead_counted hc hok
    exact ⟨.void, s', congrArg (Option.map fun s => (Result.void, s)) hs', hc'⟩
  | markDirty page =>
    refine ⟨_, _, rfl, ?_⟩
    unfold pagecacheMarkDirty
    split_ifs with hd
    · exact hc
    · exact hc.mark ((hc.ok.valid page).mp hok) (by simpa using hd) (fun _ => ⟨rfl, rfl, rfl⟩)
        (fun _ => rfl) (fun _ => rfl) fun _ => rfl
  | flushPage page =>
    refine ⟨_, _, rfl, ?_⟩
    unfold pagecacheFlushPage
    split_ifs with hcond
    · exact flush_counted hc (hc.used_of_dirty hcond.1) hcond.1
    · exact hc
  | flushInode fsId inodeId => exact ⟨_, _, rfl, flushLoop_counted hc _ _ _⟩
  | flushAll => exact ⟨_, _, rfl, flushLoop_counted hc _ _ _⟩
  | invalidate fsId inodeId =>
    exact ⟨.void, s, congrArg (Option.map fun s => (Result.void, s)) (invalidate_none hok), hc⟩
  | invalidateRange fsId inodeId start «end» =>
    exact ⟨.void, s, congrArg (Option.map fun s => (Result.void, s)) (invalidate_none hok), hc⟩
  | truncate fsId inodeId newSize =>
    exact ⟨.void, s, congrArg (Option.map fun s => (Result.void, s)) (invalidate_none hok), hc⟩

theorem Counted.sound (hc : Counted s) : Sound ops s := by
  have hmem : ∀ i, i < s.usedPages ↔ i < s.totalPages ∧ (s.pagePool i).valid = true := by
    intro i
    rw [hc.ok.valid]
    exact ⟨fun hi => ⟨hc.lt hi, hi⟩, And.right⟩
  refine ⟨?_, ?_, fun b => ?_, fun k hnew hread hfree => ?_⟩
  · rw [hc.dirty]
    unfold dirtyCount
    congr 2
    refine Finset.filter_congr fun i _ => ?_
    exact ⟨fun hd => ⟨(hc.ok.valid i).mpr (hc.used_of_dirty hd), hd⟩, And.right⟩
  · obtain ⟨l, hl, hmeml⟩ := hc.ok.listed.lru
    exact ⟨l, hl, fun i => (hmeml i).trans (hmem i)⟩
  · obtain ⟨c, hc', hnd, hmemc⟩ := hc.ok.listed.chains b
    exact ⟨c, hc', hnd, fun i => (hmemc i).trans (and_congr_left fun _ => hmem i)⟩
  · obtain ⟨r, s', hget, hg⟩ := get_spec ops hc.ok k
    cases hg with
    | hit hlt hkey => exact ⟨_, _, hget⟩
    | fill => exact ⟨_, _, hget⟩
    | lost hfind htake hlost => exact absurd (hread _ _ hfind htake) hlost
    | full hnew' hfull href =>
      refine absurd hfree (Nat.not_lt.mpr (Nat.le_of_eq ?_))
      rw [Finset.filter_true_of_mem, Finset.card_range]
      intro i hi
      exact href i (hfull ▸ Finset.mem_range.mp hi)

end Calls

/-- In every run whose calls meet the condition the counters and lists are right, no page is lost, and
the next call that meets it returns. -/
theorem pagecache_sound {maxPages : ℕ} (data : ℕ → Page) (w : σ)
    (hr : Run.Reach (step ops) (CallOk ops) (pagecacheInit maxPages data w) s) :
    Sound ops s ∧ ∀ c, CallOk ops s c → ∃ r s', call ops s c = some (r, s') := by
  have hinit : Counted (pagecacheInit maxPages data w) := by
    refine ⟨init_ok maxPages data w, ?_⟩
    have hzero : dirtyCount (pagecacheInit maxPages data w) = 0 :=
      Finset.card_eq_zero.mpr (Finset.filter_false_of_mem fun i _ => Bool.false_ne_true)
    rw [hzero]
    rfl
  have hc : Counted s := hr.invariant hinit fun s c t hs hok hstep => by
    obtain ⟨r, s', hcall, hs'⟩ := call_counted hs hok
    unfold step at hstep
    rw [hcall] at hstep
    exact Option.some_inj.mp hstep ▸ hs'
  refine ⟨hc.sound, fun c hok => ?_⟩
  obtain ⟨r, s', hcall, -⟩ := call_counted hc hok
  exact ⟨r, s', hcall⟩

/-- After a byte is written. -/
theorem pagecache_sound_write : ∃ s, Run.run (step memOps) (pagecacheInit 2 (fun _ _ => 0) fun _ _ => 0)
    [.write 0 1 0 (fun _ => 7) 1] = some s ∧
    (Sound memOps s ∧ ∀ c, CallOk memOps s c → ∃ r s', call memOps s c = some (r, s')) := by
  have hcall : (step memOps (pagecacheInit 2 (fun _ _ => 0) fun _ _ => 0)
      (.write 0 1 0 (fun _ => 7) 1)).isSome := by decide +kernel
  obtain ⟨s, hs⟩ := Option.isSome_iff_exists.mp hcall
  refine ⟨s, ?_, @pagecache_sound _ s memOps 2 (fun _ _ => 0) (fun _ _ => 0) (.step _ .start ?_ hs)⟩
  · rw [Run.run_cons hs]
    rfl
  · exact fun _ => ⟨⟨fun _ _ _ _ => rfl, fun _ _ hv => absurd hv Bool.false_ne_true⟩,
      fun _ _ _ => trivial⟩

/-- A page that is written twice is counted twice. -/
theorem second_write_counted_twice : ¬ ∀ (maxPages : ℕ) (cs : List Call) (s : Cache (Key → Page)),
    Run.run (step memOps) (pagecacheInit maxPages (fun _ _ => 0) fun _ _ => 0) cs = some s →
    Sound memOps s := by
  intro hall
  let cs : List Call := [.write 0 1 0 (fun _ => 7) 1, .write 0 1 1 (fun _ => 7) 1]
  let run := Run.run (step memOps) (pagecacheInit 1 (fun _ _ => 0) fun _ _ => 0) cs
  have hdirty : run.map (·.dirtyPages) = some 2 := by decide +kernel
  have htotal : run.map (·.totalPages) = some 1 := by decide +kernel
  cases hrun : run with
  | none =>
    rw [hrun] at hdirty
    cases hdirty
  | some s =>
    rw [hrun] at hdirty htotal
    have hs := (hall 1 cs s hrun).dirty
    have hdirty' : s.dirtyPages = 2 := Option.some_inj.mp hdirty
    have htotal' : s.totalPages = 1 := Option.some_inj.mp htotal
    rw [hdirty', htotal'] at hs
    have hle : ((Finset.range 1).filter fun i =>
      (s.pagePool i).valid = true ∧ (s.pagePool i).dirty = true).card ≤ 1 := Finset.card_filter_le _ _
    omega

end PageCache
