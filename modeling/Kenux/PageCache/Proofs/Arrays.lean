import Kenux.PageCache.Proofs.Get

/-!
# The cache refines byte arrays

A page in the cache has the bytes of the array, and the store has those of every page that is not dirty
in the cache. Evictions in the middle of a request keep this, so each round of a read or a write sees and
changes the array where it should.
-/

namespace PageCache

variable {σ : Type*} {s s' s₁ : Cache σ} {M M' : ℕ → Prop} {i j page : ℕ} {k : Key} {ops : Ops σ}
  {A A' : Arrays}

section Holds

/-- The pages in `M` and the store hold the arrays. -/
structure Holds (contents : σ → Key → Page) (s : Cache σ) (M : ℕ → Prop) (A : Arrays) : Prop where
  cached : ∀ i, M i → (s.pagePool i).data = pageOf A (s.pagePool i).key
  stored : ∀ k, (∀ i, M i → (s.pagePool i).key = k → (s.pagePool i).dirty = false) →
    contents s.world k = pageOf A k

theorem Holds.congr {contents : σ → Key → Page} (h : Holds contents s M A) (hs : SameInfo s s')
    (hM : ∀ i, M' i ↔ M i) : Holds contents s' M' A := by
  constructor
  · intro i hi
    rw [hs.data, hs.key]
    exact h.cached i ((hM i).mp hi)
  · intro k hk
    rw [hs.globals.world]
    refine h.stored k fun i hi hkey => ?_
    rw [← hs.dirty]
    exact hk i ((hM i).mpr hi) ((hs.key i).trans hkey)

theorem Holds.mod {contents : σ → Key → Page} {f : CachePage → CachePage} (h : Holds contents s M A)
    (hf : ∀ p, (f p).data = p.data ∧ (f p).key = p.key ∧ (f p).dirty = p.dirty) :
    Holds contents (s.mod i f) M A := by
  have hfield : ∀ j, ((s.mod i f).pagePool j).data = (s.pagePool j).data ∧
      ((s.mod i f).pagePool j).key = (s.pagePool j).key ∧
      ((s.mod i f).pagePool j).dirty = (s.pagePool j).dirty := by
    intro j
    rw [mod_pagePool]
    split_ifs
    · exact hf _
    · exact ⟨rfl, rfl, rfl⟩
  constructor
  · intro j hj
    rw [(hfield j).1, (hfield j).2.1]
    exact h.cached j hj
  · intro k hk
    refine h.stored k fun j hj hjk => ?_
    rw [← (hfield j).2.2]
    exact hk j hj ((hfield j).2.1.trans hjk)

variable (h : ReadsBack ops)

include h in
theorem cleaned_contents (i : ℕ) (hd : (s.pagePool i).dirty = true) :
    h.contents (cleaned ops s i).world =
      Function.update (h.contents s.world) (s.pagePool i).key (s.pagePool i).data := by
  unfold cleaned Cache.writeBack
  rw [if_pos hd, h.write_eq]
  exact h.write_data ..

/-- Writing a page back keeps the arrays. -/
theorem Holds.cleaned (hh : Holds h.contents s M A) (hi : M i) :
    Holds h.contents (cleaned ops s i) M A := by
  have hkey : ∀ j, ((PageCache.cleaned ops s i).pagePool j).key = (s.pagePool j).key := by
    intro j
    rw [cleaned_pagePool]
    split_ifs <;> rfl
  constructor
  · intro j hj
    rw [hkey, cleaned_pagePool]
    rw [show (if j = i then { s.pagePool j with dirty := false } else s.pagePool j).data =
      (s.pagePool j).data by split_ifs <;> rfl]
    exact hh.cached j hj
  · intro k hk
    by_cases hd : (s.pagePool i).dirty = true
    · rw [cleaned_contents h i hd]
      by_cases hki : k = (s.pagePool i).key
      · rw [hki, Function.update_self]
        exact hh.cached i hi
      · rw [Function.update_of_ne hki]
        refine hh.stored k fun j hj hjk => ?_
        have hji : j ≠ i := fun heq => hki (heq ▸ hjk).symm
        have hclean := hk j hj ((hkey j).trans hjk)
        rwa [cleaned_pagePool, if_neg hji] at hclean
    · have hsame : PageCache.cleaned ops s i = s := if_neg hd
      rw [hsame] at hk ⊢
      exact hh.stored k hk

theorem Holds.takes (hh : Holds h.contents s (fun j => j < s.usedPages) A) (ht : Takes ops s i s₁) :
    Holds h.contents s₁ (fun j => j < s₁.usedPages ∧ j ≠ i) A := by
  cases ht with
  | fresh hlt =>
    have hM : ∀ j, (j < s.usedPages + 1 ∧ j ≠ s.usedPages) ↔ j < s.usedPages := fun j => by omega
    exact ⟨fun j hj => hh.cached j ((hM j).mp hj),
      fun k hk => hh.stored k fun j hj => hk j ((hM j).mpr hj)⟩
  | evict hfull hlt href hsame =>
    have hclean := hh.cleaned h hlt
    have hused := hsame.globals.usedPages.trans cleaned_usedPages
    have hbut : Holds h.contents (PageCache.cleaned ops s i) (fun j => j < s.usedPages ∧ j ≠ i) A := by
      refine ⟨fun j hj => hclean.cached j hj.1, fun k hk => hclean.stored k fun j hj hjk => ?_⟩
      by_cases hji : j = i
      · rw [hji, cleaned_pagePool, if_pos rfl]
      · exact hk j ⟨hj, hji⟩ hjk
    exact hbut.congr hsame fun j => by rw [hused]

/-- Reading a page in gives it the bytes of the array. -/
theorem Holds.filled (hh : Holds h.contents s₁ (fun j => j < s₁.usedPages ∧ j ≠ i) A)
    (hbut : OkBut s₁ i) (hnew : ∀ j, j < s₁.usedPages → j ≠ i → (s₁.pagePool j).key ≠ k) :
    Holds h.contents (filled ops s₁ i k) (fun j => j < (filled ops s₁ i k).usedPages) A := by
  obtain ⟨-, hkey, -, hother, hused⟩ := @filled_spec _ ops s₁ i k hbut
  have hstored : h.contents s₁.world k = pageOf A k :=
    hh.stored k fun j hj hjk => absurd hjk (hnew j hj.1 hj.2)
  have hself : (s₁.claim i k).pagePool i = { s₁.pagePool i with
      key := k, refCount := 1, dirty := false, valid := true } := mod_self
  have hdata : ((PageCache.filled ops s₁ i k).pagePool i).data = h.contents s₁.world k := by
    unfold PageCache.filled readIn
    rw [h.read_eq]
    show (((s₁.claim i k).mod i fun p => { p with data := _ }).pagePool i).data = _
    rw [mod_self, h.read_data, hself]
    rfl
  have hworld : h.contents (PageCache.filled ops s₁ i k).world = h.contents s₁.world := by
    unfold PageCache.filled readIn
    rw [h.read_eq]
    exact h.read_same ..
  constructor
  · intro j hj
    by_cases hji : j = i
    · rw [hji, hdata, hkey, hstored]
    · rw [hother j hji]
      exact hh.cached j ⟨hused ▸ hj, hji⟩
  · intro k' hk'
    rw [hworld]
    refine hh.stored k' fun j hj hjk => ?_
    rw [← hother j hj.2] at hjk ⊢
    exact hk' j (hused ▸ hj.1) hjk

end Holds

section Rounds

variable (h : ReadsBack ops)

/-- A cache between two calls. -/
structure Ready (s : Cache σ) (A : Arrays) : Prop where
  ok : CacheOk s
  holds : Holds h.contents s (fun i => i < s.usedPages) A
  free : ∀ i < s.usedPages, (s.pagePool i).refCount = 0
  pos : 1 ≤ s.totalPages

/-- A cache in a round of a read or a write: `page` has been got for `k`. -/
structure AtPage (s : Cache σ) (A : Arrays) (page : ℕ) (k : Key) : Prop where
  ok : CacheOk s
  holds : Holds h.contents s (fun i => i < s.usedPages) A
  lt : page < s.usedPages
  key : (s.pagePool page).key = k
  held : (s.pagePool page).refCount = 1
  free : ∀ i < s.usedPages, i ≠ page → (s.pagePool i).refCount = 0
  pos : 1 ≤ s.totalPages

/-- Every page can be got. -/
theorem Ready.get (hr : Ready h s A) (k : Key) :
    ∃ i s', pagecacheGet ops s k = some (some i, s') ∧ AtPage h s' A i k := by
  obtain ⟨r, s', hget, hg⟩ := get_spec ops hr.ok k
  cases hg with
  | @hit i s' hlt hkey hsame hok =>
    have hused := hsame.globals.usedPages
    have hmod : Holds h.contents (s.mod i fun p => { p with refCount := p.refCount + 1 })
        (fun j => j < s.usedPages) A := hr.holds.mod fun _ => ⟨rfl, rfl, rfl⟩
    refine ⟨i, s', hget, hok, hmod.congr hsame fun j => by rw [hused]; rfl, hused ▸ hlt, ?_, ?_,
      fun j hj hne => ?_, ?_⟩
    · rw [hsame.key, mod_self]
      exact hkey
    · rw [hsame.refCount, mod_self]
      exact congrArg (· + 1) (hr.free i hlt)
    · rw [hsame.refCount, mod_ne hne]
      exact hr.free j (hused ▸ hj)
    · rw [hsame.globals.totalPages]
      exact hr.pos
  | full hnew hfull href =>
    have hpos := hr.pos
    exact absurd (hr.free 0 (by omega)) (href 0 (by omega))
  | @fill i s₁ s' hnew ht hbut hsame hok =>
    have hmissed : Holds h.contents s.missed (fun j => j < s.missed.usedPages) A :=
      ⟨hr.holds.cached, hr.holds.stored⟩
    have hnew' : ∀ j, j < s₁.usedPages → j ≠ i → (s₁.pagePool j).key ≠ k := by
      intro j hj hne
      rw [ht.key]
      exact hnew j (ht.lt_used hj hne)
    obtain ⟨-, hkey, -, hother, hused⟩ := @filled_spec _ ops s₁ i k hbut
    obtain ⟨hone, -, htotal, -⟩ := @filled_self _ ops s₁ i k
    have hused' := hsame.globals.usedPages
    have hfill := (hmissed.takes h ht).filled h hbut hnew'
    refine ⟨i, s', hget, hok, hfill.congr hsame fun j => by rw [hused'], ?_, ?_, ?_,
      fun j hj hne => ?_, ?_⟩
    · rw [hused', hused]
      exact hbut.lt
    · rw [hsame.key, hkey]
    · rw [hsame.refCount, hone]
    · rw [hsame.refCount, hother j hne, takes_refCount ht hne]
      exact hr.free j (ht.lt_used (hused ▸ hused' ▸ hj) hne)
    · rw [hsame.globals.totalPages, htotal, takes_totalPages ht]
      exact hr.pos
  | lost hfind htake hread =>
    rw [readIn, h.read_eq] at hread
    exact absurd (h.read_ok ..) hread

/-- A page that was got is given back. -/
theorem AtPage.release (ha : AtPage h s A page k) : Ready h (pagecacheRelease s page) A := by
  have hrel : pagecacheRelease s page = s.mod page fun p => { p with refCount := p.refCount - 1 } :=
    if_pos (by rw [ha.held]; exact Nat.one_pos)
  rw [hrel]
  refine ⟨ha.ok.mod (fun _ => ⟨rfl, rfl, rfl⟩) (fun _ => rfl) (fun _ => rfl) (.inl ha.lt),
    ha.holds.mod fun _ => ⟨rfl, rfl, rfl⟩, fun j hj => ?_, ha.pos⟩
  rw [mod_pagePool]
  split_ifs with hji
  · rw [hji]
    exact congrArg (· - 1) ha.held
  · exact ha.free j hj hji

/-- A page that was got is written to. -/
theorem AtPage.write (ha : AtPage h s A page k) (src : ℕ → UInt8) (off done n : ℕ)
    (hA : ∀ k', pageOf A' k' = if k' = k then
      (pageOf A k).copyIn off n fun j => src (done + j) else pageOf A k') :
    AtPage h (writeBody src page off done n ((), s)).2 A' page k := by
  have hdata := ha.holds.cached page ha.lt
  rw [ha.key] at hdata
  have hself : (writeBody src page off done n ((), s)).2.pagePool page =
      { s.pagePool page with
        data := (s.pagePool page).data.copyIn off n fun j => src (done + j), dirty := true } := by
    show (s.mod page fun p => { p with
      data := p.data.copyIn off n fun j => src (done + j), dirty := true }).pagePool page = _
    rw [mod_self]
  have hother : ∀ j, j ≠ page →
      (writeBody src page off done n ((), s)).2.pagePool j = s.pagePool j := by
    intro j hj
    show (s.mod page fun p => { p with
      data := p.data.copyIn off n fun j => src (done + j), dirty := true }).pagePool j = _
    rw [mod_ne hj]
  have hmod : CacheOk (s.mod page fun p =>
      { p with data := p.data.copyIn off n fun j => src (done + j), dirty := true }) :=
    ha.ok.mod (fun _ => ⟨rfl, rfl, rfl⟩) (fun _ => rfl) (fun _ => rfl) (.inl ha.lt)
  refine ⟨hmod.globals .., ⟨fun j hj => ?_, fun k' hk' => ?_⟩, ha.lt, ?_, ?_, fun j hj hne => ?_, ha.pos⟩
  · by_cases hjp : j = page
    · rw [hjp, hself, hA]
      show _ = if (s.pagePool page).key = k then _ else _
      rw [if_pos ha.key, ← hdata]
    · have hkey : (s.pagePool j).key ≠ k := fun heq =>
        hjp (ha.ok.keys j page hj ha.lt (heq.trans ha.key.symm))
      rw [hother j hjp, hA, if_neg hkey]
      exact ha.holds.cached j hj
  · by_cases hkk : k' = k
    · have hclean := hk' page ha.lt (by rw [hself, hkk]; exact ha.key)
      rw [hself] at hclean
      exact absurd hclean Bool.true_eq_false.mp
    · rw [hA, if_neg hkk]
      refine ha.holds.stored k' fun j hj hjk => ?_
      have hjp : j ≠ page := fun heq => hkk (hjk.symm.trans (heq ▸ ha.key))
      rw [← hother j hjp]
      exact hk' j hj (by rw [hother j hjp]; exact hjk)
  · rw [hself]
    exact ha.key
  · rw [hself]
    exact ha.held
  · rw [hother j hne]
    exact ha.free j hj hne

end Rounds

section Positions

variable {fsId inodeId offset pos : UInt64} {src : ℕ → UInt8} {done n remaining : ℕ}

theorem writeBytes_zero (A : Arrays) : writeBytes A fsId inodeId offset src 0 = A := by
  funext fsId' inodeId' p
  exact if_neg fun hand => absurd hand.2.2.2 (Nat.not_lt_zero _)

theorem toCopy_spec (pos : UInt64) (h : remaining ≠ 0) : 0 < toCopy pos remaining ∧
    toCopy pos remaining ≤ remaining ∧ pos.toNat % pageSize + toCopy pos remaining ≤ pageSize := by
  have hmod : pos.toNat % pageSize < pageSize := Nat.mod_lt _ (by decide)
  unfold toCopy
  omega

theorem toNat_add_ofNat (hn : pos.toNat % pageSize + n ≤ pageSize) {j : ℕ} (hj : j < n) :
    (pos + UInt64.ofNat j).toNat = pos.toNat + j := by
  have hpos := UInt64.toNat_lt pos
  unfold pageSize at hn
  rw [UInt64.toNat_add, UInt64.toNat_ofNat']
  omega

theorem slice_pageOf (A : Arrays) (hn : pos.toNat % pageSize + n ≤ pageSize) :
    (pageOf A (keyAt fsId inodeId pos)).slice (pos.toNat % pageSize) n =
      readBytes A fsId inodeId pos n := by
  refine List.map_congr_left fun j hj => ?_
  have hj' := List.mem_range.mp hj
  have hdiv : (pos / 4096).toNat = pos.toNat / pageSize := UInt64.toNat_div ..
  have hlt : pos.toNat % pageSize + j < pageSize := by omega
  rw [toNat_add_ofNat hn hj']
  show A fsId inodeId ((pos / 4096).toNat * pageSize + (pos.toNat % pageSize + j) % pageSize) = _
  rw [hdiv, Nat.mod_eq_of_lt hlt]
  congr 1
  have := Nat.div_add_mod pos.toNat pageSize
  unfold pageSize at this ⊢
  omega

theorem readBytes_add (A : Arrays) (a b : ℕ) : readBytes A fsId inodeId offset (a + b) =
    readBytes A fsId inodeId offset a ++ readBytes A fsId inodeId (offset + UInt64.ofNat a) b := by
  unfold readBytes
  rw [List.range_add, List.map_append, List.map_map]
  congr 1
  refine List.map_congr_left fun j _ => ?_
  show A fsId inodeId (offset + UInt64.ofNat (a + j)).toNat = _
  rw [UInt64.ofNat_add, UInt64.add_assoc]

/-- The bytes between `done` and `done + n` of a request go to the `n` positions from `pos` on. -/
theorem distance_iff (hpos : pos = offset + UInt64.ofNat done)
    (hn : pos.toNat % pageSize + n ≤ pageSize) (hsize : done + n < 2 ^ 64) {p : ℕ} (hp : p < 2 ^ 64) :
    (done ≤ (UInt64.ofNat p - offset).toNat ∧ (UInt64.ofNat p - offset).toNat < done + n ↔
      pos.toNat ≤ p ∧ p < pos.toNat + n) ∧
    (pos.toNat ≤ p → p < pos.toNat + n → (UInt64.ofNat p - offset).toNat = done + (p - pos.toNat)) := by
  have ho := UInt64.toNat_lt offset
  have hpos' : pos.toNat = (offset.toNat + done) % 2 ^ 64 := by
    rw [hpos, UInt64.toNat_add, UInt64.toNat_ofNat']
    omega
  have hd : (UInt64.ofNat p - offset).toNat = (p + 2 ^ 64 - offset.toNat) % 2 ^ 64 := by
    rw [UInt64.toNat_sub, UInt64.toNat_ofNat']
    omega
  unfold pageSize at hn
  rw [hd]
  omega

/-- What the next `n` bytes of a write make of each page. -/
theorem pageOf_writeBytes (A : Arrays) (hpos : pos = offset + UInt64.ofNat done)
    (hn : pos.toNat % pageSize + n ≤ pageSize) (hsize : done + n < 2 ^ 64) (k : Key) :
    pageOf (writeBytes A fsId inodeId offset src (done + n)) k =
      if k = keyAt fsId inodeId pos then
        (pageOf (writeBytes A fsId inodeId offset src done) (keyAt fsId inodeId pos)).copyIn
          (pos.toNat % pageSize) n fun j => src (done + j)
      else pageOf (writeBytes A fsId inodeId offset src done) k := by
  have hdiv : (pos / 4096).toNat = pos.toNat / pageSize := UInt64.toNat_div ..
  have hmod := Nat.div_add_mod pos.toNat pageSize
  have hlt := UInt64.toNat_lt pos
  by_cases hk : k = keyAt fsId inodeId pos
  · rw [if_pos hk, hk]
    funext o
    have ho := o.isLt
    -- the position of byte `o` of the page
    have hp : pos.toNat / pageSize * pageSize + o < 2 ^ 64 := by
      unfold pageSize at *
      omega
    obtain ⟨hiff, hdist⟩ := distance_iff hpos hn hsize hp
    show writeBytes A fsId inodeId offset src (done + n) fsId inodeId
        ((pos / 4096).toNat * pageSize + o) = if _ then _ else
        writeBytes A fsId inodeId offset src done fsId inodeId ((pos / 4096).toNat * pageSize + o)
    rw [hdiv]
    unfold writeBytes
    dsimp only
    by_cases hin : pos.toNat % pageSize ≤ o ∧ (o : ℕ) < pos.toNat % pageSize + n
    · have hrange : pos.toNat ≤ pos.toNat / pageSize * pageSize + o ∧
          pos.toNat / pageSize * pageSize + o < pos.toNat + n := by
        rw [Nat.mul_comm]
        omega
      have hd := hdist hrange.1 hrange.2
      rw [if_pos hin, if_pos ⟨rfl, rfl, hp, (hiff.mpr hrange).2⟩, hd]
      congr 1
      rw [Nat.mul_comm]
      omega
    · have hrange : ¬(pos.toNat ≤ pos.toNat / pageSize * pageSize + o ∧
          pos.toNat / pageSize * pageSize + o < pos.toNat + n) := by
        rw [Nat.mul_comm]
        omega
      have hcond : (UInt64.ofNat (pos.toNat / pageSize * pageSize + o) - offset).toNat < done + n ↔
          (UInt64.ofNat (pos.toNat / pageSize * pageSize + o) - offset).toNat < done := by
        rw [← hiff] at hrange
        omega
      rw [if_neg hin]
      simp only [hcond]
  · rw [if_neg hk]
    funext o
    have ho := o.isLt
    unfold pageOf writeBytes
    dsimp only
    by_cases hsame : k.fsId = fsId ∧ k.inodeId = inodeId ∧ k.pageIndex.toNat * pageSize + o < 2 ^ 64
    · obtain ⟨hfs, hino, hp⟩ := hsame
      obtain ⟨hiff, -⟩ := distance_iff hpos hn hsize hp
      have hidx : k.pageIndex.toNat ≠ pos.toNat / pageSize := by
        intro heq
        refine hk ?_
        have hidx : k.pageIndex = pos / 4096 := UInt64.toNat_inj.mp (heq.trans hdiv.symm)
        unfold keyAt
        rw [← hfs, ← hino, ← hidx]
      have hrange : ¬(pos.toNat ≤ k.pageIndex.toNat * pageSize + o ∧
          k.pageIndex.toNat * pageSize + o < pos.toNat + n) := by
        unfold pageSize at *
        omega
      have hcond : (UInt64.ofNat (k.pageIndex.toNat * pageSize + o) - offset).toNat < done + n ↔
          (UInt64.ofNat (k.pageIndex.toNat * pageSize + o) - offset).toNat < done := by
        rw [← hiff] at hrange
        omega
      simp only [hcond]
    · rw [if_neg fun hand => hsame ⟨hand.1, hand.2.1, hand.2.2.1⟩,
        if_neg fun hand => hsame ⟨hand.1, hand.2.1, hand.2.2.1⟩]

end Positions

section Requests

variable (h : ReadsBack ops) {fsId inodeId offset pos : UInt64} {src : ℕ → UInt8} {done n remaining : ℕ}

theorem transfer_read (hr : Ready h s A) {fuel : ℕ} (hf : remaining ≤ fuel) (dst : List UInt8) :
    ∃ s', transfer ops fsId inodeId readBody fuel pos done remaining (dst, s) =
      some (true, dst ++ readBytes A fsId inodeId pos remaining, s') ∧ Ready h s' A := by
  induction fuel generalizing s pos done remaining dst with
  | zero =>
    obtain rfl : remaining = 0 := by omega
    exact ⟨s, by rw [readBytes, List.range_zero, List.map_nil, List.append_nil]; rfl, hr⟩
  | succ fuel ih =>
    unfold transfer
    split_ifs with hzero
    · rw [hzero]
      exact ⟨s, by rw [readBytes, List.range_zero, List.map_nil, List.append_nil], hr⟩
    · obtain ⟨hpos, hle, hpage⟩ := toCopy_spec pos hzero
      obtain ⟨page, s₁, hget, hat⟩ := hr.get h (keyAt fsId inodeId pos)
      have hdata := hat.holds.cached page hat.lt
      rw [hat.key] at hdata
      obtain ⟨s', hrest, hr'⟩ := @ih (pagecacheRelease s₁ page) (pos + UInt64.ofNat (toCopy pos remaining))
        (done + toCopy pos remaining) (remaining - toCopy pos remaining) (hat.release h) (by omega)
        (dst ++ (s₁.pagePool page).data.slice (pos.toNat % pageSize) (toCopy pos remaining))
      refine ⟨s', ?_, hr'⟩
      rw [hget]
      dsimp only [readBody]
      rw [hrest, hdata, slice_pageOf A hpage, List.append_assoc, ← readBytes_add, Nat.add_sub_cancel' hle]

theorem transfer_write (hr : Ready h s (writeBytes A fsId inodeId offset src done))
    (hpos : pos = offset + UInt64.ofNat done) (hsize : done + remaining < 2 ^ 64) {fuel : ℕ}
    (hf : remaining ≤ fuel) :
    ∃ s', transfer ops fsId inodeId (writeBody src) fuel pos done remaining ((), s) =
      some (true, (), s') ∧ Ready h s' (writeBytes A fsId inodeId offset src (done + remaining)) := by
  induction fuel generalizing s pos done remaining with
  | zero =>
    obtain rfl : remaining = 0 := by omega
    exact ⟨s, rfl, hr⟩
  | succ fuel ih =>
    unfold transfer
    split_ifs with hzero
    · rw [hzero]
      exact ⟨s, rfl, hr⟩
    · obtain ⟨hcopy, hle, hpage⟩ := toCopy_spec pos hzero
      obtain ⟨page, s₁, hget, hat⟩ := hr.get h (keyAt fsId inodeId pos)
      have hwrite := hat.write h src (pos.toNat % pageSize) done (toCopy pos remaining)
        fun k' => pageOf_writeBytes A hpos hpage (by omega) k'
      have hnext : pos + UInt64.ofNat (toCopy pos remaining) =
          offset + UInt64.ofNat (done + toCopy pos remaining) := by
        rw [hpos, UInt64.ofNat_add, UInt64.add_assoc]
      obtain ⟨s', hrest, hr'⟩ := ih (hwrite.release h) hnext
        (show done + toCopy pos remaining + (remaining - toCopy pos remaining) < 2 ^ 64 by omega)
        (by omega)
      refine ⟨s', ?_, ?_⟩
      · rw [hget]
        exact hrest
      · rw [Nat.add_assoc, Nat.add_sub_cancel' hle] at hr'
        exact hr'

theorem readahead_ready (hr : Ready h s A) (pageIndex : UInt64) (count i : ℕ) :
    ∃ s', pagecacheReadahead ops fsId inodeId pageIndex count i s = some s' ∧ Ready h s' A := by
  induction count generalizing s i with
  | zero => exact ⟨s, rfl, hr⟩
  | succ count ih =>
    unfold pagecacheReadahead
    obtain ⟨page, s₁, hget, hat⟩ := hr.get h ⟨fsId, inodeId, pageIndex + UInt64.ofNat i⟩
    obtain ⟨s', hrest, hr'⟩ := ih (hat.release h) (i + 1)
    refine ⟨s', ?_, hr'⟩
    rw [hget]
    exact hrest

end Requests

section Flush

variable (h : ReadsBack ops)

include h in
theorem flush_eq (hd : (s.pagePool page).dirty = true) : flush ops s page = (0, cleaned ops s page) := by
  have hzero : (s.writeBack ops page).1 = 0 := by
    unfold Cache.writeBack
    rw [h.write_eq]
    exact h.write_ok ..
  unfold flush cleaned
  dsimp only
  rw [hzero, if_pos rfl, if_pos hd]

theorem Ready.cleaned (hr : Ready h s A) (hp : page < s.usedPages) : Ready h (cleaned ops s page) A := by
  have hused : (PageCache.cleaned ops s page).usedPages = s.usedPages := cleaned_usedPages
  have hholds := hr.holds.cleaned h hp
  refine ⟨hr.ok.cleaned ops page, ⟨fun j hj => hholds.cached j (hused ▸ hj), fun k hk => ?_⟩,
    fun j hj => ?_, ?_⟩
  · exact hholds.stored k fun j hj => hk j (hused.symm ▸ hj)
  · rw [cleaned_pagePool]
    have hfree := hr.free j (hused ▸ hj)
    split_ifs
    · exact hfree
    · exact hfree
  · rw [cleaned_totalPages]
    exact hr.pos

/-- The loop over the pool keeps the arrays, makes no page dirty and cleans the pages it is about. -/
theorem flushLoop_spec {pick : CachePage → Bool} (hr : Ready h s A) (n i : ℕ) (count : ℤ) :
    Ready h (flushLoop ops pick n i (count, s)).2 A ∧
      (∀ j, (s.pagePool j).dirty = false →
        ((flushLoop ops pick n i (count, s)).2.pagePool j).dirty = false) ∧
      ((∀ p, pick p = true) → ∀ j, i ≤ j → j < i + n →
        ((flushLoop ops pick n i (count, s)).2.pagePool j).dirty = false) := by
  induction n generalizing s i count with
  | zero => exact ⟨hr, fun _ hj => hj, fun _ j hij hji => absurd hji (by omega)⟩
  | succ n ih =>
    unfold flushLoop
    dsimp only
    by_cases hcond : (s.pagePool i).valid = true ∧ (s.pagePool i).dirty = true ∧
        pick (s.pagePool i) = true ∧ ops.writePage.isSome = true
    · rw [if_pos hcond]
      obtain ⟨hvalid, hdirty, -, -⟩ := hcond
      rw [flush_eq h hdirty]
      dsimp only
      have hstep := hr.cleaned h ((hr.ok.valid i).mp hvalid)
      obtain ⟨hready, hclean, hall⟩ := ih hstep (i + 1) (if (0 : ℤ) = 0 then count + 1 else count)
      refine ⟨hready, fun j hj => hclean j ?_, fun hpick j hij hji => ?_⟩
      · rw [cleaned_pagePool]
        split_ifs
        · rfl
        · exact hj
      · by_cases hj : j = i
        · exact hclean j (by rw [hj, cleaned_pagePool, if_pos rfl])
        · exact hall hpick j (by omega) (by omega)
    · rw [if_neg hcond]
      obtain ⟨hready, hclean, hall⟩ := ih hr (i + 1) count
      refine ⟨hready, hclean, fun hpick j hij hji => ?_⟩
      by_cases hj : j = i
      · refine hclean j ?_
        rw [hj]
        by_contra hdirty
        have hdirty' : (s.pagePool i).dirty = true := Bool.eq_true_of_not_eq_false hdirty
        have hvalid : (s.pagePool i).valid = true := by
          rw [hr.ok.valid]
          by_contra hlt
          exact hdirty (hr.ok.clean i (Nat.le_of_not_lt hlt))
        exact hcond ⟨hvalid, hdirty', hpick _, by rw [h.write_eq]; rfl⟩
      · exact hall hpick j (by omega) (by omega)

theorem flushPage_ready (hr : Ready h s A) (page : ℕ) : Ready h (pagecacheFlushPage ops s page).2 A := by
  unfold pagecacheFlushPage
  split_ifs with hcond
  · rw [flush_eq h hcond.1]
    refine hr.cleaned h ?_
    by_contra hlt
    rw [hr.ok.clean page (Nat.le_of_not_lt hlt)] at hcond
    exact absurd hcond.1 Bool.false_ne_true
  · exact hr

/-- After all pages are flushed the store holds the arrays. -/
theorem flushAll_contents (hr : Ready h s A) (k : Key) :
    h.contents (pagecacheFlushAll ops s).2.world k = pageOf A k := by
  obtain ⟨hready, hclean, hall⟩ := @flushLoop_spec _ _ _ _ h (fun _ => true) hr s.totalPages 0 0
  refine hready.holds.stored k fun j hj _ => ?_
  by_cases hlt : j < s.totalPages
  · exact hall (fun _ => rfl) j (Nat.zero_le j) (by omega)
  · exact hclean j (hr.ok.clean j (Nat.le_trans hr.ok.used_le (Nat.le_of_not_lt hlt)))

end Flush

section Main

variable (h : ReadsBack ops)

/-- A call on a cache that holds the arrays gives what they have and leaves what it makes of them. -/
theorem call_ready (hr : Ready h s A) {c : Call} (hc : IsTransfer c) :
    ∃ r s', call ops s c = some (r, s') ∧ Answers A c r ∧ Ready h s' (effect A c) := by
  cases c with
  | get | release | markDirty | invalidate | invalidateRange | truncate => exact hc.elim
  | read fsId inodeId offset size =>
    by_cases hsize : size = 0
    · refine ⟨.bytes (-1) [], s, ?_, fun hne => absurd hsize hne, hr⟩
      simp only [call, pagecacheRead]
      rw [if_pos hsize]
      rfl
    · obtain ⟨s', hread, hr'⟩ := @transfer_read _ s ops A h fsId inodeId offset 0 size.toNat hr
        size.toNat (Nat.le_refl _) []
      refine ⟨.bytes size.toInt32.toInt (readBytes A fsId inodeId offset size.toNat), s', ?_,
        fun _ => ⟨rfl, rfl⟩, hr'⟩
      simp only [call, pagecacheRead]
      rw [if_neg hsize, hread]
      rfl
  | write fsId inodeId offset src size =>
    by_cases hsize : size = 0
    · refine ⟨.code (-1), s, ?_, trivial, ?_⟩
      · simp only [call, pagecacheWrite]
        rw [if_pos hsize]
        rfl
      · rw [hsize]
        show Ready h s (writeBytes A fsId inodeId offset src 0)
        rw [writeBytes_zero]
        exact hr
    · have hlt := UInt32.toNat_lt size
      have hr₀ : Ready h s (writeBytes A fsId inodeId offset src 0) := by
        rw [writeBytes_zero]
        exact hr
      obtain ⟨s', hwrite, hr'⟩ := @transfer_write _ s ops A h fsId inodeId offset offset src 0 size.toNat hr₀
        (UInt64.add_zero offset).symm (by omega) size.toNat (Nat.le_refl _)
      rw [Nat.zero_add] at hr'
      refine ⟨.code size.toInt32.toInt, s', ?_, trivial, hr'⟩
      simp only [call, pagecacheWrite]
      rw [if_neg hsize, hwrite]
      rfl
  | readahead fsId inodeId pageIndex count =>
    obtain ⟨s', hs', hr'⟩ := readahead_ready h hr pageIndex count 0
    exact ⟨.void, s', congrArg (Option.map fun s => (Result.void, s)) hs', trivial, hr'⟩
  | flushPage page => exact ⟨_, _, rfl, trivial, flushPage_ready h hr page⟩
  | flushInode fsId inodeId => exact ⟨_, _, rfl, trivial, (flushLoop_spec h hr s.totalPages 0 0).1⟩
  | flushAll => exact ⟨_, _, rfl, trivial, (flushLoop_spec h hr s.totalPages 0 0).1⟩

theorem init_ready {maxPages : ℕ} (hmax : 1 ≤ maxPages) (data : ℕ → Page) (w : σ) :
    Ready h (pagecacheInit maxPages data w) (arraysOf (h.contents w)) := by
  have hused : (pagecacheInit maxPages data w).usedPages = 0 := rfl
  refine ⟨init_ok maxPages data w, ⟨fun i hi => absurd hi (by omega), fun k _ => ?_⟩,
    fun i hi => absurd hi (by omega), ?_⟩
  · funext o
    have ho := o.isLt
    show h.contents w k o = h.contents w ⟨k.fsId, k.inodeId,
      UInt64.ofNat ((k.pageIndex.toNat * pageSize + o) / pageSize)⟩
      (Fin.ofNat pageSize (k.pageIndex.toNat * pageSize + o))
    have hdiv : (k.pageIndex.toNat * pageSize + o) / pageSize = k.pageIndex.toNat := by
      unfold pageSize at *
      omega
    have hmod : Fin.ofNat pageSize (k.pageIndex.toNat * pageSize + o) = o := by
      apply Fin.ext
      show (k.pageIndex.toNat * pageSize + o) % pageSize = o
      unfold pageSize at *
      omega
    rw [hdiv, hmod, UInt64.ofNat_toNat]
  · show 1 ≤ if maxPages > pagecacheMaxPages then pagecacheMaxPages else maxPages
    unfold pagecacheMaxPages
    split_ifs <;> omega

end Main

/-- With a store that reads back what was written, the cache refines byte arrays. -/
theorem pagecache_refines_arrays (h : ReadsBack ops) {maxPages : ℕ} (hmax : 1 ≤ maxPages)
    (data : ℕ → Page) (w : σ) {cs : List Call} (hcs : ∀ c ∈ cs, IsTransfer c) :
    RefinesArrays ops h.contents (pagecacheInit maxPages data w) (arraysOf (h.contents w)) cs := by
  have hr := init_ready h hmax data w
  generalize pagecacheInit maxPages data w = s at hr ⊢
  generalize arraysOf (h.contents w) = A at hr ⊢
  induction cs generalizing s A with
  | nil => exact flushAll_contents h hr
  | cons c cs ih =>
    obtain ⟨r, s', hcall, hans, hr'⟩ := call_ready h hr (hcs c List.mem_cons_self)
    exact ⟨r, s', hcall, hans, ih (fun c hc => hcs c (List.mem_cons_of_mem _ hc)) s' _ hr'⟩

section Examples

/-- A store in memory. -/
def memOps : Ops (Key → Page) where
  readPage := some fun w k _ => (0, w k, w)
  writePage := some fun w k p => (0, Function.update w k p)

def memReadsBack : ReadsBack memOps where
  readPage w k _ := (0, w k, w)
  writePage w k p := (0, Function.update w k p)
  contents w := w
  read_eq := rfl
  write_eq := rfl
  read_ok _ _ _ := rfl
  read_data _ _ _ := rfl
  read_same _ _ _ := rfl
  write_ok _ _ _ := rfl
  write_data _ _ _ := rfl

end Examples

/-- One page serves two inodes in turn. -/
theorem pagecache_refines_arrays_one_page :
    1 ≤ 1 ∧ (∀ c ∈ [Call.write 0 1 0 (fun _ => 7) 1, .read 0 2 0 1, .read 0 1 0 1], IsTransfer c) ∧
    RefinesArrays memOps memReadsBack.contents (pagecacheInit 1 (fun _ _ => 0) fun _ _ => 0)
      (arraysOf fun _ _ => 0) [.write 0 1 0 (fun _ => 7) 1, .read 0 2 0 1, .read 0 1 0 1] := by
  have hcs : ∀ c ∈ [Call.write 0 1 0 (fun _ => 7) 1, .read 0 2 0 1, .read 0 1 0 1], IsTransfer c := by
    intro c hc
    simp only [List.mem_cons, List.not_mem_nil, or_false] at hc
    rcases hc with rfl | rfl | rfl <;> trivial
  exact ⟨Nat.le_refl 1, hcs, pagecache_refines_arrays memReadsBack (Nat.le_refl 1) _ _ hcs⟩

end PageCache
