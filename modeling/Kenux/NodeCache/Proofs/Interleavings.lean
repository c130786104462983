import Kenux.NodeCache.Model

/-!
# Every interleaving of the callers

`step_good` says which single step keeps what is asked of the page cache, and `interleavings_good_iff` follows
by induction on the run. An entry that a caller is about to use is one of the cache (`Named`).
-/

namespace NodeCache

open Count Run
open Function (update_self update_of_ne)

variable {ι : Type*} {ops : VfsOps} {s t : State ι} {c : ι} {e : ℕ}

/-! ## What a step leaves alone -/

/-- The entry that a caller is about to use. -/
def Pc.entry : Pc → Option ℕ
  | .idle => none
  | .getMiss _ _ => none
  | .getRead e => some e
  | .wrote e => some e
  | .syncWrite _ _ e _ => some e
  | .syncLock _ _ e _ => some e

structure Named (s : State ι) : Prop where
  chain : ∀ h, ∀ e ∈ s.cache.hashTable h, e < s.cache.pcTotal
  caller : ∀ c e, (s.pc c).entry = some e → e < s.cache.pcTotal

/-- A caller that copied bytes into the page is about to make it dirty. -/
def State.Writer (s : State ι) (e : ℕ) : Prop := ∃ c, s.pc c = .wrote e

theorem start_named : Named (start : State ι) where
  chain _ _ he := absurd he List.not_mem_nil
  caller _ _ he := by cases he

theorem start_good : Good (start : State ι) where
  unique e he := absurd he (Nat.not_lt_zero e)
  count := by
    have hzero : count 0 (fun e => ((start : State ι).cache.entries e).dirty = true) = 0 :=
      count_zero fun _ _ => Bool.false_ne_true
    show (0 : ℤ) = (count 0 fun e => ((start : State ι).cache.entries e).dirty = true : ℕ)
    rw [hzero]
    rfl
  kept e he := absurd he (Nat.not_lt_zero e)

theorem Named.sameKeys (h : Named s) (hk : SameKeys s.cache t.cache) (hpc : t.pc = s.pc) : Named t where
  chain i e he := by
    rw [hk.chain] at he
    rw [hk.total]
    exact h.chain i e he
  caller c e he := by
    rw [hpc] at he
    rw [hk.total]
    exact h.caller c e he

theorem Named.locked {u : Cache} (h : Named s) (hk : SameKeys s.cache u) : Named { s with cache := u } :=
  h.sameKeys hk rfl

/-- `Good` after a step that adds no entry. -/
theorem Good.of_same (h : Good s) (hk : SameKeys s.cache t.cache) (hcount : t.cache.Counted)
    (hkept : ∀ e < s.cache.pcTotal, t.Kept e) : Good t where
  unique e he e' he' hnode hoffset := by
    rw [hk.total] at he he'
    rw [hk.node, hk.node] at hnode
    rw [hk.offset, hk.offset] at hoffset
    exact h.unique e he e' he' hnode hoffset
  count := hcount
  kept e he := hkept e (hk.total ▸ he)

/-- A step after which the dirty flags are as before, and no page has unsaved bytes that it had not. -/
structure Quiet (s t : State ι) : Prop where
  keys : SameKeys s.cache t.cache
  dirty : SameDirty s.cache t.cache
  unsaved : ∀ e, t.unsaved e → s.unsaved e
  writer : ∀ e, t.Writer e ↔ s.Writer e

theorem Quiet.good (hq : Quiet s t) (h : Good s) : Good t := by
  refine h.of_same hq.keys (hq.dirty.counted hq.keys h.count) fun e he hunsaved => ?_
  rw [hq.dirty.dirty]
  exact (h.kept e he (hq.unsaved e hunsaved)).imp_right (hq.writer e).mpr

theorem quiet_cache {u : Cache} (hk : SameKeys s.cache u) (hd : SameDirty s.cache u) :
    Quiet s { s with cache := u } :=
  ⟨hk, hd, fun _ hu => hu, fun _ => .rfl⟩

theorem Quiet.trans {u : State ι} (h : Quiet s t) (h' : Quiet t u) : Quiet s u where
  keys := h.keys.trans h'.keys
  dirty := h.dirty.trans h'.dirty
  unsaved e hu := h.unsaved e (h'.unsaved e hu)
  writer e := (h'.writer e).trans (h.writer e)

/-- An entry becomes dirty, and the writers of other entries stay. -/
theorem good_setDirty (h : Good s) (he : e < s.cache.pcTotal) (hcache : t.cache = s.cache.setDirty e)
    (hunsaved : t.unsaved = s.unsaved) (hw : ∀ j, j ≠ e → (t.Writer j ↔ s.Writer j)) : Good t := by
  have hk : SameKeys s.cache t.cache := hcache ▸ setDirty_sameKeys s.cache e
  have hkept : (∀ j, j ≠ e → (t.cache.entries j).dirty = (s.cache.entries j).dirty) →
      ∀ j < s.cache.pcTotal, t.Kept j := by
    intro hother j hj hu
    by_cases hje : j = e
    · left
      rw [hje, hcache]
      exact setDirty_dirty s.cache e
    · rw [hother j hje]
      rw [hunsaved] at hu
      exact (h.kept j hj hu).imp_right (hw j hje).mpr
  by_cases hd : (s.cache.entries e).dirty
  · have hsame : t.cache = s.cache := hcache.trans (setDirty_of_dirty hd)
    exact h.of_same hk (hsame ▸ h.count) (hkept fun j _ => by rw [hsame])
  · have hf : Flips s.cache t.cache e true 1 := hcache ▸ setDirty_flips hd
    exact h.of_same hk (hf.counted_set hk he hd h.count) (hkept hf.other)

/-- A flag that is cleared and counted was set, and no bytes depended on it. -/
theorem good_cleared_iff (h : Good s) (he : e < s.cache.pcTotal) (hk : SameKeys s.cache t.cache)
    (hf : Flips s.cache t.cache e false (-1)) (hunsaved : t.unsaved = s.unsaved)
    (hw : ∀ j, t.Writer j ↔ s.Writer j) : Good t ↔ (s.cache.entries e).dirty ∧ s.Saved e := by
  constructor
  · intro ht
    refine ⟨(hf.counted_iff hk he h.count).mp ht.count, fun hu => ?_⟩
    rw [← hunsaved] at hu
    rcases ht.kept e (hk.total ▸ he) hu with hd | hwriter
    · rw [hf.dirty] at hd
      exact absurd hd Bool.false_ne_true
    · exact (hw e).mp hwriter
  · rintro ⟨hd, hsaved⟩
    refine h.of_same hk ((hf.counted_iff hk he h.count).mpr hd) fun j hj hu => ?_
    rw [hunsaved] at hu
    by_cases hje : j = e
    · rw [hje] at hu ⊢
      exact .inr ((hw e).mpr (hsaved hu))
    · rw [hf.other j hje]
      exact (h.kept j hj hu).imp_right (hw j).mpr

theorem mem_behind {chain : List ℕ} {j : ℕ} (h : j ∈ behind chain e) : j ∈ chain :=
  (List.dropWhile_sublist _).subset (List.mem_of_mem_tail h)

/-- The entry that is written next is one of the cache. -/
theorem nextDirty_lt {s : Cache} {node : UInt64} {i j : ℕ} {rest : List ℕ}
    (hchain : ∀ h, ∀ e ∈ s.hashTable h, e < s.pcTotal) (hrest : ∀ e ∈ rest, e < s.pcTotal)
    (h : s.nextDirty node i rest = some (j, e)) : e < s.pcTotal := by
  unfold Cache.nextDirty at h
  cases hfind : rest.find? (s.toSync node) with
  | some e' =>
    rw [hfind] at h
    obtain ⟨rfl, rfl⟩ := Prod.mk.inj (Option.some.inj h)
    exact hrest _ (List.mem_of_find?_eq_some hfind)
  | none =>
    rw [hfind] at h
    obtain ⟨k, -, hk⟩ := List.exists_of_findSome?_eq_some h
    obtain ⟨e', he', heq⟩ := Option.map_eq_some_iff.mp hk
    obtain ⟨rfl, rfl⟩ := Prod.mk.inj heq
    exact hchain _ _ (List.mem_of_find?_eq_some he')

theorem ne_wrote_of_eq {pc : Pc} (h : s.pc c = pc) (hpc : ∀ e, pc ≠ .wrote e) (e : ℕ) : s.pc c ≠ .wrote e := by
  rw [h]
  exact hpc e

/-- The new entry has a name that no other entry has, and is not dirty. -/
theorem insert_named {node offset : UInt64} (hn : Named s) :
    Named { s with
      cache := s.cache.insert node offset
      passed := Function.update s.passed s.cache.pcTotal false
      unsaved := Function.update s.unsaved s.cache.pcTotal false } where
  chain i e he := by
    show e < s.cache.pcTotal + 1
    rcases mem_insert he with he | rfl
    · have := hn.chain i e he
      omega
    · omega
  caller c e he := by
    show e < s.cache.pcTotal + 1
    have := hn.caller c e he
    omega

/-- No two entries have one node and one offset, after an insertion, if none had those of the new one. -/
theorem insert_unique_iff {s : Cache} {node offset : UInt64}
    (h : ∀ e < s.pcTotal, ∀ e' < s.pcTotal, (s.entries e).node = (s.entries e').node →
      (s.entries e).offset = (s.entries e').offset → e = e') :
    (∀ e < s.pcTotal + 1, ∀ e' < s.pcTotal + 1,
      ((s.insert node offset).entries e).node = ((s.insert node offset).entries e').node →
      ((s.insert node offset).entries e).offset = ((s.insert node offset).entries e').offset → e = e') ↔
      ∀ e < s.pcTotal, ¬((s.entries e).node = node ∧ (s.entries e).offset = offset) := by
  constructor
  · rintro hunique e he ⟨hnode, hoffset⟩
    have hold := insert_old s node offset he
    have hnew := insert_new s node offset
    have := hunique e (by omega) s.pcTotal (by omega) (by rw [hold, hnew]; exact hnode)
      (by rw [hold, hnew]; exact hoffset)
    omega
  · intro hnone e he e' he' hnode hoffset
    by_cases hlt : e < s.pcTotal
    · rw [insert_old s node offset hlt] at hnode hoffset
      by_cases hlt' : e' < s.pcTotal
      · rw [insert_old s node offset hlt'] at hnode hoffset
        exact h e hlt e' hlt' hnode hoffset
      · obtain rfl : e' = s.pcTotal := by omega
        rw [insert_new] at hnode hoffset
        exact absurd ⟨hnode, hoffset⟩ (hnone e hlt)
    · obtain rfl : e = s.pcTotal := by omega
      by_cases hlt' : e' < s.pcTotal
      · rw [insert_new, insert_old s node offset hlt'] at hnode hoffset
        exact absurd ⟨hnode.symm, hoffset.symm⟩ (hnone e' hlt')
      · omega

/-! ## A caller goes on -/

section Goto

variable [DecidableEq ι] {pc : Pc} {node : UInt64} {count : ℕ} {next : Option (ℕ × ℕ)}

theorem goto_pc_self (s : State ι) (c : ι) (pc : Pc) : (s.goto c pc).pc c = pc := by
  show Function.update s.pc c pc c = pc
  rw [update_self]

theorem goto_pc_of_ne {c' : ι} (h : c' ≠ c) : (s.goto c pc).pc c' = s.pc c' := by
  show Function.update s.pc c pc c' = _
  rw [update_of_ne h]

theorem Named.goto (h : Named s) (hpc : ∀ e, pc.entry = some e → e < s.cache.pcTotal) :
    Named (s.goto c pc) where
  chain := h.chain
  caller c' e he := by
    by_cases hc : c' = c
    · rw [hc, goto_pc_self] at he
      exact hpc e he
    · rw [goto_pc_of_ne hc] at he
      exact h.caller c' e he

theorem Named.goto_idle (h : Named s) : Named (s.goto c .idle) :=
  h.goto fun _ he => by cases he

theorem Named.syncOn (h : Named s) (hnext : ∀ i e, next = some (i, e) → e < s.cache.pcTotal) :
    Named (s.syncOn c node count next) := by
  match next, hnext with
  | none, _ => exact h.goto_idle
  | some (i, e), hnext =>
    have hmod : Named { s with cache := s.cache.mod e fun p => { p with writeback := true } } :=
      h.locked (writeback_sameKeys s.cache e)
    refine hmod.goto fun e' he' => ?_
    obtain rfl := Option.some.inj he'
    exact hnext i e rfl

theorem writer_goto (hc : s.pc c ≠ .wrote e) (hpc : pc ≠ .wrote e) :
    (s.goto c pc).Writer e ↔ s.Writer e := by
  refine exists_congr fun c' => ?_
  by_cases h : c' = c
  · rw [h, goto_pc_self]
    exact iff_of_false hpc hc
  · rw [goto_pc_of_ne h]

theorem quiet_goto (hc : ∀ e, s.pc c ≠ .wrote e) (hpc : ∀ e, pc ≠ .wrote e) : Quiet s (s.goto c pc) :=
  ⟨.refl _, .refl _, fun _ hu => hu, fun e => writer_goto (hc e) (hpc e)⟩

theorem syncOn_unsaved (s : State ι) (c : ι) (node : UInt64) (count : ℕ) (next : Option (ℕ × ℕ)) :
    (s.syncOn c node count next).unsaved = s.unsaved := by
  match next with
  | none => rfl
  | some (_, _) => rfl

theorem quiet_syncOn (hc : ∀ e, s.pc c ≠ .wrote e) : Quiet s (s.syncOn c node count next) := by
  match next with
  | none => exact quiet_goto hc fun _ he => by cases he
  | some (i, e) =>
    refine (quiet_cache (writeback_sameKeys s.cache e) (writeback_sameDirty s.cache e)).trans ?_
    exact quiet_goto hc fun _ he => by cases he

end Goto

/-! ## One step -/

section Steps

variable [DecidableEq ι]

theorem getPage_good {node offset : UInt64} (hn : Named s) (h : Good s)
    (hst : step ops s (c, .getPage node offset) = some t) : Named t ∧ Good t := by
  unfold step at hst
  obtain ⟨hidle, hst⟩ := Option.ite_none_right_eq_some.mp hst
  cases hfind : s.cache.find node offset with
  | some e =>
    rw [hfind] at hst
    obtain rfl := Option.some.inj hst
    exact ⟨hn.locked (hold_sameKeys _ e),
      (quiet_cache (hold_sameKeys _ e) (hold_sameDirty _ e)).good h⟩
  | none =>
    rw [hfind] at hst
    obtain rfl := Option.some.inj hst
    have hc := ne_wrote_of_eq hidle fun _ he => by cases he
    exact ⟨hn.goto fun _ he => (by cases he), (quiet_goto hc fun _ he => by cases he).good h⟩

/-- The insertion keeps what is asked if the node and offset have no entry by then. -/
theorem insert_good {alloc : Bool} (hn : Named s) (h : Good s)
    (hst : step ops s (c, .insert alloc) = some t) :
    Named t ∧ (Good t ↔ StepOk s (c, .insert alloc)) := by
  simp only [step] at hst
  split at hst
  case h_2 => exact nomatch hst
  case h_1 node offset hpc =>
  have hc : ∀ e, s.pc c ≠ .wrote e := ne_wrote_of_eq hpc fun _ he => by cases he
  cases alloc with
  | false =>
    obtain rfl := Option.some.inj hst
    refine ⟨hn.goto_idle, iff_of_true ((quiet_goto hc fun e he => by cases he).good h) ?_⟩
    intro halloc
    exact absurd halloc Bool.false_ne_true
  | true =>
    obtain rfl := Option.some.inj hst
    refine ⟨(insert_named hn).goto fun e he => ?_, ?_⟩
    · obtain rfl := Option.some.inj he
      exact Nat.lt_succ_self _
    have hok : StepOk s (c, .insert true) ↔
        ∀ e < s.cache.pcTotal, ¬((s.cache.entries e).node = node ∧ (s.cache.entries e).offset = offset) := by
      refine ⟨fun hok => hok rfl node offset hpc, fun hnone _ node' offset' hpc' => ?_⟩
      obtain ⟨rfl, rfl⟩ := Pc.getMiss.inj (hpc.symm.trans hpc')
      exact hnone
    rw [hok, ← insert_unique_iff h.unique]
    refine ⟨fun ht => ht.unique, fun hunique => ⟨hunique, insert_counted s.cache node offset h.count, ?_⟩⟩
    intro e he hu
    have he : e < s.cache.pcTotal + 1 := he
    have hu : Function.update s.unsaved s.cache.pcTotal false e := hu
    by_cases hlt : e < s.cache.pcTotal
    · rw [update_of_ne hlt.ne] at hu
      refine (h.kept e hlt hu).imp (fun hd => ?_) fun hw => ?_
      · show ((s.cache.insert node offset).entries e).dirty
        rw [insert_old _ node offset hlt]
        exact hd
      · exact (writer_goto (s := { s with cache := s.cache.insert node offset }) (hc e)
          (fun hp => by cases hp)).mpr hw
    · obtain rfl : e = s.cache.pcTotal := by omega
      rw [update_self] at hu
      exact absurd hu Bool.false_ne_true

theorem readNode_good (hn : Named s) (h : Good s) (hst : step ops s (c, .readNode) = some t) :
    Named t ∧ Good t := by
  simp only [step] at hst
  split at hst
  case h_2 => exact nomatch hst
  case h_1 e hpc =>
  have hc : ∀ e, s.pc c ≠ .wrote e := ne_wrote_of_eq hpc fun _ he => by cases he
  by_cases hread : (s.cache.entries e).node ≠ 0 ∧ ops.read (s.cache.entries e).node
  · rw [if_pos hread] at hst
    obtain rfl := Option.some.inj hst
    have hk : SameKeys s.cache (s.cache.mod e fun p => { p with uptodate := true }) :=
      mod_sameKeys fun _ => ⟨rfl, rfl⟩
    have hd : SameDirty s.cache (s.cache.mod e fun p => { p with uptodate := true }) :=
      mod_sameDirty fun _ => rfl
    refine ⟨(hn.locked hk).goto_idle, ((quiet_cache hk hd).trans ?_).good h⟩
    exact quiet_goto hc fun _ he => by cases he
  · rw [if_neg hread] at hst
    obtain rfl := Option.some.inj hst
    exact ⟨hn.goto_idle, (quiet_goto hc fun _ he => by cases he).good h⟩

/-- The bytes that a writer has copied are about to be in a dirty entry. -/
theorem write_good {offsetInPage len : UInt64} (hn : Named s) (h : Good s)
    (hst : step ops s (c, .write e offsetInPage len) = some t) : Named t ∧ Good t := by
  unfold step at hst
  obtain ⟨⟨hidle, he⟩, hst⟩ := Option.ite_none_right_eq_some.mp hst
  by_cases hoffset : offsetInPage ≥ 4096
  · rw [if_pos hoffset] at hst
    obtain rfl := Option.some.inj hst
    exact ⟨hn, h⟩
  · rw [if_neg hoffset] at hst
    obtain ⟨-, hst⟩ := Option.ite_none_left_eq_some.mp hst
    obtain rfl := Option.some.inj hst
    refine ⟨Named.goto (s := s.copy e _) ⟨hn.chain, hn.caller⟩ fun j hj => ?_,
      h.of_same (.refl _) h.count fun j hj hu => ?_⟩
    · obtain rfl := Option.some.inj hj
      exact he
    by_cases hje : j = e
    · right
      exact ⟨c, by rw [goto_pc_self, hje]⟩
    · have hu : Function.update s.unsaved e _ j := hu
      rw [update_of_ne hje] at hu
      refine (h.kept j hj hu).imp_right fun hw => ?_
      exact (writer_goto (s := s.copy e _) (ne_wrote_of_eq hidle (fun _ hp => by cases hp) j)
        (fun hp => hje (Pc.wrote.inj hp).symm)).mpr hw

theorem markWritten_good (hn : Named s) (h : Good s) (hst : step ops s (c, .markWritten) = some t) :
    Named t ∧ Good t := by
  simp only [step] at hst
  split at hst
  case h_2 => exact nomatch hst
  case h_1 e hpc =>
  obtain rfl := Option.some.inj hst
  have he : e < s.cache.pcTotal := hn.caller c e (by rw [hpc]; rfl)
  refine ⟨(hn.locked (setDirty_sameKeys _ e)).goto_idle, good_setDirty h he rfl rfl fun j hj => ?_⟩
  refine writer_goto (s := { s with cache := s.cache.setDirty e }) (fun hp => ?_) (fun hp => by cases hp)
  exact hj (Pc.wrote.inj (hp.symm.trans hpc))

theorem setDirty_good (hn : Named s) (h : Good s) (hst : step ops s (c, .setDirty e) = some t) :
    Named t ∧ Good t := by
  unfold step at hst
  obtain ⟨⟨-, he⟩, hst⟩ := Option.ite_none_right_eq_some.mp hst
  obtain rfl := Option.some.inj hst
  exact ⟨hn.locked (setDirty_sameKeys _ e), good_setDirty h he rfl rfl fun _ _ => .rfl⟩

/-- A flag may be cleared if no bytes depend on it. -/
theorem clearDirty_good (hn : Named s) (h : Good s) (hst : step ops s (c, .clearDirty e) = some t) :
    Named t ∧ (Good t ↔ StepOk s (c, .clearDirty e)) := by
  unfold step at hst
  obtain ⟨⟨-, he⟩, hst⟩ := Option.ite_none_right_eq_some.mp hst
  obtain rfl := Option.some.inj hst
  refine ⟨hn.locked (clearDirty_sameKeys _ e), ?_⟩
  show _ ↔ ((s.cache.entries e).dirty → s.Saved e)
  by_cases hd : (s.cache.entries e).dirty
  · have hiff := good_cleared_iff (t := { s with cache := s.cache.clearDirty e }) h he
      (clearDirty_sameKeys _ e) (clearDirty_flips hd) rfl fun _ => .rfl
    rw [hiff]
    exact ⟨fun hand _ => hand.2, fun hsaved => ⟨hd, hsaved hd⟩⟩
  · rw [clearDirty_of_clean hd]
    exact iff_of_true h fun hp => absurd hp hd

theorem syncNode_good {node : UInt64} (hn : Named s) (h : Good s)
    (hst : step ops s (c, .syncNode node) = some t) : Named t ∧ Good t := by
  unfold step at hst
  obtain ⟨hidle, hst⟩ := Option.ite_none_right_eq_some.mp hst
  by_cases hnode : node = 0
  · rw [if_pos hnode] at hst
    obtain rfl := Option.some.inj hst
    exact ⟨hn, h⟩
  · rw [if_neg hnode] at hst
    obtain rfl := Option.some.inj hst
    refine ⟨hn.syncOn fun i e hnext => nextDirty_lt hn.chain (hn.chain 0) hnext, ?_⟩
    exact (quiet_syncOn (ne_wrote_of_eq hidle fun _ he => by cases he)).good h

/-- The bytes of the page are written back. -/
theorem writeNode_good (hn : Named s) (h : Good s) (hst : step ops s (c, .writeNode) = some t) :
    Named t ∧ Good t := by
  simp only [step] at hst
  split at hst
  case h_2 => exact nomatch hst
  case h_1 node i e count hpc =>
  have hc : ∀ e, s.pc c ≠ .wrote e := ne_wrote_of_eq hpc fun _ he => by cases he
  have he : e < s.cache.pcTotal := hn.caller c e (by rw [hpc]; rfl)
  have hlock : ∀ j, (Pc.syncLock node i e count).entry = some j → j < s.cache.pcTotal := by
    intro j hj
    obtain rfl := Option.some.inj hj
    exact he
  by_cases hwrite : ops.write node
  · rw [if_pos hwrite] at hst
    obtain rfl := Option.some.inj hst
    have hpass : Quiet s (s.pass e) := by
      refine ⟨.refl _, .refl _, fun j hu => ?_, fun _ => .rfl⟩
      have hu : Function.update s.unsaved e false j := hu
      by_cases hje : j = e
      · rw [hje, update_self] at hu
        exact absurd hu Bool.false_ne_true
      · rw [update_of_ne hje] at hu
        exact hu
    refine ⟨Named.goto (s := s.pass e) ⟨hn.chain, hn.caller⟩ hlock, (hpass.trans ?_).good h⟩
    exact quiet_goto hc fun _ he => by cases he
  · rw [if_neg hwrite] at hst
    obtain rfl := Option.some.inj hst
    exact ⟨hn.goto hlock, (quiet_goto hc fun _ he => by cases he).good h⟩

/-- The lock is taken again rightly if the entry is still dirty and no bytes came into the page. -/
theorem relock_good (hn : Named s) (h : Good s) (hst : step ops s (c, .relock) = some t) :
    Named t ∧ (Good t ↔ StepOk s (c, .relock)) := by
  simp only [step] at hst
  split at hst
  case h_2 => exact nomatch hst
  case h_1 node i e count hpc =>
  obtain rfl := Option.some.inj hst
  have hc : ∀ e, s.pc c ≠ .wrote e := ne_wrote_of_eq hpc fun _ he => by cases he
  have he : e < s.cache.pcTotal := hn.caller c e (by rw [hpc]; rfl)
  have hk := written_sameKeys s.cache e
  have hn' : Named { s with cache := s.cache.written e } := hn.locked hk
  have hq : Quiet { s with cache := s.cache.written e } ({ s with cache := s.cache.written e }.syncOn c node
      (count + 1) ((s.cache.written e).nextDirty node i (behind ((s.cache.written e).hashTable i) e))) :=
    quiet_syncOn hc
  refine ⟨hn'.syncOn fun i' e' hnext =>
    nextDirty_lt hn'.chain (fun j hj => hn'.chain i j (mem_behind hj)) hnext, ?_⟩
  have hunsaved := syncOn_unsaved { s with cache := s.cache.written e } c node (count + 1)
    ((s.cache.written e).nextDirty node i (behind ((s.cache.written e).hashTable i) e))
  rw [good_cleared_iff h he (hk.trans hq.keys) ((written_flips s.cache e).trans_same hq.dirty) hunsaved
    hq.writer]
  constructor
  · intro hand node' i' e' count' hpc'
    obtain ⟨-, -, rfl, -⟩ := Pc.syncLock.inj (hpc.symm.trans hpc')
    exact hand
  · intro hok
    exact hok node i e count hpc

/-- A step keeps what is asked of the page cache exactly if it meets `StepOk`. -/
theorem step_good {a : Action} (hn : Named s) (h : Good s) (hst : step ops s (c, a) = some t) :
    Named t ∧ (Good t ↔ StepOk s (c, a)) := by
  have hquiet : StepOk s (c, a) → Named t ∧ Good t → Named t ∧ (Good t ↔ StepOk s (c, a)) :=
    fun hok hand => ⟨hand.1, iff_of_true hand.2 hok⟩
  cases a with
  | getPage node offset => exact hquiet trivial (getPage_good hn h hst)
  | insert alloc => exact insert_good hn h hst
  | readNode => exact hquiet trivial (readNode_good hn h hst)
  | write e offsetInPage len => exact hquiet trivial (write_good hn h hst)
  | markWritten => exact hquiet trivial (markWritten_good hn h hst)
  | setDirty e => exact hquiet trivial (setDirty_good hn h hst)
  | clearDirty e => exact clearDirty_good hn h hst
  | syncNode node => exact hquiet trivial (syncNode_good hn h hst)
  | writeNode => exact hquiet trivial (writeNode_good hn h hst)
  | relock => exact relock_good hn h hst

/-- In every interleaving whose steps meet `StepOk` there is one entry for a node and offset, the counter
is right and no bytes are lost; and the next step keeps that exactly if it meets `StepOk` too. -/
theorem interleavings_good_iff (ops : VfsOps) {s : State ι} (h : Reach (step ops) StepOk start s) :
    Good s ∧ ∀ (c : ι) a t, step ops s (c, a) = some t → (Good t ↔ StepOk s (c, a)) := by
  have hinv : Named s ∧ Good s := by
    refine h.invariant (I := fun s => Named s ∧ Good s) ⟨start_named, start_good⟩ fun u ca t hu hok hst => ?_
    obtain ⟨hn, hiff⟩ := step_good hu.1 hu.2 hst
    exact ⟨hn, hiff.mpr hok⟩
  exact ⟨hinv.2, fun c a t hst => (step_good hinv.1 hinv.2 hst).2⟩

/-- Two callers, the first of which has inserted a page. -/
theorem interleavings_good_inserted :
    ∃ s : State (Fin 2), (s.cache.pcTotal = 1 ∧ s.pc 0 = .getRead 0) ∧
      Good s ∧ ∀ c a t, step ⟨fun _ => true, fun _ => true⟩ s (c, a) = some t → (Good t ↔ StepOk s (c, a)) := by
  have hmiss : Reach (step ⟨fun _ => true, fun _ => true⟩) StepOk (start : State (Fin 2))
      (start.goto 0 (.getMiss 5 0)) :=
    .step (0, .getPage 5 0) .start trivial rfl
  have hempty : StepOk ((start : State (Fin 2)).goto 0 (.getMiss 5 0)) (0, .insert true) :=
    fun _ _ _ _ e he => absurd he (Nat.not_lt_zero e)
  have hreach := hmiss.step (0, .insert true) hempty rfl
  refine ⟨_, ?_, interleavings_good_iff ⟨fun _ => true, fun _ => true⟩ hreach⟩
  exact ⟨rfl, rfl⟩

/-- Two callers look up a page of a node before either of them inserts it. -/
theorem interleavings_not_good :
    ¬∀ (is : List (Fin 2 × Action)) (s : State (Fin 2)),
      run (step ⟨fun _ => true, fun _ => true⟩) start is = some s → Good s := by
  intro hall
  have hgood := hall [(0, .getPage 5 0), (1, .getPage 5 0), (0, .insert true), (1, .insert true)] _ rfl
  have := hgood.unique 0 (by decide) 1 (by decide) rfl rfl
  omega

end Steps

end NodeCache
