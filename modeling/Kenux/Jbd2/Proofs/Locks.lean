import Kenux.Jbd2.Model
import Kenux.Lib.Run

/-!
# The locks of the journal
-/

namespace Jbd2

open Memory Disk Run

variable {j j' : Journal} {x : Transaction} {t : ℕ}

/-- Both locks are free. -/
def Free (j : Journal) : Prop := j.journalLock = false ∧ j.commitLock = false

/-- The locks are as they were. -/
def SameLocks (j j' : Journal) : Prop := j'.journalLock = j.journalLock ∧ j'.commitLock = j.commitLock

theorem SameLocks.refl (j : Journal) : SameLocks j j := ⟨rfl, rfl⟩

theorem SameLocks.trans {j'' : Journal} (h : SameLocks j j') (h' : SameLocks j' j'') : SameLocks j j'' :=
  ⟨h'.1.trans h.1, h'.2.trans h.2⟩

theorem SameLocks.free (h : SameLocks j j') (hj : Free j) : Free j' := ⟨h.1.trans hj.1, h.2.trans hj.2⟩

/-! ## What touches no lock -/

theorem sameLocks_alloc (j : Journal) : SameLocks j (jbd2AllocJournalBlock j).2 := by
  unfold jbd2AllocJournalBlock
  split_ifs
  · exact .refl j
  · exact ⟨rfl, rfl⟩

theorem sameLocks_free (j : Journal) : SameLocks j (jbd2FreeJournalBlock j) := by
  unfold jbd2FreeJournalBlock
  split_ifs
  · exact ⟨rfl, rfl⟩
  · exact .refl j

theorem sameLocks_freeInLog (blocks : List Block) (j : Journal) : SameLocks j (freeInLog blocks j) := by
  unfold freeInLog
  induction blocks generalizing j with
  | nil => exact .refl j
  | cons b bs ih =>
    rw [List.foldl_cons]
    refine .trans ?_ (ih _)
    split_ifs
    · exact sameLocks_free j
    · exact .refl j

theorem sameLocks_readBlock (n : ℕ) (j : Journal) : SameLocks j (readBlock n j).2 := by
  have hread : SameLocks j (readJournal n j.devBlockSize j).2 := ⟨rfl, rfl⟩
  unfold readBlock
  cases hr : readJournal n j.devBlockSize j with
  | mk data j' =>
    rw [hr] at hread
    cases data <;> exact hread

theorem sameLocks_scan (i n : ℕ) (j : Journal) : SameLocks j (scan i n j).2 := by
  induction n generalizing i j with
  | zero => exact .refl j
  | succ n ih =>
    have hread := sameLocks_readBlock (i + 1) j
    unfold scan
    cases hr : readBlock (i + 1) j with
    | mk data j' =>
      rw [hr] at hread
      cases data with
      | none => exact hread.trans (ih _ _)
      | some hdr =>
        dsimp only
        split_ifs <;> exact hread.trans (ih _ _)

theorem sameLocks_replayBlocks (descriptor : ℕ) (buf : Mem) (b n : ℕ) (j : Journal) :
    SameLocks j (replayBlocks descriptor buf b n j) := by
  induction n generalizing b j with
  | zero => exact .refl j
  | succ n ih =>
    unfold replayBlocks
    dsimp only
    split_ifs
    · exact .refl j
    · have halloc : SameLocks j (j.call kmalloc).2 := ⟨rfl, rfl⟩
      cases ha : j.call kmalloc with
      | mk ok j' =>
        rw [ha] at halloc
        cases ok with
        | false => exact halloc.trans (ih _ _)
        | true =>
          have hread := sameLocks_readBlock (descriptor + 1 + b) j'
          dsimp only
          cases hr : readBlock (descriptor + 1 + b) j' with
          | mk data j'' =>
            rw [hr] at hread
            cases data with
            | none => exact halloc.trans (hread.trans (ih _ _))
            | some data => exact halloc.trans (hread.trans (.trans ⟨rfl, rfl⟩ (ih _ _)))

theorem sameLocks_replayTrans (tid : ℕ) (records : List Found) (j : Journal) :
    SameLocks j (replayTrans tid records j) := by
  induction records generalizing j with
  | nil => exact .refl j
  | cons r rs ih =>
    unfold replayTrans
    split_ifs
    · have hread := sameLocks_readBlock r.blockNo j
      cases hr : readBlock r.blockNo j with
      | mk data j' =>
        rw [hr] at hread
        cases data with
        | none => exact hread.trans (ih _)
        | some buf => exact hread.trans ((sameLocks_replayBlocks ..).trans (ih _))
    · exact ih j

theorem sameLocks_replayFrom (records : List Found) (tid n : ℕ) (j : Journal) :
    SameLocks j (replayFrom records tid n j).2 := by
  induction n generalizing tid j with
  | zero => exact .refl j
  | succ n ih =>
    unfold replayFrom
    split_ifs with hcommit
    · dsimp only
      refine (sameLocks_replayTrans tid records j).trans (.trans ?_ (ih _ _))
      split_ifs
      · exact ⟨rfl, rfl⟩
      · exact .refl _
    · exact ih _ _

theorem sameLocks_recover (j : Journal) : SameLocks j (recover j).2 := by
  unfold recover
  dsimp only
  have hscan := sameLocks_scan 0
    (if j.journalBlocks - 1 < maxRecoveryScan then j.journalBlocks - 1 else maxRecoveryScan) j
  split_ifs at hscan ⊢
  · exact hscan
  · exact hscan
  · exact hscan.trans ((sameLocks_replayFrom ..).trans ⟨rfl, rfl⟩)
  · exact hscan
  · exact hscan
  · exact hscan.trans ((sameLocks_replayFrom ..).trans ⟨rfl, rfl⟩)

theorem sameLocks_load (j : Journal) : SameLocks j (jbd2JournalLoad j).2 := by
  unfold jbd2JournalLoad
  split_ifs with hinit
  · have hcall : ∀ j : Journal, SameLocks j (j.call kmalloc).2 := fun j => ⟨rfl, rfl⟩
    have h₁ := hcall j
    cases ha : j.call kmalloc with
    | mk ok j₁ =>
      rw [ha] at h₁
      cases ok with
      | false => exact h₁
      | true =>
        have h₄ := h₁.trans ((hcall j₁).trans ((hcall _).trans (hcall _)))
        dsimp only
        split_ifs
        · exact h₄.trans (sameLocks_recover _)
        · exact h₄
  · exact .refl j

theorem sameLocks_checkpointBlocks (blocks : List Block) (j : Journal) :
    SameLocks j (checkpointBlocks blocks j).2 := by
  induction blocks generalizing j with
  | nil => exact .refl j
  | cons b bs ih =>
    unfold checkpointBlocks
    dsimp only
    have hwrite : SameLocks j (if b.dataSize > 0 then (writeHome b.blockNo b.data b.dataSize j).2 else j) := by
      split_ifs
      · exact ⟨rfl, rfl⟩
      · exact .refl j
    split_ifs at hwrite ⊢
    · exact hwrite.trans ((sameLocks_free _).trans (ih _))
    · exact hwrite.trans ((sameLocks_free _).trans (ih _))
    · exact hwrite.trans (ih _)
    · exact hwrite.trans (ih _)

theorem sameLocks_checkpointTrans (xs : List Transaction) (j : Journal) :
    SameLocks j (checkpointTrans xs j).2 := by
  induction xs generalizing j with
  | nil => exact .refl j
  | cons x xs ih =>
    unfold checkpointTrans
    split_ifs
    · exact ih j
    · dsimp only
      refine (sameLocks_checkpointBlocks x.blocks j).trans (.trans ?_ ((sameLocks_freeInLog _ _).trans (ih _)))
      split_ifs <;> exact ⟨rfl, rfl⟩

/-! ## The operations -/

/-- The call returns, and both locks are free afterwards. -/
def Returns (r : Option Journal) : Prop := ∃ j', r = some j' ∧ Free j'

theorem free_init (devBlockSize journalStart journalBlocks : ℕ) (h : Free j) :
    Free (jbd2JournalInit devBlockSize journalStart journalBlocks j).2 := by
  unfold jbd2JournalInit
  split_ifs
  · exact h
  · dsimp only
    split
    · split_ifs <;> exact ⟨rfl, rfl⟩
    · exact ⟨rfl, rfl⟩

theorem returns_start (h : Free j) : Returns ((jbd2TransStart j).map Prod.snd) := by
  unfold jbd2TransStart
  split_ifs
  · have hcall : Free (j.call kmalloc).2 := h
    cases ha : j.call kmalloc with
    | mk ok j₁ =>
      rw [ha] at hcall
      cases ok with
      | false => exact ⟨j₁, rfl, hcall⟩
      | true =>
        dsimp only
        unfold lockJournal
        rw [if_neg (by rw [hcall.1]; decide)]
        exact ⟨_, rfl, rfl, hcall.2⟩
  · exact ⟨j, rfl, h⟩

/-- Every exit of the part under the lock releases it. -/
theorem free_logBlock (t blockNo : ℕ) (data : Mem) (size : ℕ) (h : j.commitLock = false) :
    Free (logBlock t blockNo data size j).2 := by
  unfold logBlock
  split_ifs
  · exact ⟨rfl, h⟩
  · have h₁ : (j.call kmalloc).2.commitLock = false := h
    cases ha : j.call kmalloc with
    | mk ok j₁ =>
      rw [ha] at h₁
      cases ok with
      | false => exact ⟨rfl, h₁⟩
      | true =>
        have h₂ : (j₁.call kmalloc).2.commitLock = false := h₁
        dsimp only
        cases hb : j₁.call kmalloc with
        | mk ok j₂ =>
          rw [hb] at h₂
          cases ok with
          | false => exact ⟨rfl, h₂⟩
          | true =>
            have h₃ := (sameLocks_alloc j₂).2.trans h₂
            dsimp only
            cases hc : jbd2AllocJournalBlock j₂ with
            | mk slot j₃ =>
              rw [hc] at h₃
              cases slot <;> exact ⟨rfl, h₃⟩

theorem returns_log {blockNo size : ℕ} {data : Mem} (h : Free j) (hlive : (j.find t).isSome) :
    Returns ((jbd2TransLogBlock t blockNo data size j).map Prod.snd) := by
  obtain ⟨x, hx⟩ := Option.isSome_iff_exists.mp hlive
  unfold jbd2TransLogBlock
  split_ifs
  · exact ⟨j, rfl, h⟩
  · rw [hx, Option.bind_eq_bind, Option.bind_some]
    split_ifs
    · exact ⟨j, rfl, h⟩
    · exact ⟨j, rfl, h⟩
    · unfold lockJournal
      rw [if_neg (by rw [h.1]; decide)]
      exact ⟨_, rfl, free_logBlock t blockNo data size h.2⟩
  · exact ⟨j, rfl, h⟩

/-- What a part of the commit leaves: both locks free at an exit, and as they were where it goes on. -/
def Exits (j : Journal) : Except (ℤ × Journal) Journal → Prop
  | .error e => Free e.2
  | .ok j' => SameLocks j j'

theorem free_commitFails (code : ℤ) (h : j.journalLock = false) : Free (commitFails t code j).2 := ⟨h, rfl⟩

theorem sameLocks_write (n size : ℕ) (data : Mem) (purpose : ℕ → Purpose) (j : Journal) :
    SameLocks j (writeJournal n data size purpose j).2 := ⟨rfl, rfl⟩

theorem exits_commitDescriptor (h : j.journalLock = false) : Exits j (commitDescriptor x j) := by
  unfold commitDescriptor
  have hcall : SameLocks j (j.call kmalloc).2 := ⟨rfl, rfl⟩
  dsimp only
  cases ha : j.call kmalloc with
  | mk ok j₁ =>
    rw [ha] at hcall
    cases ok with
    | false => exact free_commitFails _ (hcall.1.trans h)
    | true =>
      dsimp only
      have halloc := hcall.trans (.trans ⟨rfl, rfl⟩
        (sameLocks_alloc (j₁.store (headerSize + 8 * x.blocks.length) j₁.devBlockSize)))
      cases hb : jbd2AllocJournalBlock (j₁.store (headerSize + 8 * x.blocks.length) j₁.devBlockSize) with
      | mk slot j₂ =>
        rw [hb] at halloc
        cases slot with
        | none => exact free_commitFails _ (halloc.1.trans h)
        | some slot =>
          dsimp only
          have hwrite := halloc.trans (sameLocks_write slot j₂.devBlockSize (descriptorBuf x.tid x.blocks)
            (fun _ => .descriptor x.tid) j₂)
          cases hw : writeJournal slot (descriptorBuf x.tid x.blocks) j₂.devBlockSize
              (fun _ => .descriptor x.tid) j₂ with
          | mk ok j₃ =>
            rw [hw] at hwrite
            cases ok with
            | false => exact free_commitFails _ ((hwrite.trans (sameLocks_free j₃)).1.trans h)
            | true => exact hwrite

theorem exits_commitData (done bs : List Block) (h : j.journalLock = false) :
    Exits j (commitData x done bs j) := by
  induction bs generalizing done j with
  | nil => exact ⟨rfl, rfl⟩
  | cons b bs ih =>
    unfold commitData
    have hcall : SameLocks j (j.call kmalloc).2 := ⟨rfl, rfl⟩
    dsimp only
    cases ha : j.call kmalloc with
    | mk ok j₁ =>
      rw [ha] at hcall
      cases ok with
      | false => exact free_commitFails _ (hcall.1.trans h)
      | true =>
        dsimp only
        have hstore : SameLocks j (j₁.store (headerSize + copySize j₁.devBlockSize b.dataSize) j₁.devBlockSize) :=
          hcall.trans ⟨rfl, rfl⟩
        generalize j₁.store (headerSize + copySize j₁.devBlockSize b.dataSize) j₁.devBlockSize = j₂ at hstore ⊢
        have hwrite := hstore.trans (sameLocks_write b.journalBlockNo j₂.devBlockSize
          (dataBuf j₂.devBlockSize x.tid b) (fun _ => .descriptor x.tid) j₂)
        cases hw : writeJournal b.journalBlockNo (dataBuf j₂.devBlockSize x.tid b) j₂.devBlockSize
            (fun _ => .descriptor x.tid) j₂ with
        | mk ok j₃ =>
          rw [hw] at hwrite
          cases ok with
          | false => exact free_commitFails _ (hwrite.1.trans h)
          | true =>
            have hrest := ih (done ++ [{ b with committed := true, inLog := true }]) (hwrite.1.trans h)
            dsimp only
            cases hd : commitData x (done ++ [{ b with committed := true, inLog := true }]) bs j₃ with
            | error e =>
              rw [hd] at hrest
              exact hrest
            | ok j₄ =>
              rw [hd] at hrest
              exact hwrite.trans hrest

theorem free_commitRecord (h : j.journalLock = false) : Free (commitRecord x j).2 := by
  unfold commitRecord
  have hcall : SameLocks j ((j.setState x.address .committing).call kmalloc).2 := ⟨rfl, rfl⟩
  dsimp only
  cases ha : (j.setState x.address .committing).call kmalloc with
  | mk ok j₁ =>
    rw [ha] at hcall
    cases ok with
    | false => exact free_commitFails _ (hcall.1.trans h)
    | true =>
      dsimp only
      have halloc := hcall.trans (.trans ⟨rfl, rfl⟩ (sameLocks_alloc (j₁.store 20 j₁.devBlockSize)))
      cases hb : jbd2AllocJournalBlock (j₁.store 20 j₁.devBlockSize) with
      | mk slot j₂ =>
        rw [hb] at halloc
        cases slot with
        | none => exact free_commitFails _ (halloc.1.trans h)
        | some slot =>
          dsimp only
          have hwrite := halloc.trans (sameLocks_write slot j₂.devBlockSize
            (header typeCommitBlock x.tid x.blocks.length)
            (fun i => .commit x.tid x.blocks (i = totalSectors j₂.devBlockSize - 1)) j₂)
          cases hw : writeJournal slot (header typeCommitBlock x.tid x.blocks.length) j₂.devBlockSize
              (fun i => .commit x.tid x.blocks (i = totalSectors j₂.devBlockSize - 1)) j₂ with
          | mk ok j₃ =>
            rw [hw] at hwrite
            cases ok with
            | false => exact free_commitFails _ ((hwrite.trans (sameLocks_free j₃)).1.trans h)
            | true => exact ⟨hwrite.1.trans h, rfl⟩

theorem free_commit (h : j.journalLock = false) : Free (commit x j).2 := by
  unfold commit
  dsimp only
  have hstart : SameLocks j ((if (j.setState x.address .locked).currentTrans = some x.address then
      { j.setState x.address .locked with currentTrans := none }
      else j.setState x.address .locked).setState x.address .flushing) := by
    split_ifs <;> exact ⟨rfl, rfl⟩
  generalize (if (j.setState x.address .locked).currentTrans = some x.address then
      { j.setState x.address .locked with currentTrans := none }
      else j.setState x.address .locked).setState x.address .flushing = j₁ at hstart ⊢
  have h₁ := hstart.1.trans h
  split_ifs
  · exact free_commitRecord h₁
  · have hdesc := exits_commitDescriptor (x := x) h₁
    cases hd : commitDescriptor x j₁ with
    | error e =>
      rw [hd] at hdesc
      exact hdesc
    | ok j₂ =>
      rw [hd] at hdesc
      have hdata := exits_commitData (x := x) [] x.blocks (hdesc.1.trans h₁)
      simp only [bind, Except.bind]
      cases he : commitData x [] x.blocks j₂ with
      | error e =>
        rw [he] at hdata
        exact hdata
      | ok j₃ =>
        rw [he] at hdata
        exact free_commitRecord (hdata.1.trans (hdesc.1.trans h₁))

theorem returns_commit (h : Free j) (hlive : (j.find t).isSome) :
    Returns ((jbd2TransCommit t j).map Prod.snd) := by
  obtain ⟨x, hx⟩ := Option.isSome_iff_exists.mp hlive
  unfold jbd2TransCommit
  split_ifs
  · rw [hx, Option.bind_eq_bind, Option.bind_some]
    split_ifs
    · exact ⟨j, rfl, h⟩
    · unfold lockCommit
      rw [if_neg (by rw [h.2]; decide)]
      exact ⟨_, rfl, free_commit h.1⟩
  · exact ⟨j, rfl, h⟩

/-- An abort returns if the journal lock is free, and waits for ever if its caller holds it. -/
theorem returns_abort (h : Free j) (hlive : (j.find t).isSome) : Returns (jbd2TransAbort t j) := by
  obtain ⟨x, hx⟩ := Option.isSome_iff_exists.mp hlive
  unfold jbd2TransAbort lockJournal
  simp only [hx, h.1, Option.bind_eq_bind, Option.bind_some, Bool.false_eq_true, if_false]
  refine ⟨_, rfl, (sameLocks_freeInLog _ _).free ⟨rfl, ?_⟩⟩
  have hfree := (sameLocks_freeInLog (x.blocks.map fun b => { b with revoked := true, dirty := false })
    { j with journalLock := true }).2.trans h.2
  split_ifs <;> exact hfree

theorem abort_locked (h : j.journalLock = true) : jbd2TransAbort t j = none := by
  unfold jbd2TransAbort lockJournal
  cases j.find t <;> simp [h]

theorem returns_checkpoint (h : Free j) : Returns ((jbd2JournalCheckpoint j).map Prod.snd) := by
  unfold jbd2JournalCheckpoint lockCommit
  split_ifs with hinit hlock
  · rw [h.2] at hlock
    exact absurd hlock (by decide)
  · exact ⟨_, rfl, (sameLocks_checkpointTrans _ _).1.trans h.1, rfl⟩
  · exact ⟨j, rfl, h⟩

/-- A flush of a journal in use asks for the commit lock twice. -/
theorem flush_initialized (h : j.initialized = true) : jbd2JournalFlush j = none := by
  unfold jbd2JournalFlush
  rw [if_pos h]
  cases hlock : lockCommit j with
  | none => rfl
  | some j₁ =>
    obtain ⟨hinit, hheld⟩ : j₁.initialized = true ∧ j₁.commitLock = true := by
      unfold lockCommit at hlock
      split_ifs at hlock
      rw [← Option.some.inj hlock]
      exact ⟨h, rfl⟩
    have hagain : jbd2JournalCheckpoint j₁ = none := by
      unfold jbd2JournalCheckpoint lockCommit
      rw [if_pos hinit, if_pos hheld]
      rfl
    simp [hagain]

theorem returns_getStats (h : Free j) : Returns ((jbd2GetStats j).map Prod.snd) := by
  unfold jbd2GetStats lockJournal
  split_ifs with hinit hlock
  · rw [h.1] at hlock
    exact absurd hlock (by decide)
  · exact ⟨_, rfl, rfl, h.2⟩
  · exact ⟨j, rfl, h⟩

theorem sameLocks_freeAll (xs : List Transaction) (j : Journal) :
    SameLocks j (xs.foldl (fun j x => jbd2FreeTransaction x j) j) := by
  induction xs generalizing j with
  | nil => exact .refl j
  | cons x xs ih => exact (sameLocks_freeInLog x.blocks j).trans (ih _)

theorem returns_destroy (h : Free j) (hcur : j.initialized = true → j.currentTrans = none) :
    Returns (jbd2JournalDestroy j) := by
  unfold jbd2JournalDestroy lockJournal destroyCurrent
  split_ifs with hinit hlock
  · rw [h.1] at hlock
    exact absurd hlock (by decide)
  · simp only [hcur hinit, Option.bind_eq_bind, Option.bind_some]
    exact ⟨_, rfl, rfl, (sameLocks_freeAll _ _).2.trans h.2⟩
  · exact ⟨j, rfl, h⟩

/-- A destroy with a running transaction asks for the journal lock twice. -/
theorem destroy_running (hinit : j.initialized = true) (ht : j.currentTrans = some t) :
    jbd2JournalDestroy j = none := by
  unfold jbd2JournalDestroy lockJournal
  rw [if_pos hinit]
  split_ifs
  · rfl
  · simp [destroyCurrent, ht, abort_locked]

/-- The call is on a transaction that was not freed. -/
def Live (j : Journal) : Op → Prop
  | .log t _ _ _ | .commit t | .abort t => (j.find t).isSome
  | _ => True

/-- The calls that wait for a lock they hold: a destroy with a running transaction, whose abort asks for the
journal lock again, and a flush, whose checkpoint asks for the commit lock again. -/
def Deadlocks (j : Journal) : Op → Prop
  | .destroy => j.initialized = true ∧ j.currentTrans ≠ none
  | .flush => j.initialized = true
  | _ => False

theorem returns_iff (h : Free j) (op : Op) (hlive : Live j op) : Returns (step j op) ↔ ¬ Deadlocks j op := by
  cases op with
  | init devBlockSize journalStart journalBlocks =>
    exact iff_of_true ⟨_, rfl, free_init _ _ _ h⟩ id
  | load => exact iff_of_true ⟨_, rfl, (sameLocks_load j).free h⟩ id
  | destroy =>
    constructor
    · rintro ⟨j', hj', -⟩ ⟨hinit, hcur⟩
      obtain ⟨t, ht⟩ := Option.ne_none_iff_exists'.mp hcur
      rw [step, destroy_running hinit ht] at hj'
      exact nomatch hj'
    · intro hsafe
      apply returns_destroy h
      intro hinit
      by_contra hcur
      exact hsafe ⟨hinit, hcur⟩
  | start => exact iff_of_true (returns_start h) id
  | log t blockNo data size => exact iff_of_true (returns_log h hlive) id
  | commit t => exact iff_of_true (returns_commit h hlive) id
  | abort t => exact iff_of_true (returns_abort h hlive) id
  | flush =>
    constructor
    · rintro ⟨j', hj', -⟩ hinit
      rw [step, flush_initialized hinit] at hj'
      exact nomatch hj'
    · intro hsafe
      have hinit : ¬ j.initialized = true := hsafe
      rw [step, jbd2JournalFlush, if_neg hinit]
      exact ⟨j, rfl, h⟩
  | checkpoint => exact iff_of_true (returns_checkpoint h) id
  | getStats => exact iff_of_true (returns_getStats h) id

/-- A machine whose disk is empty and whose calls all succeed. -/
def blankMachine : Machine := ⟨fun _ _ => 0, [], fun _ => true, fun _ => true, 0, 0, fun _ => 0, false⟩

/-- The journal as the kernel starts with it. -/
def blankJournal : Journal :=
  ⟨0, 0, 0, 0, none, none, [], false, false, 0, 0, ⟨0, 0, 0, 0⟩, false, blankMachine, 1⟩

end Jbd2
