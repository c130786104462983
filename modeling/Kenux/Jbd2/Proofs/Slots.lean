import Kenux.Jbd2.Proofs.Effects
import Kenux.Jbd2.Proofs.Locks

/-!
# The journal blocks that transactions hold
-/

namespace Jbd2

open Memory Disk Run

variable {j j' : Journal} {x : Transaction} {t : ℕ} {P : Write Purpose → Prop} {fits : Prop}

/-! ## The list of transactions -/

theorem find_mem (h : j.find t = some x) : x ∈ j.trans ∧ x.address = t := by
  refine ⟨List.mem_of_find?_eq_some h, ?_⟩
  have := List.find?_some h
  simpa using this

/-- The journal blocks of transactions in a list. -/
def slotsOf (xs : List Transaction) : List ℕ := xs.flatMap fun x => x.slots

/-- A transaction stands alone in a list without two of one address. -/
theorem split_at {xs : List Transaction} (hnodup : (xs.map fun x => x.address).Nodup) (hx : x ∈ xs) :
    ∃ as bs, xs = as ++ x :: bs ∧ (∀ y ∈ as, y.address ≠ x.address) ∧ ∀ y ∈ bs, y.address ≠ x.address := by
  obtain ⟨as, bs, rfl⟩ := List.append_of_mem hx
  rw [List.map_append, List.map_cons, List.nodup_append] at hnodup
  obtain ⟨-, hbs, hne⟩ := hnodup
  refine ⟨as, bs, rfl, fun y hy heq => ?_, fun y hy heq => ?_⟩
  · exact hne _ (List.mem_map_of_mem hy) _ List.mem_cons_self heq
  · exact (List.nodup_cons.mp hbs).1 (heq ▸ List.mem_map_of_mem hy)

theorem slotsOf_modify {xs : List Transaction} (hnodup : (xs.map fun x => x.address).Nodup) (hx : x ∈ xs)
    {f : Transaction → Transaction} {slots : List ℕ} (hf : (f x).slots = x.slots ++ slots) :
    (slotsOf (xs.map fun y => if y.address = x.address then f y else y)).Perm (slotsOf xs ++ slots) := by
  obtain ⟨as, bs, rfl, has, hbs⟩ := split_at hnodup hx
  have hmap (ys : List Transaction) (hys : ∀ y ∈ ys, y.address ≠ x.address) :
      ys.map (fun y => if y.address = x.address then f y else y) = ys := by
    rw [List.map_congr_left fun y hy => if_neg (hys y hy)]
    exact List.map_id ys
  unfold slotsOf
  simp only [List.map_append, List.map_cons, hmap as has, hmap bs hbs, if_true, List.flatMap_append,
    List.flatMap_cons, hf, List.append_assoc]
  apply List.Perm.append_left
  apply List.Perm.append_left
  exact List.perm_append_comm

theorem slotsOf_remove {xs : List Transaction} (hnodup : (xs.map fun x => x.address).Nodup) (hx : x ∈ xs) :
    (slotsOf xs).Perm (x.slots ++ slotsOf (xs.filter fun y => y.address ≠ x.address)) := by
  obtain ⟨as, bs, rfl, has, hbs⟩ := split_at hnodup hx
  have hfilter (ys : List Transaction) (hys : ∀ y ∈ ys, y.address ≠ x.address) :
      ys.filter (fun y => decide (y.address ≠ x.address)) = ys :=
    List.filter_eq_self.mpr fun y hy => decide_eq_true (hys y hy)
  unfold slotsOf
  rw [List.filter_append, List.filter_cons_of_neg (by simp), hfilter as has, hfilter bs hbs, List.flatMap_append,
    List.flatMap_append, List.flatMap_cons, ← List.append_assoc, ← List.append_assoc]
  exact List.perm_append_comm.append_right _

/-- What holds of the list of transactions in every run: two of them have two addresses, and the blocks that are
logged have blocks of the journal. -/
structure Tidy (j : Journal) : Prop where
  addresses : (j.trans.map fun x => x.address).Nodup
  fresh : ∀ x ∈ j.trans, x.address < j.nextAddress
  blocks : ∀ x ∈ j.trans, ∀ b ∈ x.blocks, 1 ≤ b.journalBlockNo ∧ b.journalBlockNo < j.journalBlocks
  size : 3 ≤ j.journalBlocks

theorem Tidy.eq_of_address (h : Tidy j) {y : Transaction} (hx : x ∈ j.trans) (hy : y ∈ j.trans)
    (heq : y.address = x.address) : y = x :=
  List.inj_on_of_nodup_map h.addresses hy hx heq

theorem Tidy.start {r : Option ℕ} (h : Tidy j) (hstart : jbd2TransStart j = some (r, j')) : Tidy j' := by
  obtain ⟨-, hplace, -, hsame | hnew⟩ := @start_cases _ _ (fun _ => True) True _ hstart
  · obtain ⟨htrans, -, haddr⟩ := hsame
    have hjb : j'.journalBlocks = j.journalBlocks := congrArg (·.2.2.1) hplace
    refine ⟨?_, ?_, ?_, ?_⟩
    · rw [htrans]; exact h.addresses
    · rw [htrans, haddr]; exact h.fresh
    · rw [htrans, hjb]; exact h.blocks
    · rw [hjb]; exact h.size
  · obtain ⟨htrans, -, haddr⟩ := hnew
    have hjb : j'.journalBlocks = j.journalBlocks := congrArg (·.2.2.1) hplace
    refine ⟨?_, ?_, ?_, ?_⟩
    · rw [htrans, List.map_append, List.nodup_append]
      refine ⟨h.addresses, List.nodup_singleton _, fun a ha b hb => ?_⟩
      obtain ⟨y, hy, rfl⟩ := List.mem_map.mp ha
      rw [List.mem_singleton.mp hb]
      exact Nat.ne_of_lt (h.fresh y hy)
    · rw [htrans, haddr]
      intro y hy
      rcases List.mem_append.mp hy with hy | hy
      · exact Nat.lt_succ_of_lt (h.fresh y hy)
      · rw [List.mem_singleton.mp hy]
        exact Nat.lt_succ_self j.nextAddress
    · rw [htrans, hjb]
      intro y hy b hb
      rcases List.mem_append.mp hy with hy | hy
      · exact h.blocks y hy b hb
      · rw [List.mem_singleton.mp hy] at hb
        exact nomatch hb
    · rw [hjb]; exact h.size

/-- A change of one transaction that keeps its address. -/
theorem Tidy.modify (h : Tidy j) {f : Transaction → Transaction} (hx : x ∈ j.trans)
    (haddr : ∀ y, (f y).address = y.address)
    (hblocks : ∀ b ∈ (f x).blocks, 1 ≤ b.journalBlockNo ∧ b.journalBlockNo < j.journalBlocks)
    (htrans : j'.trans = j.trans.map fun y => if y.address = x.address then f y else y)
    (hjb : j'.journalBlocks = j.journalBlocks) (hnext : j'.nextAddress = j.nextAddress) : Tidy j' := by
  have hkeep (y : Transaction) : (if y.address = x.address then f y else y).address = y.address := by
    split_ifs
    · exact haddr y
    · rfl
  refine ⟨?_, ?_, ?_, hjb ▸ h.size⟩
  · have hmap : (j'.trans.map fun y => y.address) = j.trans.map fun y => y.address := by
      rw [htrans, List.map_map]
      exact List.map_congr_left fun y _ => hkeep y
    exact hmap ▸ h.addresses
  · rw [htrans, hnext]
    intro y hy
    obtain ⟨z, hz, rfl⟩ := List.mem_map.mp hy
    rw [hkeep]
    exact h.fresh z hz
  · rw [htrans, hjb]
    intro y hy b hb
    obtain ⟨z, hz, rfl⟩ := List.mem_map.mp hy
    split_ifs at hb with hzx
    · rw [h.eq_of_address hx hz hzx] at hb
      exact hblocks b hb
    · exact h.blocks z hz b hb

theorem Tidy.log {blockNo size : ℕ} {data : Mem} {r : ℤ} (h : Tidy j)
    (hlog : jbd2TransLogBlock t blockNo data size j = some (r, j')) : Tidy j' := by
  obtain ⟨-, hplace, -, haddr, hcases⟩ := @log_cases _ _ _ (fun _ => True) True _ _ _ _ hlog
  have hjb : j'.journalBlocks = j.journalBlocks := congrArg (·.2.2.1) hplace
  rcases hcases with ⟨-, htrans⟩ | ⟨x, hx, -, -, -, -, htrans⟩
  · exact ⟨htrans ▸ h.addresses, htrans ▸ haddr ▸ h.fresh, htrans ▸ hjb ▸ h.blocks, hjb ▸ h.size⟩
  · obtain ⟨hmem, rfl⟩ := find_mem hx
    refine h.modify (f := addBlock (newBlock j blockNo data size)) hmem (fun _ => rfl) (fun b hb => ?_) htrans hjb
      haddr
    rcases List.mem_append.mp hb with hb | hb
    · exact h.blocks x hmem b hb
    · rw [List.mem_singleton.mp hb]
      have := h.size
      exact slotAt_range (by omega)

theorem mem_of_shape {bs cs : List Block} (h : bs.map shape = cs.map shape) {b : Block} (hb : b ∈ bs) :
    ∃ c ∈ cs, c.journalBlockNo = b.journalBlockNo ∧ c.dataSize = b.dataSize := by
  have hmem : shape b ∈ cs.map shape := h ▸ List.mem_map_of_mem hb
  obtain ⟨c, hc, heq⟩ := List.mem_map.mp hmem
  exact ⟨c, hc, congrArg Prod.fst heq, congrArg Prod.snd heq⟩

theorem Tidy.part {n : ℕ} (h : Tidy j) (hx : x ∈ j.trans) (hpart : Part x P fits n j j') : Tidy j' := by
  obtain ⟨f, hf, htrans⟩ := hpart.trans
  refine h.modify hx hf.address (fun b hb => ?_) htrans hpart.journalBlocks (congrArg (·.2.2.2.2.1) hpart.setup)
  obtain ⟨c, hc, heq, -⟩ := mem_of_shape (hf.blocks x rfl) hb
  exact heq ▸ h.blocks x hx c hc

theorem Tidy.abort (h : Tidy j) (habort : jbd2TransAbort t j = some j') : Tidy j' := by
  obtain ⟨x, -, -, hplace, -, haddr, -, htrans⟩ := @abort_cases _ _ _ True habort
  have hjb : j'.journalBlocks = j.journalBlocks := congrArg (·.2.2.1) hplace
  have hsub : j'.trans.Sublist j.trans := htrans ▸ List.filter_sublist
  refine ⟨h.addresses.sublist (hsub.map _), ?_, ?_, hjb ▸ h.size⟩
  · rw [haddr]
    exact fun y hy => h.fresh y (hsub.subset hy)
  · rw [hjb]
    exact fun y hy => h.blocks y (hsub.subset hy)

/-! ## The blocks held -/

/-- The journal blocks of the transactions that are neither checkpointed nor aborted. -/
def held (j : Journal) : List ℕ := slotsOf j.trans

/-- They are distinct blocks of the journal behind its superblock, and `used_blocks` is how many there are. -/
structure SlotsOk (j : Journal) : Prop where
  nodup : (held j).Nodup
  range : ∀ s ∈ held j, 1 ≤ s ∧ s < j.journalBlocks
  used : j.usedBlocks = (held j).length

/-- The calls that keep it so. The block that a log takes, or the blocks that a commit takes, are not held; an
abort gives back, counting each block in the log twice, as many blocks as the transaction holds; and no transaction
is finished when a checkpoint is made. -/
def KeepsSlots (j : Journal) : Op → Prop
  | .start => True
  | .log _ _ _ _ => slotAt j.journalBlocks j.usedBlocks ∉ held j
  | .commit t => ∀ x, j.find t = some x → x.state ≠ .finished → x.state ≠ .committing →
      ∀ i < (if x.blocks = [] then 1 else 2), j.usedBlocks + i < j.journalBlocks →
        slotAt j.journalBlocks (j.usedBlocks + i) ∉ held j
  | .abort t => ∀ x, j.find t = some x → min j.usedBlocks (2 * inLogCount x.blocks) = x.slots.length
  | .checkpoint => ∀ x ∈ j.trans, x.state ≠ .finished
  | _ => False

/-- Blocks that were not held are put to a transaction. -/
theorem SlotsOk.take {slots : List ℕ} (h : SlotsOk j) (hperm : (held j').Perm (held j ++ slots)) (hnodup : slots.Nodup)
    (hfree : ∀ s ∈ slots, s ∉ held j) (hrange : ∀ s ∈ slots, 1 ≤ s ∧ s < j.journalBlocks)
    (hused : j'.usedBlocks = j.usedBlocks + slots.length) (hjb : j'.journalBlocks = j.journalBlocks) : SlotsOk j' := by
  refine ⟨?_, fun s hs => ?_, ?_⟩
  · rw [hperm.nodup_iff, List.nodup_append]
    exact ⟨h.nodup, hnodup, fun a ha b hb heq => hfree b hb (heq ▸ ha)⟩
  · rw [hjb]
    rcases List.mem_append.mp (hperm.mem_iff.mp hs) with hs | hs
    · exact h.range s hs
    · exact hrange s hs
  · rw [hused, hperm.length_eq, List.length_append, h.used]

theorem SlotsOk.start {r : Option ℕ} (h : SlotsOk j) (hstart : jbd2TransStart j = some (r, j')) : SlotsOk j' := by
  obtain ⟨-, hplace, hused, hcases⟩ := @start_cases _ _ (fun _ => True) True _ hstart
  have hjb : j'.journalBlocks = j.journalBlocks := congrArg (·.2.2.1) hplace
  have hheld : held j' = held j := by
    unfold held slotsOf
    rcases hcases with ⟨htrans, -⟩ | ⟨htrans, -⟩
    · rw [htrans]
    · rw [htrans, List.flatMap_append]
      exact List.append_nil _
  exact ⟨hheld ▸ h.nodup, hheld ▸ hjb ▸ h.range, by rw [hused, hheld, h.used]⟩

theorem SlotsOk.log {blockNo size : ℕ} {data : Mem} {r : ℤ} (h : SlotsOk j) (hj : Tidy j)
    (hlog : jbd2TransLogBlock t blockNo data size j = some (r, j'))
    (hfree : slotAt j.journalBlocks j.usedBlocks ∉ held j) : SlotsOk j' := by
  obtain ⟨-, hplace, -, -, hcases⟩ := @log_cases _ _ _ (fun _ => True) True _ _ _ _ hlog
  have hjb : j'.journalBlocks = j.journalBlocks := congrArg (·.2.2.1) hplace
  rcases hcases with ⟨hused, htrans⟩ | ⟨x, hx, -, -, -, hused, htrans⟩
  · have hheld : held j' = held j := congrArg slotsOf htrans
    exact ⟨hheld ▸ h.nodup, hheld ▸ hjb ▸ h.range, by rw [hused, hheld, h.used]⟩
  · obtain ⟨hmem, rfl⟩ := find_mem hx
    have hperm : (held j').Perm (held j ++ [slotAt j.journalBlocks j.usedBlocks]) := by
      unfold held
      rw [htrans]
      exact slotsOf_modify hj.addresses hmem rfl
    have := hj.size
    refine h.take hperm (List.nodup_singleton _) (fun s hs => ?_) (fun s hs => ?_) hused hjb
    · exact List.mem_singleton.mp hs ▸ hfree
    · exact List.mem_singleton.mp hs ▸ slotAt_range (by omega)

/-- Two allocations in a row yield two blocks. -/
theorem slotsFrom_nodup {journalBlocks used n : ℕ} (hjb : 3 ≤ journalBlocks) (hn : n ≤ 2) :
    (slotsFrom journalBlocks used n).Nodup := by
  unfold slotsFrom
  refine List.Nodup.map_on (fun i hi k hk heq => ?_) List.nodup_range
  have hi := List.mem_range.mp hi
  have hk := List.mem_range.mp hk
  have hmod : (used + i) % (journalBlocks - 1) = (used + k) % (journalBlocks - 1) := by
    unfold slotAt at heq
    omega
  have hik : i % (journalBlocks - 1) = k % (journalBlocks - 1) := Nat.ModEq.add_left_cancel' used hmod
  rwa [Nat.mod_eq_of_lt (by omega), Nat.mod_eq_of_lt (by omega)] at hik

/-- No more blocks are held than the journal has. -/
theorem SlotsOk.used_le (h : SlotsOk j) : j.usedBlocks ≤ j.journalBlocks := by
  have hsub : held j ⊆ List.range j.journalBlocks := fun s hs => List.mem_range.mpr (h.range s hs).2
  rw [h.used]
  exact (List.subperm_of_subset h.nodup hsub).length_le.trans_eq (List.length_range ..)

theorem SlotsOk.part {n : ℕ} (h : SlotsOk j) (hj : Tidy j) (hx : x ∈ j.trans) (hpart : Part x P fits n j j')
    (hn : n ≤ 2) (hfree : ∀ i < n, j.usedBlocks + i < j.journalBlocks →
      slotAt j.journalBlocks (j.usedBlocks + i) ∉ held j) : SlotsOk j' := by
  obtain ⟨f, hf, htrans⟩ := hpart.trans
  have hroom := hpart.room h.used_le
  have hperm : (held j').Perm (held j ++ slotsFrom j.journalBlocks j.usedBlocks n) := by
    unfold held
    rw [htrans]
    exact slotsOf_modify hj.addresses hx (hf.slots x)
  have hsize := hj.size
  refine h.take hperm (slotsFrom_nodup hsize hn) (fun s hs => ?_) (fun s hs => ?_) ?_ hpart.journalBlocks
  · obtain ⟨i, hi, rfl⟩ := List.mem_map.mp hs
    have hi := List.mem_range.mp hi
    exact hfree i hi (by omega)
  · obtain ⟨i, -, rfl⟩ := List.mem_map.mp hs
    exact slotAt_range (by omega)
  · rw [hpart.used, slotsFrom, List.length_map, List.length_range]

theorem SlotsOk.commit {r : ℤ} (h : SlotsOk j) (hj : Tidy j) (hcommit : jbd2TransCommit t j = some (r, j'))
    (hfree : KeepsSlots j (.commit t)) : SlotsOk j' ∧ Tidy j' := by
  rcases commit_cases hcommit with rfl | ⟨x, hx, hfinished, hcommitting, rfl⟩
  · exact ⟨h, hj⟩
  · obtain ⟨hmem, -⟩ := find_mem hx
    have hsize := hj.size
    obtain ⟨n, hn, hpart⟩ := (part_commit x { j with commitLock := true } (by dsimp only; omega)
      (hj.blocks x hmem)).1
    have hj' : Tidy { j with commitLock := true } := ⟨hj.addresses, hj.fresh, hj.blocks, hj.size⟩
    have h' : SlotsOk { j with commitLock := true } := ⟨h.nodup, h.range, h.used⟩
    have htwo : n ≤ 2 := hn.trans (by split_ifs <;> omega)
    exact ⟨h'.part hj' hmem hpart htwo fun i hi => hfree x hx hfinished hcommitting i (by omega), hj'.part hmem hpart⟩

theorem SlotsOk.abort (h : SlotsOk j) (hj : Tidy j) (habort : jbd2TransAbort t j = some j')
    (hback : KeepsSlots j (.abort t)) : SlotsOk j' := by
  obtain ⟨x, hx, -, hplace, -, -, hused, htrans⟩ := @abort_cases _ _ _ True habort
  have hjb : j'.journalBlocks = j.journalBlocks := congrArg (·.2.2.1) hplace
  have hcount := hback x hx
  obtain ⟨hmem, rfl⟩ := find_mem hx
  have hperm : (held j).Perm (x.slots ++ held j') := by
    unfold held
    rw [htrans]
    exact slotsOf_remove hj.addresses hmem
  refine ⟨?_, fun s hs => ?_, ?_⟩
  · exact (List.nodup_append.mp (hperm.nodup_iff.mp h.nodup)).2.1
  · rw [hjb]
    exact h.range s (hperm.mem_iff.mpr (List.mem_append_right _ hs))
  · have hlen := hperm.length_eq
    rw [List.length_append, ← h.used] at hlen
    omega

theorem checkpointTrans_idle {xs : List Transaction} (h : ∀ x ∈ xs, x.state ≠ .finished) (j : Journal) :
    checkpointTrans xs j = (0, j) := by
  induction xs with
  | nil => rfl
  | cons x xs ih =>
    unfold checkpointTrans
    rw [if_pos (h x List.mem_cons_self), ih fun y hy => h y (List.mem_cons_of_mem _ hy)]

/-- A checkpoint that finds no finished transaction changes neither the transactions nor the counter. -/
theorem checkpoint_idle {r : ℤ} (h : ∀ x ∈ j.trans, x.state ≠ .finished)
    (hcheckpoint : jbd2JournalCheckpoint j = some (r, j')) :
    j'.trans = j.trans ∧ j'.usedBlocks = j.usedBlocks ∧ j'.journalBlocks = j.journalBlocks ∧
      j'.nextAddress = j.nextAddress := by
  unfold jbd2JournalCheckpoint lockCommit at hcheckpoint
  split_ifs at hcheckpoint
  · simp at hcheckpoint
  · simp only [Option.bind_eq_bind, Option.bind_some, checkpointTrans_idle h] at hcheckpoint
    rw [← (Prod.mk.inj (Option.some.inj hcheckpoint)).2]
    exact ⟨rfl, rfl, rfl, rfl⟩
  · rw [← (Prod.mk.inj (Option.some.inj hcheckpoint)).2]
    exact ⟨rfl, rfl, rfl, rfl⟩

theorem slots_step {op : Op} (h : SlotsOk j ∧ Tidy j) (hop : KeepsSlots j op) (hstep : step j op = some j') :
    SlotsOk j' ∧ Tidy j' := by
  obtain ⟨hslots, hj⟩ := h
  cases op with
  | start =>
    obtain ⟨⟨r, k⟩, hr, rfl⟩ := Option.map_eq_some_iff.mp hstep
    exact ⟨hslots.start hr, hj.start hr⟩
  | log t blockNo data size =>
    obtain ⟨⟨r, k⟩, hr, rfl⟩ := Option.map_eq_some_iff.mp hstep
    exact ⟨hslots.log hj hr hop, hj.log hr⟩
  | commit t =>
    obtain ⟨⟨r, k⟩, hr, rfl⟩ := Option.map_eq_some_iff.mp hstep
    exact hslots.commit hj hr hop
  | abort t => exact ⟨hslots.abort hj hstep hop, hj.abort hstep⟩
  | checkpoint =>
    obtain ⟨⟨r, k⟩, hr, rfl⟩ := Option.map_eq_some_iff.mp hstep
    obtain ⟨htrans, hused, hjb, haddr⟩ := checkpoint_idle hop hr
    have hheld : held k = held j := congrArg slotsOf htrans
    refine ⟨⟨hheld ▸ hslots.nodup, hheld ▸ hjb ▸ hslots.range, ?_⟩, htrans ▸ hj.addresses, htrans ▸ haddr ▸ hj.fresh,
      htrans ▸ hjb ▸ hj.blocks, hjb ▸ hj.size⟩
    change k.usedBlocks = _
    rw [hused, hheld, hslots.used]
  | init | load | destroy | flush | getStats => exact hop.elim

/-- What a successful `jbd2_journal_init` leaves: no transaction, and a journal of at least 16 blocks. -/
theorem init_fresh {devBlockSize journalStart journalBlocks : ℕ}
    (h : jbd2JournalInit devBlockSize journalStart journalBlocks j = (0, j')) :
    j'.trans = [] ∧ 16 ≤ j'.journalBlocks := by
  unfold jbd2JournalInit at h
  split_ifs at h with hargs
  · exact absurd (Prod.mk.inj h).1 (by decide)
  · obtain ⟨-, hlarge⟩ := not_or.mp hargs
    have hlarge : 16 ≤ journalBlocks := by omega
    rw [← (Prod.mk.inj h).2]
    dsimp only
    split
    · split_ifs
      · exact ⟨rfl, hlarge⟩
      · exact ⟨rfl, hlarge⟩
    · exact ⟨rfl, hlarge⟩

/-- From a journal that is set up with no block in use, in every run of calls that keep them so, the journal blocks
that are held are distinct and counted. -/
theorem jbd2_slots (devBlockSize journalStart journalBlocks : ℕ) (j₀ j₁ j : Journal)
    (hinit : jbd2JournalInit devBlockSize journalStart journalBlocks j₀ = (0, j₁)) (hused : j₁.usedBlocks = 0)
    (hrun : Reach step KeepsSlots j₁ j) : SlotsOk j := by
  obtain ⟨htrans, hjb⟩ := init_fresh hinit
  have hheld : held j₁ = [] := congrArg slotsOf htrans
  have hslots : SlotsOk j₁ := ⟨hheld ▸ List.nodup_nil, by simp [hheld], by rw [hused, hheld]; rfl⟩
  have htidy : Tidy j₁ := ⟨htrans ▸ List.nodup_nil, by simp [htrans], by simp [htrans], by omega⟩
  exact (hrun.invariant ⟨hslots, htidy⟩ fun s op s' hs hop hstep => slots_step hs hop hstep).1

/-- A journal on an empty device, with a transaction, and with a block logged. -/
def freshJournal : Journal := (jbd2JournalInit 4608 0 16 blankJournal).2

def startedJournal : Journal := (step freshJournal .start).getD freshJournal

def loggedJournal : Journal := (step startedJournal (.log 1 1000 (fun _ => 7) 8)).getD startedJournal

theorem jbd2_slots_logged : SlotsOk loggedJournal := by
  have hstart : Reach step KeepsSlots freshJournal startedJournal := .step .start .start trivial rfl
  have hfree : slotAt startedJournal.journalBlocks startedJournal.usedBlocks ∉ held startedJournal := by decide
  exact jbd2_slots 4608 0 16 blankJournal freshJournal loggedJournal rfl rfl
    (.step (.log 1 1000 (fun _ => 7) 8) hstart hfree rfl)

/-- After a checkpoint of a transaction with one block two journal blocks stay counted, and none is held. -/
theorem jbd2_slots_leak : ∃ j, run step loggedJournal [.commit 1, .checkpoint] = some j ∧
    j.usedBlocks = 2 ∧ held j = [] ∧ ¬ SlotsOk j := by
  refine ⟨_, rfl, by decide, by decide, ?_⟩
  intro h
  exact absurd h.used (by decide)

end Jbd2
