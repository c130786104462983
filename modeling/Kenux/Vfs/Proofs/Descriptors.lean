import Kenux.Lib.Run
import Kenux.Vfs.Nodes
import Kenux.Vfs.Proofs.Paths

/-!
# The table of descriptors

Descriptors come from a counter that never goes back. A slot that it reaches is free unless `vfs_dup2` has put a file
there, and nodes are freed without a look at the table.
-/

namespace Vfs

variable {ν : Type} [DecidableEq ν] {s s' : State ν} {n child : ν} {path : List UInt8} {fd : ℕ}

/-! ## Calls -/

inductive FdCall (ν : Type) where
  | open (path : List UInt8)
  | close (fd : ℕ)
  | dup (fd : ℕ)
  | dup2 (oldfd newfd : ℕ)
  | pipe (fresh : Option ν)
  | unlink (path : List UInt8)
  | rmdir (path : List UInt8)

/-- The descriptors that a call hands out, and the state after it. -/
def perform (s : State ν) : FdCall ν → List ℕ × State ν
  | .open path => ((vfsOpen s path).1.toList, (vfsOpen s path).2)
  | .close fd => ([], (vfsClose s fd).2)
  | .dup fd => ((vfsDup s fd).1.toList, (vfsDup s fd).2)
  | .dup2 oldfd newfd => ([], (vfsDup2 s oldfd newfd).2)
  | .pipe fresh => ((vfsPipe s fresh).1.toList.flatMap fun fds => [fds.1, fds.2], (vfsPipe s fresh).2)
  | .unlink path => ([], (vfsUnlink s path).2)
  | .rmdir path => ([], (vfsRmdir s path).2)

def descriptorStep (s : State ν) (c : FdCall ν) : Option (State ν) := some (perform s c).2

/-- The descriptor that a call is asked to change. -/
def target : FdCall ν → Option ℕ
  | .close fd => some fd
  | .dup2 _ newfd => some newfd
  | _ => none

def OpenAlive (s : State ν) : Prop := ∀ fd file, s.openFiles fd = some file → s.alive file.node

/-- What a call should do to the table. -/
structure Right (s : State ν) (c : FdCall ν) : Prop where
  fresh : ∀ fd ∈ (perform s c).1, s.openFiles fd = none
  kept : ∀ fd file, fd ∉ (perform s c).1 → target c ≠ some fd → s.openFiles fd = some file →
    (perform s c).2.openFiles fd = some file
  same : ∀ fd, c = .dup2 fd fd → s.openFiles fd ≠ none → (perform s c).2.openFiles fd ≠ none
  full : ∀ path, c = .open path → (perform s c).1 = [] → vfsFindPath s.tree path ≠ none →
    ∀ fd < maxOpenFds, s.openFiles fd ≠ none
  alive : OpenAlive (perform s c).2

/-- The node that a removal frees. -/
def doomed (s : State ν) (path : List UInt8) (refused : Node ν → Bool) : Option ν := do
  let (parent, name) ← parentAndName s path
  let child ← (s.node parent).children.find? fun c => (s.node c).name = name
  if refused (s.node child) then none else some child

def NotOpen (s : State ν) (n : Option ν) : Prop := ∀ fd file, s.openFiles fd = some file → n ≠ some file.node

/-- The slots that the counter has come to are free, nothing is to be freed that is open, and a descriptor is not to be
copied to itself. -/
def FdOk (s : State ν) : FdCall ν → Prop
  | .open path => vfsFindPath s.tree path ≠ none →
      if s.nextFd < maxOpenFds then s.openFiles s.nextFd = none else ∀ fd < maxOpenFds, s.openFiles fd ≠ none
  | .close _ => True
  | .dup fd => s.openFiles fd ≠ none → s.nextFd < maxOpenFds → s.openFiles s.nextFd = none
  | .dup2 oldfd newfd => oldfd = newfd → s.openFiles oldfd = none
  | .pipe fresh => fresh ≠ none → s.nextFd < maxOpenFds - 1 →
      s.openFiles s.nextFd = none ∧ s.openFiles (s.nextFd + 1) = none
  | .unlink path => NotOpen s (doomed s path fun n => n.type = .directory)
  | .rmdir path => NotOpen s (doomed s path fun n => n.children ≠ [])

/-! ## The invariant -/

/-- The nodes make a forest of allocated nodes, with the root of the tree as one of its roots. -/
structure Sound (s : State ν) : Prop where
  root : s.alive s.root
  children : ∀ n, s.alive n → ∀ c ∈ (s.node n).children, s.alive c
  nodup : ∀ n, s.alive n → (s.node n).children.Nodup
  once : ∀ n n' c, s.alive n → s.alive n' → c ∈ (s.node n).children → c ∈ (s.node n').children → n = n'
  rootless : ∀ n, s.alive n → s.root ∉ (s.node n).children

structure TableInv (s : State ν) : Prop where
  sound : Sound s
  openAlive : OpenAlive s
  nextFd : s.nextFd ≤ maxOpenFds
  bounded : ∀ fd, maxOpenFds ≤ fd → s.openFiles fd = none

/-- A file system before anything is opened. -/
structure Unopened (s : State ν) : Prop where
  sound : Sound s
  closed : ∀ fd, s.openFiles fd = none
  nextFd : s.nextFd = 0

omit [DecidableEq ν] in
theorem Unopened.inv (h : Unopened s) : TableInv s where
  sound := h.sound
  openAlive := fun fd _ hfile => nomatch (h.closed fd).symm.trans hfile
  nextFd := h.nextFd ▸ Nat.zero_le _
  bounded fd _ := h.closed fd

omit [DecidableEq ν] in
/-- What is found by a path is allocated. -/
theorem Sound.find (h : Sound s) (hfind : vfsFindPath s.tree path = some n) : s.alive n := by
  refine vfsFindPath_reaches (P := fun m => s.alive m) h.root (fun m m' name hm hchild => ?_) hfind
  unfold State.tree at hchild
  dsimp only at hchild
  split_ifs at hchild
  exact h.children m hm m' (List.mem_of_find?_eq_some hchild)

theorem Sound.create (h : Sound s) (fresh : ν) (name : Name) (type : NodeType) :
    Sound (vfsCreateNode s fresh name type) := by
  have hnode : ∀ m, (vfsCreateNode s fresh name type).alive m →
      ((vfsCreateNode s fresh name type).node m).children = [] ∨
        s.alive m ∧ (vfsCreateNode s fresh name type).node m = s.node m := by
    intro m hm
    by_cases hmf : m = fresh
    · left
      simp [vfsCreateNode, hmf]
    · right
      have hsame : (vfsCreateNode s fresh name type).node m = s.node m := by simp [vfsCreateNode, hmf]
      simp only [vfsCreateNode, Function.update_of_ne hmf] at hm
      exact ⟨hm, hsame⟩
  have halive : ∀ m, s.alive m → (vfsCreateNode s fresh name type).alive m := by
    intro m hm
    by_cases hmf : m = fresh
    · simp [vfsCreateNode, hmf]
    · simpa [vfsCreateNode, Function.update_of_ne hmf] using hm
  refine ⟨halive _ h.root, fun m hm c hc => ?_, fun m hm => ?_, fun m m' c hm hm' hc hc' => ?_, fun m hm hc => ?_⟩
  · rcases hnode m hm with hnil | ⟨hm, heq⟩
    · rw [hnil] at hc
      exact absurd hc List.not_mem_nil
    · rw [heq] at hc
      exact halive c (h.children m hm c hc)
  · rcases hnode m hm with hnil | ⟨hm, heq⟩
    · rw [hnil]
      exact List.nodup_nil
    · rw [heq]
      exact h.nodup m hm
  · rcases hnode m hm with hnil | ⟨hm, heq⟩
    · rw [hnil] at hc
      exact absurd hc List.not_mem_nil
    · rcases hnode m' hm' with hnil | ⟨hm', heq'⟩
      · rw [hnil] at hc'
        exact absurd hc' List.not_mem_nil
      · rw [heq] at hc
        rw [heq'] at hc'
        exact h.once m m' c hm hm' hc hc'
  · rcases hnode m hm with hnil | ⟨hm, heq⟩
    · rw [hnil] at hc
      exact absurd hc List.not_mem_nil
    · rw [heq] at hc
      exact h.rootless m hm hc

/-- A child that is unlinked and freed is nowhere in the forest. -/
theorem Sound.free (h : Sound s) {parent : ν} (hparent : s.alive parent) (hchild : child ∈ (s.node parent).children) :
    Sound { s.modify parent fun n => { n with children := n.children.erase child } with
      alive := Function.update s.alive child false } := by
  obtain ⟨t, ht⟩ : ∃ t : State ν, t = { s.modify parent fun n => { n with children := n.children.erase child } with
    alive := Function.update s.alive child false } := ⟨_, rfl⟩
  rw [← ht]
  have halive : ∀ m, t.alive m = true ↔ s.alive m = true ∧ m ≠ child := by
    intro m
    rw [ht]
    by_cases hmc : m = child
    · simp [hmc]
    · simp [hmc]
  have hsub : ∀ m, s.alive m → ∀ c ∈ (t.node m).children, c ∈ (s.node m).children ∧ c ≠ child := by
    intro m hm c hc
    rw [ht] at hc
    by_cases hmp : m = parent
    · subst hmp
      simp only [State.modify, Function.update_self] at hc
      exact ⟨List.mem_of_mem_erase hc, fun hcc => (h.nodup m hm).not_mem_erase (hcc ▸ hc)⟩
    · simp only [State.modify, Function.update_of_ne hmp] at hc
      refine ⟨hc, ?_⟩
      rintro rfl
      exact hmp (h.once m parent c hm hparent hc hchild)
  have hroot : t.root = s.root := by rw [ht]; rfl
  refine ⟨?_, fun m hm c hc => ?_, fun m hm => ?_, fun m m' c hm hm' hc hc' => ?_, fun m hm hc => ?_⟩
  · rw [hroot]
    refine (halive _).mpr ⟨h.root, ?_⟩
    rintro heq
    exact h.rootless parent hparent (heq ▸ hchild)
  · obtain ⟨hm, -⟩ := (halive m).mp hm
    obtain ⟨hc, hne⟩ := hsub m hm c hc
    exact (halive c).mpr ⟨h.children m hm c hc, hne⟩
  · obtain ⟨hm, -⟩ := (halive m).mp hm
    rw [ht]
    by_cases hmp : m = parent
    · subst hmp
      simp only [State.modify, Function.update_self]
      exact (h.nodup m hm).erase child
    · simp only [State.modify, Function.update_of_ne hmp]
      exact h.nodup m hm
  · obtain ⟨hm, -⟩ := (halive m).mp hm
    obtain ⟨hm', -⟩ := (halive m').mp hm'
    exact h.once m m' c hm hm' (hsub m hm c hc).1 (hsub m' hm' c hc').1
  · obtain ⟨hm, -⟩ := (halive m).mp hm
    rw [hroot] at hc
    exact h.rootless m hm (hsub m hm _ hc).1

/-! ## Calls and the table -/

omit [DecidableEq ν] in
theorem setFile_self (s : State ν) (fd : ℕ) (file : Option (OpenFile ν)) : (s.setFile fd file).openFiles fd = file := by
  simp [State.setFile]

omit [DecidableEq ν] in
theorem setFile_other (s : State ν) {fd fd' : ℕ} (file : Option (OpenFile ν)) (hne : fd' ≠ fd) :
    (s.setFile fd file).openFiles fd' = s.openFiles fd' := by
  simp [State.setFile, hne]

/-- A call that changes nothing is right, unless there was a descriptor for it. -/
theorem Right.unchanged {c : FdCall ν} (h : TableInv s) (hsame : perform s c = ([], s))
    (hfull : ∀ path, c = .open path → vfsFindPath s.tree path ≠ none → ∀ fd < maxOpenFds, s.openFiles fd ≠ none) :
    Right s c := by
  refine ⟨?_, ?_, ?_, fun path hc _ => hfull path hc, ?_⟩
  all_goals rw [hsame]
  · exact fun fd hfd => absurd hfd List.not_mem_nil
  · exact fun _ _ _ _ hfile => hfile
  · exact fun _ _ hopen => hopen
  · exact h.openAlive

omit [DecidableEq ν] in
/-- A slot gets a file whose node is allocated. -/
theorem TableInv.setFile (h : TableInv s) (hfd : fd < maxOpenFds) (file : Option (OpenFile ν))
    (halive : ∀ f, file = some f → s.alive f.node) {next : ℕ} (hnext : next ≤ maxOpenFds) :
    TableInv { s.setFile fd file with nextFd := next } := by
  refine ⟨⟨h.sound.root, h.sound.children, h.sound.nodup, h.sound.once, h.sound.rootless⟩, fun fd' f hf => ?_, hnext,
    fun fd' hfd' => ?_⟩
  · by_cases hne : fd' = fd
    · rw [hne] at hf
      exact halive f ((setFile_self s fd file).symm.trans hf)
    · exact h.openAlive fd' f ((setFile_other s file hne).symm.trans hf)
  · exact (setFile_other s file (by omega)).trans (h.bounded fd' hfd')

theorem open_spec (h : TableInv s) :
    TableInv (perform s (.open path)).2 ∧ (Right s (.open path) ↔ FdOk s (.open path)) := by
  unfold FdOk
  cases hfind : vfsFindPath s.tree path with
  | none =>
    have hsame : perform s (.open path) = ([], s) := by simp [perform, vfsOpen, hfind]
    rw [hsame]
    refine ⟨h, iff_of_true (Right.unchanged h hsame fun path' hc hsome => ?_) fun habsurd => absurd hfind habsurd⟩
    obtain rfl := FdCall.open.inj hc
    exact absurd hfind hsome
  | some node =>
    by_cases hnext : s.nextFd < maxOpenFds
    · have hperform : perform s (.open path) =
          ([s.nextFd], { s.setFile s.nextFd (some ⟨node, 0⟩) with nextFd := s.nextFd + 1 }) := by
        simp [perform, vfsOpen, hfind, Nat.not_le.mpr hnext]
      have hinv : TableInv (perform s (.open path)).2 := by
        rw [hperform]
        refine h.setFile hnext _ (fun f hf => ?_) hnext
        rw [← Option.some.inj hf]
        exact h.sound.find hfind
      refine ⟨hinv, ?_⟩
      rw [if_pos hnext]
      constructor
      · intro hright _
        exact hright.fresh s.nextFd (by simp [hperform])
      · intro hok
        refine ⟨?_, ?_, (by rintro fd ⟨⟩), ?_, hinv.openAlive⟩
        all_goals rw [hperform]
        · intro fd hfd
          rw [List.mem_singleton.mp hfd]
          exact hok (by simp [hfind])
        · intro fd file hfd _ hfile
          exact (setFile_other s _ fun heq => hfd (List.mem_singleton.mpr heq)).trans hfile
        · rintro _ _ ⟨⟩
    · have hsame : perform s (.open path) = ([], s) := by simp [perform, vfsOpen, hfind, Nat.le_of_not_lt hnext]
      rw [hsame]
      refine ⟨h, ?_⟩
      rw [if_neg hnext]
      constructor
      · intro hright _
        exact hright.full path rfl (by rw [hsame]) (by simp [hfind])
      · intro hok
        exact Right.unchanged h hsame fun _ _ _ => hok (by simp [hfind])

theorem close_spec (h : TableInv s) : TableInv (perform s (.close fd)).2 ∧ Right s (.close fd) := by
  by_cases hrefused : fd ≥ maxOpenFds ∨ s.openFiles fd = none
  · have hsame : perform s (.close fd) = ([], s) := by simp [perform, vfsClose, hrefused]
    rw [hsame]
    exact ⟨h, Right.unchanged h hsame (by rintro _ ⟨⟩)⟩
  · have hperform : perform s (.close fd) = ([], s.setFile fd none) := by simp [perform, vfsClose, hrefused]
    have hlt : fd < maxOpenFds := Nat.lt_of_not_le fun hge => hrefused (Or.inl hge)
    have hinv : TableInv (perform s (.close fd)).2 := by
      rw [hperform]
      exact h.setFile hlt none (by rintro _ ⟨⟩) h.nextFd
    refine ⟨hinv, ?_, ?_, (by rintro fd ⟨⟩), (by rintro path ⟨⟩), hinv.openAlive⟩
    all_goals rw [hperform]
    · exact fun fd hfd => absurd hfd List.not_mem_nil
    · intro fd' file _ hne hfile
      exact (setFile_other s none fun heq => hne (congrArg some heq.symm)).trans hfile

theorem dup_spec (h : TableInv s) : TableInv (perform s (.dup fd)).2 ∧ (Right s (.dup fd) ↔ FdOk s (.dup fd)) := by
  unfold FdOk
  by_cases hrefused : fd ≥ maxOpenFds ∨ s.openFiles fd = none
  · have hsame : perform s (.dup fd) = ([], s) := by simp [perform, vfsDup, hrefused]
    rw [hsame]
    refine ⟨h, iff_of_true (Right.unchanged h hsame (by rintro _ ⟨⟩)) fun hopen => ?_⟩
    exact absurd (hrefused.elim (h.bounded fd) id) hopen
  · rw [not_or] at hrefused
    by_cases hnext : s.nextFd < maxOpenFds
    · have hperform : perform s (.dup fd) =
          ([s.nextFd], { s.setFile s.nextFd (s.openFiles fd) with nextFd := s.nextFd + 1 }) := by
        simp [perform, vfsDup, hrefused, Nat.not_le.mpr hnext]
      have hinv : TableInv (perform s (.dup fd)).2 := by
        rw [hperform]
        exact h.setFile hnext _ (h.openAlive fd) hnext
      refine ⟨hinv, ?_⟩
      constructor
      · intro hright _ _
        exact hright.fresh s.nextFd (by simp [hperform])
      · intro hok
        refine ⟨?_, ?_, (by rintro fd ⟨⟩), (by rintro path ⟨⟩), hinv.openAlive⟩
        all_goals rw [hperform]
        · intro fd' hfd'
          rw [List.mem_singleton.mp hfd']
          exact hok hrefused.2 hnext
        · intro fd' file hfd' _ hfile
          exact (setFile_other s _ fun heq => hfd' (List.mem_singleton.mpr heq)).trans hfile
    · have hsame : perform s (.dup fd) = ([], s) := by simp [perform, vfsDup, hrefused, Nat.le_of_not_lt hnext]
      rw [hsame]
      exact ⟨h, iff_of_true (Right.unchanged h hsame (by rintro _ ⟨⟩)) fun _ habsurd => absurd habsurd hnext⟩

omit [DecidableEq ν] in
theorem close_other (s : State ν) {fd fd' : ℕ} (hne : fd' ≠ fd) :
    (vfsClose s fd).2.openFiles fd' = s.openFiles fd' := by
  unfold vfsClose
  split_ifs
  · rfl
  · exact setFile_other s none hne

theorem dup2_spec {oldfd newfd : ℕ} (h : TableInv s) :
    TableInv (perform s (.dup2 oldfd newfd)).2 ∧ (Right s (.dup2 oldfd newfd) ↔ FdOk s (.dup2 oldfd newfd)) := by
  unfold FdOk
  by_cases hrefused : oldfd ≥ maxOpenFds ∨ newfd ≥ maxOpenFds ∨ s.openFiles oldfd = none
  · have hsame : perform s (.dup2 oldfd newfd) = ([], s) := by simp [perform, vfsDup2, hrefused]
    rw [hsame]
    refine ⟨h, iff_of_true (Right.unchanged h hsame (by rintro _ ⟨⟩)) ?_⟩
    rintro rfl
    exact hrefused.elim (h.bounded oldfd) fun hrest => hrest.elim (h.bounded oldfd) id
  · rw [not_or, not_or] at hrefused
    obtain ⟨hold, hnew, hopen⟩ := hrefused
    have hclosed : TableInv (vfsClose s newfd).2 := (close_spec h).1
    have hperform : perform s (.dup2 oldfd newfd) =
        ([], (vfsClose s newfd).2.setFile newfd ((vfsClose s newfd).2.openFiles oldfd)) := by
      simp [perform, vfsDup2, hold, hnew, hopen]
    have hinv : TableInv (perform s (.dup2 oldfd newfd)).2 := by
      rw [hperform]
      exact TableInv.setFile hclosed (Nat.lt_of_not_le hnew) _ (hclosed.openAlive oldfd) hclosed.nextFd
    refine ⟨hinv, ?_⟩
    constructor
    · rintro hright rfl
      by_contra hsome
      apply hright.same oldfd rfl hsome
      rw [hperform]
      refine (setFile_self _ _ _).trans ?_
      unfold vfsClose
      rw [if_neg (not_or.mpr ⟨hnew, hopen⟩)]
      exact setFile_self s oldfd none
    · intro hok
      refine ⟨?_, ?_, ?_, (by rintro path ⟨⟩), hinv.openAlive⟩
      all_goals rw [hperform]
      · exact fun fd hfd => absurd hfd List.not_mem_nil
      · intro fd file _ hne hfile
        have hother : fd ≠ newfd := fun heq => hne (congrArg some heq.symm)
        exact (setFile_other _ _ hother).trans ((close_other s hother).trans hfile)
      · rintro fd hc hsome
        obtain ⟨rfl, rfl⟩ := FdCall.dup2.inj hc
        exact absurd (hok rfl) hsome

theorem pipe_spec {fresh : Option ν} (h : TableInv s) :
    TableInv (perform s (.pipe fresh)).2 ∧ (Right s (.pipe fresh) ↔ FdOk s (.pipe fresh)) := by
  unfold FdOk
  cases fresh with
  | none =>
    have hsame : perform s (.pipe none) = ([], s) := rfl
    rw [hsame]
    exact ⟨h, iff_of_true (Right.unchanged h hsame (by rintro _ ⟨⟩)) fun habsurd => absurd rfl habsurd⟩
  | some node =>
    obtain ⟨t, ht⟩ : ∃ t, t = vfsCreateNode s node [112, 105, 112, 101] .fifo := ⟨_, rfl⟩
    have hfiles : t.openFiles = s.openFiles := by rw [ht]; rfl
    have hcount : t.nextFd = s.nextFd := by rw [ht]; rfl
    have hnode : t.alive node := by simp [ht, vfsCreateNode]
    have halive : ∀ m, s.alive m → t.alive m := by
      intro m hm
      by_cases hmn : m = node
      · rw [hmn]
        exact hnode
      · simpa [ht, vfsCreateNode, hmn] using hm
    have hcreated : TableInv t := by
      refine ⟨ht ▸ h.sound.create node _ _, fun fd file hfile => ?_, hcount ▸ h.nextFd, fun fd hfd => ?_⟩
      · exact halive _ (h.openAlive fd file (hfiles ▸ hfile))
      · rw [hfiles]
        exact h.bounded fd hfd
    by_cases hnext : s.nextFd < maxOpenFds - 1
    · have hperform : perform s (.pipe (some node)) = ([s.nextFd, s.nextFd + 1],
          { (t.setFile s.nextFd (some ⟨node, 0⟩)).setFile (s.nextFd + 1) (some ⟨node, 0⟩) with
            nextFd := s.nextFd + 2 }) := by
        simp [perform, vfsPipe, ← ht, hcount, Nat.not_le.mpr hnext]
      have hfirst : TableInv { t.setFile s.nextFd (some ⟨node, 0⟩) with nextFd := s.nextFd } :=
        hcreated.setFile (by omega) _ (fun f hf => by rw [← Option.some.inj hf]; exact hnode) h.nextFd
      have hinv : TableInv (perform s (.pipe (some node))).2 := by
        rw [hperform]
        exact hfirst.setFile (by omega) _ (fun f hf => by rw [← Option.some.inj hf]; exact hnode) (by omega)
      refine ⟨hinv, ?_⟩
      constructor
      · intro hright _ _
        exact ⟨hright.fresh s.nextFd (by simp [hperform]), hright.fresh (s.nextFd + 1) (by simp [hperform])⟩
      · intro hok
        obtain ⟨hzero, hone⟩ := hok (Option.some_ne_none node) hnext
        refine ⟨?_, ?_, (by rintro fd ⟨⟩), (by rintro path ⟨⟩), hinv.openAlive⟩
        all_goals rw [hperform]
        · intro fd hfd
          rcases List.mem_cons.mp hfd with rfl | hfd
          · exact hzero
          · rw [List.mem_singleton.mp hfd]
            exact hone
        · intro fd file hfd _ hfile
          rw [List.mem_cons, List.mem_singleton, not_or] at hfd
          refine (setFile_other _ _ hfd.2).trans ((setFile_other t _ hfd.1).trans ?_)
          rw [hfiles]
          exact hfile
    · have hperform : perform s (.pipe (some node)) = ([], t) := by
        simp [perform, vfsPipe, ← ht, hcount, Nat.le_of_not_lt hnext]
      have hinv : TableInv (perform s (.pipe (some node))).2 := by
        rw [hperform]
        exact hcreated
      refine ⟨hinv, iff_of_true ?_ fun _ habsurd => absurd habsurd hnext⟩
      refine ⟨?_, ?_, (by rintro fd ⟨⟩), (by rintro path ⟨⟩), hinv.openAlive⟩
      all_goals rw [hperform]
      · exact fun fd hfd => absurd hfd List.not_mem_nil
      · intro fd file _ _ hfile
        rw [hfiles]
        exact hfile

/-- A removal changes nothing, or frees the node that it was about. -/
theorem remove_cases (h : Sound s) (path : List UInt8) (refused : Node ν → Bool) :
    (removeChild s path refused).2 = s ∧ doomed s path refused = none ∨
      ∃ parent child, doomed s path refused = some child ∧ s.alive parent ∧ child ∈ (s.node parent).children ∧
        (removeChild s path refused).2 = { s.modify parent fun n => { n with children := n.children.erase child } with
          alive := Function.update s.alive child false } := by
  unfold removeChild doomed
  cases hparent : parentAndName s path with
  | none => exact Or.inl ⟨rfl, rfl⟩
  | some found =>
    obtain ⟨parent, name⟩ := found
    have halive : s.alive parent := by
      unfold parentAndName at hparent
      obtain ⟨⟨parentPath, last⟩, -, hrest⟩ := Option.bind_eq_some_iff.mp hparent
      dsimp only at hrest
      split_ifs at hrest
      obtain ⟨found, hfind, hrest⟩ := Option.bind_eq_some_iff.mp hrest
      obtain ⟨rfl, -⟩ := Prod.mk.inj (Option.some.inj hrest)
      exact h.find hfind
    dsimp only
    cases hchild : (s.node parent).children.find? fun c => (s.node c).name = name with
    | none => exact Or.inl ⟨rfl, by simp [hchild]⟩
    | some child =>
      by_cases hrefused : refused (s.node child) = true
      · exact Or.inl ⟨by simp [hrefused], by simp [hchild, hrefused]⟩
      · refine Or.inr ⟨parent, child, by simp [hchild, hrefused], halive, List.mem_of_find?_eq_some hchild, ?_⟩
        simp only [hrefused]
        rfl

theorem remove_spec {c : FdCall ν} {refused : Node ν → Bool} (h : TableInv s)
    (hperform : perform s c = ([], (removeChild s path refused).2)) (hdup2 : ∀ fd, c ≠ .dup2 fd fd)
    (hopen : ∀ path, c ≠ .open path) :
    (NotOpen s (doomed s path refused) → TableInv (perform s c).2) ∧
      (Right s c ↔ NotOpen s (doomed s path refused)) := by
  rcases remove_cases h.sound path refused with ⟨hsame, hnone⟩ | ⟨parent, child, hsome, hparent, hchild, hafter⟩
  · rw [hsame] at hperform
    rw [hperform, hnone]
    refine ⟨fun _ => h, iff_of_true (Right.unchanged h hperform fun path hc => absurd hc (hopen path)) ?_⟩
    rintro _ _ _ ⟨⟩
  · rw [hafter] at hperform
    obtain ⟨t, ht⟩ : ∃ t : State ν, t = { s.modify parent fun n => { n with children := n.children.erase child } with
      alive := Function.update s.alive child false } := ⟨_, rfl⟩
    rw [← ht] at hperform
    have hfiles : t.openFiles = s.openFiles := by rw [ht]; rfl
    have halive : ∀ m, t.alive m = true ↔ s.alive m = true ∧ m ≠ child := by
      intro m
      rw [ht]
      by_cases hmc : m = child
      · simp [hmc]
      · simp [hmc]
    have hinv : NotOpen s (some child) → TableInv t := by
      intro hnot
      refine ⟨ht ▸ h.sound.free hparent hchild, fun fd file hfile => ?_, ?_, fun fd hfd => ?_⟩
      · rw [hfiles] at hfile
        exact (halive _).mpr ⟨h.openAlive fd file hfile, fun heq => hnot fd file hfile (congrArg some heq.symm)⟩
      · rw [ht]
        exact h.nextFd
      · rw [hfiles]
        exact h.bounded fd hfd
    rw [hsome, hperform]
    refine ⟨hinv, fun hright => ?_, fun hnot => ?_⟩
    · intro fd file hfile heq
      have hopenAlive : OpenAlive t := by
        have := hright.alive
        rwa [hperform] at this
      have hfile' : t.openFiles fd = some file := by
        rw [hfiles]
        exact hfile
      exact ((halive _).mp (hopenAlive fd file hfile')).2 (Option.some.inj heq).symm
    · refine ⟨?_, ?_, fun fd hc => absurd hc (hdup2 fd), fun path hc => absurd hc (hopen path), ?_⟩
      all_goals rw [hperform]
      · exact fun fd hfd => absurd hfd List.not_mem_nil
      · intro fd file _ _ hfile
        rw [hfiles]
        exact hfile
      · exact (hinv hnot).openAlive

theorem call_spec (h : TableInv s) (c : FdCall ν) :
    (FdOk s c → TableInv (perform s c).2) ∧ (Right s c ↔ FdOk s c) := by
  cases c with
  | «open» path => exact ⟨fun _ => (open_spec h).1, (open_spec h).2⟩
  | close fd => exact ⟨fun _ => (close_spec h).1, iff_of_true (close_spec h).2 trivial⟩
  | dup fd => exact ⟨fun _ => (dup_spec h).1, (dup_spec h).2⟩
  | dup2 oldfd newfd => exact ⟨fun _ => (dup2_spec h).1, (dup2_spec h).2⟩
  | pipe fresh => exact ⟨fun _ => (pipe_spec h).1, (pipe_spec h).2⟩
  | unlink path => exact remove_spec h rfl (by rintro _ ⟨⟩) (by rintro _ ⟨⟩)
  | rmdir path => exact remove_spec h rfl (by rintro _ ⟨⟩) (by rintro _ ⟨⟩)

/-- In a run whose calls all meet the condition the open descriptors refer to allocated nodes, and any call does to the
table what it should exactly if it meets the condition too. -/
theorem descriptors_ok {start : State ν} (hstart : Unopened start) (h : Run.Reach descriptorStep FdOk start s) :
    OpenAlive s ∧ ∀ c, Right s c ↔ FdOk s c := by
  have hinv : TableInv s := by
    refine h.invariant hstart.inv fun s c t hs hok hst => ?_
    obtain rfl : (perform s c).2 = t := Option.some.inj hst
    exact (call_spec hs c).1 hok
  exact ⟨hinv.openAlive, fun c => (call_spec hinv c).2⟩

/-- A tree with the root only. -/
def rootOnly : State Bool where
  node _ := { type := .directory }
  root := false
  alive n := !n

theorem rootOnly_unopened : Unopened rootOnly where
  sound := by
    refine ⟨rfl, ?_, ?_, ?_, ?_⟩
    · exact fun _ _ _ hc => absurd hc List.not_mem_nil
    · exact fun _ _ => List.nodup_nil
    · exact fun _ _ _ _ _ hc => absurd hc List.not_mem_nil
    · exact fun _ _ => List.not_mem_nil
  closed _ := rfl
  nextFd := rfl

theorem descriptors_ok_two : ∃ s : State Bool,
    Run.run descriptorStep rootOnly [.open [47], .dup 0, .close 0] = some s ∧
      OpenAlive s ∧ ∀ c, Right s c ↔ FdOk s c := by
  have hreach : Run.Reach descriptorStep FdOk rootOnly _ :=
    ((Run.Reach.start.step (.open [47]) (fun _ => rfl) rfl).step (.dup 0) (fun _ _ => rfl) rfl).step
      (.close 0) trivial rfl
  exact ⟨_, rfl, descriptors_ok rootOnly_unopened hreach⟩

/-- A descriptor that is copied to itself is closed. -/
theorem dup2_closes : ¬∀ s : State Bool, Run.Reach descriptorStep (fun _ _ => True) rootOnly s → ∀ c, Right s c := by
  intro hall
  have hreach : Run.Reach descriptorStep (fun _ _ => True) rootOnly _ :=
    Run.Reach.start.step (.open [47]) trivial rfl
  have hright := hall _ hreach (.dup2 0 0)
  exact hright.same 0 rfl (Option.some_ne_none _) rfl

end Vfs
