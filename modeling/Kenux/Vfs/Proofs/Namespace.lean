import Kenux.Lib.Run
import Kenux.Vfs.Nodes
import Kenux.Vfs.Proofs.Paths

/-!
# The namespace as a map from paths to nodes

What calls should do is said of the map that the lists of children make. No node that these calls make has `finddir`,
so a name that was made is never found again.
-/

namespace Vfs

open Pieces

variable {ν : Type} {s s' : State ν} {n : ν} {path parent : List UInt8} {name : Name} {fresh : Option ν}

/-! ## The map -/

/-- A path, given by its names, to the node there and its type. -/
abbrev Namespace (ν : Type) := List Name → Option (ν × NodeType)

/-- Directories and their lists of children, whatever operations they have. -/
def State.names (s : State ν) : Tree ν where
  root := s.root
  isDirectory n := (s.node n).type = .directory
  finddir n name := if name = [] then none else (s.node n).children.find? fun c => (s.node c).name = name
  named := s.nameless

def State.map (s : State ν) : Namespace ν := fun names =>
  (s.names.follow s.root names).map fun n => (n, (s.node n).type)

/-- The string of a path. -/
def stringOf (names : List Name) : List UInt8 :=
  if names = [] then [slash] else names.flatMap fun name => slash :: name

def IsDirectory (m : Namespace ν) (names : List Name) : Prop := ∃ n, m names = some (n, .directory)

def Empty (m : Namespace ν) (names : List Name) : Prop := ∀ rest ≠ [], m (names ++ rest) = none

/-- What `mkdir` and `symlink` make of a map. -/
def Makes (m : Namespace ν) (names : List Name) (child : ν) (type : NodeType) (m' : Namespace ν) : Prop :=
  names ≠ [] ∧ IsDirectory m names.dropLast ∧ m names = none ∧ m' = Function.update m names (some (child, type))

def Removes (m : Namespace ν) (names : List Name) (m' : Namespace ν) : Prop :=
  names ≠ [] ∧ m' = Function.update m names none

/-- What is at and below `old` is at and below `new` afterwards. -/
def moved (m : Namespace ν) (old new : List Name) : Namespace ν := fun names =>
  if new <+: names then m (old ++ names.drop new.length) else if old <+: names then none else m names

/-- What `rename` makes of a map: nothing where both are the same node, and else the old one replaces the new one, which
is absent, or an empty directory for a directory, or no directory for one that is none. -/
def Renames (m : Namespace ν) (old new : List Name) (m' : Namespace ν) : Prop :=
  ∃ n type, m old = some (n, type) ∧
    ((∃ t, m new = some (n, t)) ∧ m' = m ∨
      old ≠ [] ∧ ¬old <+: new ∧ ¬new <+: old ∧ IsDirectory m new.dropLast ∧
        (m new = none ∨ ∃ n' t, m new = some (n', t) ∧ (t = .directory ↔ type = .directory) ∧ Empty m new) ∧
        m' = moved m old new)

/-! ## Calls -/

/-- Calls; those that make a node come with the address that `kzalloc` gives. -/
inductive Call (ν : Type) where
  | mkdir (path : List UInt8) (fresh : Option ν)
  | symlink (path : List UInt8) (fresh : Option ν)
  | rmdir (path : List UInt8)
  | unlink (path : List UInt8)
  | rename (oldpath newpath : List UInt8)

variable [DecidableEq ν]

/-- What a call returns and leaves. -/
def call (s : State ν) : Call ν → Option (Bool × State ν)
  | .mkdir path fresh => some (vfsMkdir s fresh path)
  | .symlink path fresh => some (vfsSymlink s fresh path)
  | .rmdir path => some (vfsRmdir s path)
  | .unlink path => some (vfsUnlink s path)
  | .rename oldpath newpath => vfsRename s oldpath newpath

def namespaceStep (s : State ν) (c : Call ν) : Option (State ν) := (call s c).map Prod.snd

/-- The paths fit, and a new node was not in use. -/
def Allowed (s : State ν) : Call ν → Prop
  | .mkdir path fresh | .symlink path fresh => path.length < 256 ∧ ∀ n, fresh = some n → s.alive n = false
  | .rmdir path | .unlink path => path.length < 256
  | .rename oldpath newpath => oldpath.length < 256 ∧ newpath.length < 256

/-- What the POSIX counterpart of a call makes of a map, if it does not fail. -/
def Posix (m : Namespace ν) (m' : Namespace ν) : Call ν → Prop
  | .mkdir path fresh => path.head? = some slash ∧ ∃ n ∈ fresh, Makes m (components path) n .directory m'
  | .symlink path fresh => path.head? = some slash ∧ ∃ n ∈ fresh, Makes m (components path) n .symlink m'
  | .rmdir path => path.head? = some slash ∧ IsDirectory m (components path) ∧ Empty m (components path) ∧
      Removes m (components path) m'
  | .unlink path => path.head? = some slash ∧ (∃ n t, m (components path) = some (n, t) ∧ t ≠ .directory) ∧
      Removes m (components path) m'
  | .rename oldpath newpath => oldpath.head? = some slash ∧ newpath.head? = some slash ∧
      Renames m (components oldpath) (components newpath) m'

/-- The namespace is a tree with unique names, and a path is found where the map has it. -/
structure Good (s : State ν) : Prop where
  unique : ∀ n, s.alive n → ((s.node n).children.map fun c => (s.node c).name).Nodup
  tree : ∀ p q n, s.names.follow s.root p = some n → s.names.follow s.root q = some n → p = q
  found : ∀ names, (∀ name ∈ names, name ≠ [] ∧ slash ∉ name) → (stringOf names).length < 256 →
    vfsFindPath s.tree (stringOf names) = s.names.follow s.root names

/-- A call returns with a good namespace, and its map is the one of the POSIX counterpart or, after a failure, the one
that was there. -/
def Succeeds (s : State ν) (c : Call ν) : Prop :=
  ∃ ok s', call s c = some (ok, s') ∧ Good s' ∧ if ok then Posix s.map s'.map c else s'.map = s.map

/-- A name in the root, with one slash or two in front. -/
def NewName (path : List UInt8) : Prop :=
  ∃ name, name ≠ [] ∧ slash ∉ name ∧ (path = slash :: name ∨ path = slash :: slash :: name)

/-- Nothing is made in the root, and the root does not get another name. -/
def CallOk : Call ν → Prop
  | .mkdir path fresh | .symlink path fresh => fresh ≠ none → ¬NewName path
  | .rmdir _ | .unlink _ => True
  | .rename oldpath newpath => oldpath = [slash] → ¬NewName newpath

/-- `fs_init` -/
def fsInit (root : ν) : State ν where
  node := Function.update (fun _ => {}) root { name := [slash], type := .directory }
  root := root
  alive := fun n => n = root

/-! ## The last component -/

theorem exists_last (hmem : slash ∈ path) : ∃ parent name, path = parent ++ slash :: name ∧ slash ∉ name := by
  obtain ⟨name, rest, hrev, hname⟩ := List.eq_append_cons_of_mem (List.mem_reverse.mpr hmem)
  refine ⟨rest.reverse, name.reverse, ?_, fun h => hname (List.mem_reverse.mp h)⟩
  have hback := congrArg List.reverse hrev
  simpa using hback

theorem lastName_eq (hname : slash ∉ name) :
    ((parent ++ slash :: name).reverse.takeWhile (· ≠ slash)).reverse = name := by
  have hall : ∀ x ∈ name.reverse, decide (x ≠ slash) = true := by
    intro x hx
    apply decide_eq_true
    rintro rfl
    exact hname (List.mem_reverse.mp hx)
  rw [List.reverse_append, List.reverse_cons, List.append_assoc, List.takeWhile_append_of_pos hall]
  simp

/-- A path has a name in the root exactly if its last component is one behind nothing or another slash. -/
theorem newName_iff (hname : slash ∉ name) :
    NewName (parent ++ slash :: name) ↔ name ≠ [] ∧ (parent = [] ∨ parent = [slash]) := by
  constructor
  · rintro ⟨name', hne, hname', heq⟩
    have hsplit : ∀ pre : List UInt8,
        parent ++ slash :: name = pre ++ slash :: name' → parent = pre ∧ name = name' := by
      intro pre hpre
      have hlast : name = name' := by
        rw [← lastName_eq hname, hpre, lastName_eq hname']
      refine ⟨?_, hlast⟩
      rw [hlast] at hpre
      exact List.append_cancel_right hpre
    rcases heq with heq | heq
    · obtain ⟨hparent, rfl⟩ := hsplit [] heq
      exact ⟨hne, Or.inl hparent⟩
    · obtain ⟨hparent, rfl⟩ := hsplit [slash] heq
      exact ⟨hne, Or.inr hparent⟩
  · rintro ⟨hne, rfl | rfl⟩
    · exact ⟨name, hne, hname, Or.inl rfl⟩
    · exact ⟨name, hne, hname, Or.inr rfl⟩

omit [DecidableEq ν] in
theorem getParentAndName_eq (hname : slash ∉ name) (habs : (parent ++ slash :: name).head? = some slash) :
    getParentAndName (parent ++ slash :: name) =
      if parent = [] then some ([slash], strncpy 256 name)
      else if 256 ≤ parent.length then none else some (parent, strncpy 256 name) := by
  have hlen : (parent ++ slash :: name).length - name.length - 1 = parent.length := by
    simp
    omega
  unfold getParentAndName
  dsimp only
  rw [if_neg (not_not.mpr habs), lastName_eq hname, hlen, List.take_left]
  by_cases hparent : parent = []
  · subst hparent
    rw [if_pos rfl, if_pos List.length_nil]
    split_ifs with hroot
    · obtain rfl : name = [] := by simpa using hroot
      rfl
    · rfl
  · have hne : parent ++ slash :: name ≠ [slash] := by
      cases parent with
      | nil => exact absurd rfl hparent
      | cons x parent => simp
    rw [if_neg hparent, if_neg hne, if_neg (by simpa using hparent)]

/-! ## The root on its own -/

/-- Nothing is there but the root. -/
structure Bare (s : State ν) : Prop where
  children : (s.node s.root).children = []
  finddir : (s.node s.root).finddir = false
  type : (s.node s.root).type = .directory
  alive : ∀ n, s.alive n = true ↔ n = s.root

theorem fsInit_bare (root : ν) : Bare (fsInit root) := by
  have hnode : (fsInit root).node root = { name := [slash], type := .directory } := by simp [fsInit]
  refine ⟨?_, ?_, ?_, fun n => decide_eq_true_iff⟩
  · exact congrArg Node.children hnode
  · exact congrArg Node.finddir hnode
  · exact congrArg Node.type hnode

omit [DecidableEq ν] in
theorem Bare.find (h : Bare s) (path : List UInt8) :
    vfsFindPath s.tree path = if path = [slash] then some s.root else none := by
  split_ifs with hroot
  · rw [hroot]
    rfl
  by_cases habs : path.head? = some slash
  · by_cases hdouble : [slash, slash] <+: path
    · exact vfsFindPath_double hdouble
    · rw [vfsFindPath_eq habs hdouble]
      cases path with
      | nil => exact nomatch habs
      | cons x rest =>
        obtain rfl : x = slash := Option.some.inj habs
        have hrest : rest.take 254 ≠ [] := by
          intro hnil
          apply hroot
          rw [(List.take_eq_nil_iff.mp hnil).resolve_left (by decide)]
        have hhead : (rest.take 254).head? ≠ some slash := by
          cases rest with
          | nil => exact absurd rfl hrest
          | cons y rest =>
            intro hslash
            obtain rfl : y = slash := Option.some.inj hslash
            exact hdouble ⟨rest, rfl⟩
        have hnames : components ((slash :: rest).take 255) = _ :: _ :=
          (pieces_cons slash _).trans (pieces_eq hrest hhead)
        rw [hnames, follow_cons]
        exact if_neg (Bool.eq_false_iff.mp h.finddir)
  · exact vfsFindPath_relative habs

omit [DecidableEq ν] in
theorem Bare.follow (h : Bare s) (names : List Name) :
    s.names.follow s.root names = if names = [] then some s.root else none := by
  cases names with
  | nil => rfl
  | cons name names =>
    rw [follow_cons, if_neg (List.cons_ne_nil _ _)]
    have hnone : s.names.finddir s.root name = none := by
      unfold State.names
      dsimp only
      rw [h.children]
      simp
    rw [hnone]
    simp

omit [DecidableEq ν] in
theorem Bare.good (h : Bare s) : Good s := by
  refine ⟨fun n hn => ?_, fun p q n hp hq => ?_, fun names hnames _ => ?_⟩
  · rw [(h.alive n).mp hn, h.children]
    exact List.nodup_nil
  · rw [h.follow] at hp hq
    split_ifs at hp hq with hpnil hqnil
    rw [hpnil, hqnil]
  · rw [h.find, h.follow]
    cases names with
    | nil => rfl
    | cons name names =>
      have hname := (hnames name List.mem_cons_self).1
      have hne : stringOf (name :: names) ≠ [slash] := by
        cases name with
        | nil => exact absurd rfl hname
        | cons x name => simp [stringOf]
      rw [if_neg hne, if_neg (List.cons_ne_nil _ _)]

omit [DecidableEq ν] in
/-- In a bare state a call has a parent exactly if it is about a name in the root. -/
theorem Bare.parent_cases (h : Bare s) (hlen : path.length < 256) :
    (∃ name, parentAndName s path = some (s.root, name) ∧ name ≠ [] ∧ slash ∉ name ∧
      (path = slash :: name ∨ path = slash :: slash :: name)) ∨ parentAndName s path = none ∧ ¬NewName path := by
  by_cases habs : path.head? = some slash
  · have hmem : slash ∈ path := List.mem_of_mem_head? habs
    obtain ⟨parent, name, rfl, hname⟩ := exists_last hmem
    have hcopy : strncpy 256 name = name := by
      rw [List.length_append, List.length_cons] at hlen
      exact List.take_of_length_le (by omega)
    unfold parentAndName
    rw [getParentAndName_eq hname habs, hcopy, newName_iff hname]
    by_cases hnil : name = []
    · refine Or.inr ⟨?_, fun hnew => hnew.1 hnil⟩
      split_ifs <;> simp [hnil]
    · by_cases hparent : parent = []
      · subst hparent
        refine Or.inl ⟨name, ?_, hnil, hname, Or.inl rfl⟩
        rw [if_pos rfl]
        simp [hnil, h.find]
      · by_cases hroot : parent = [slash]
        · subst hroot
          refine Or.inl ⟨name, ?_, hnil, hname, Or.inr rfl⟩
          rw [if_neg hparent, if_neg (by decide)]
          simp [hnil, h.find]
        · refine Or.inr ⟨?_, fun hnew => hnew.2.elim hparent hroot⟩
          rw [if_neg hparent]
          split_ifs
          · rfl
          · simp [hnil, h.find, hroot]
  · refine Or.inr ⟨?_, ?_⟩
    · unfold parentAndName getParentAndName
      rw [if_pos habs]
      rfl
    · rintro ⟨name', -, -, rfl | rfl⟩
      · exact habs rfl
      · exact habs rfl

/-! ## Calls in a bare state -/

/-- A call that fails in a bare state has done what it should. -/
theorem Bare.failed {c : Call ν} (h : Bare s) (hcall : call s c = some (false, s)) : Succeeds s c :=
  ⟨false, s, hcall, h.good, rfl⟩

theorem Bare.make_lost {child : ν} (h : Bare s) (type : NodeType)
    (hparent : parentAndName s path = some (s.root, name)) (hne : name ≠ []) (hname : slash ∉ name)
    (hlen : name.length < 255) (hfresh : s.alive child = false) :
    ∃ s', makeNode s (some child) path type = (true, s') ∧ ¬Good s' := by
  refine ⟨_, by unfold makeNode; rw [hparent], fun hgood => ?_⟩
  have hchild : child ≠ s.root := by
    rintro rfl
    rw [(h.alive s.root).mpr rfl] at hfresh
    exact Bool.noConfusion hfresh
  have hcopy : strncpy maxName name = name := List.take_of_length_le (Nat.le_of_lt hlen)
  obtain ⟨s', hs'⟩ : ∃ s', s' = vfsAddChild (vfsCreateNode s child name type) s.root child := ⟨_, rfl⟩
  rw [← hs'] at hgood
  have hroot : s'.root = s.root := by rw [hs']; rfl
  have hnodeRoot : s'.node s.root = { s.node s.root with children := [child] } := by
    rw [hs']
    simp [vfsAddChild, vfsCreateNode, State.modify, hchild.symm, h.children]
  have hnodeChild : (s'.node child).name = name := by
    rw [hs']
    simp [vfsAddChild, vfsCreateNode, State.modify, hchild, hcopy]
  have hfound := hgood.found [name] (by simp [hne, hname]) (by simp [stringOf]; omega)
  have hlost : vfsFindPath s'.tree (stringOf [name]) = none := by
    have hhead : name.head? ≠ some slash := fun hslash => hname (List.mem_of_mem_head? hslash)
    have hsingle : ¬[slash, slash] <+: stringOf [name] := by
      rintro ⟨rest, hrest⟩
      cases name with
      | nil => exact hne rfl
      | cons x name =>
        obtain ⟨rfl, -⟩ : slash = x ∧ rest = name := by simpa [stringOf] using hrest
        exact hhead rfl
    rw [vfsFindPath_eq (by simp [stringOf]) hsingle]
    have hnames : components ((stringOf [name]).take 255) = [name] := by
      have hfit : (stringOf [name]).take 255 = slash :: name := by
        simp [stringOf]
        omega
      rw [hfit]
      unfold components
      rw [pieces_cons, pieces_of_notMem hne hname]
    rw [hnames, follow_cons]
    apply if_neg
    rw [show s'.tree.root = s.root from hroot]
    have hfinddir : (s'.node s.root).finddir = false := by rw [hnodeRoot]; exact h.finddir
    exact Bool.eq_false_iff.mp hfinddir
  have hthere : s'.names.follow s'.root [name] = some child := by
    rw [hroot, follow_cons]
    simp [State.names, hnodeRoot, h.type, hne, hnodeChild, Tree.follow]
  rw [hlost, hthere] at hfound
  exact Option.some_ne_none child hfound.symm

theorem Bare.make_fails {type : NodeType} (h : Bare s) (hlen : path.length < 256)
    (hok : fresh ≠ none → ¬NewName path) : makeNode s fresh path type = (false, s) := by
  unfold makeNode
  rcases h.parent_cases hlen with ⟨name, hparent, hne, hname, hpath⟩ | ⟨hnone, -⟩
  · have hnil : fresh = none := by
      by_contra hsome
      exact hok hsome ⟨name, hne, hname, hpath⟩
    rw [hnil, hparent]
  · rw [hnone]

theorem Bare.make_iff {type : NodeType} {c : Call ν} (h : Bare s) (hlen : path.length < 256)
    (hfresh : ∀ n, fresh = some n → s.alive n = false) (hcall : call s c = some (makeNode s fresh path type)) :
    Succeeds s c ↔ (fresh ≠ none → ¬NewName path) := by
  constructor
  · rintro ⟨ok, t, ht, hgood, -⟩ hsome ⟨name', hnew⟩
    obtain ⟨child, rfl⟩ := Option.ne_none_iff_exists'.mp hsome
    rcases h.parent_cases hlen with ⟨name, hparent, hne, hname, hpath⟩ | ⟨-, hnot⟩
    · have hshort : name.length < 255 := by
        rcases hpath with rfl | rfl
        · simp only [List.length_cons] at hlen
          omega
        · simp only [List.length_cons] at hlen
          omega
      obtain ⟨s', hmake, hbad⟩ := h.make_lost type hparent hne hname hshort (hfresh child rfl)
      rw [hcall, hmake] at ht
      obtain ⟨-, rfl⟩ := Prod.mk.inj (Option.some.inj ht)
      exact hbad hgood
    · exact hnot ⟨name', hnew⟩
  · intro hok
    apply h.failed
    rw [hcall, h.make_fails hlen hok]

theorem Bare.mkdir_eq (h : Bare s) (hlen : path.length < 256) :
    vfsMkdir s fresh path = makeNode s fresh path .directory := by
  unfold vfsMkdir
  rcases h.parent_cases hlen with ⟨name, hparent, -⟩ | ⟨hnone, -⟩
  · rw [hparent]
    dsimp only
    rw [h.finddir, if_neg fun hyes => Bool.false_ne_true hyes.1]
  · unfold makeNode
    rw [hnone]

theorem Bare.remove_fails (h : Bare s) (hlen : path.length < 256) (refused : Node ν → Bool) :
    removeChild s path refused = (false, s) := by
  unfold removeChild
  rcases h.parent_cases hlen with ⟨name, hparent, -⟩ | ⟨hnone, -⟩
  · rw [hparent]
    dsimp only
    rw [h.children]
    rfl
  · rw [hnone]

/-- Only the root can be renamed, and only to names in the root. -/
theorem Bare.rename_cases {newpath : List UInt8} (h : Bare s) (oldpath : List UInt8) (hlen : newpath.length < 256) :
    vfsRename s oldpath newpath = some (false, s) ∧ ¬(oldpath = [slash] ∧ NewName newpath) ∨
      oldpath = [slash] ∧ ∃ name, vfsRename s oldpath newpath =
        some (true, s.modify s.root fun n => { n with name := strncpy maxName name }) ∧
        (NewName newpath ∨ newpath.head? = some slash ∧ components newpath = []) := by
  unfold vfsRename
  rw [h.find]
  by_cases hold : oldpath = [slash]
  · subst hold
    rw [if_pos rfl]
    by_cases habs : newpath.head? = some slash
    · obtain ⟨parent, name, rfl, hname⟩ := exists_last (List.mem_of_mem_head? habs)
      rw [getParentAndName_eq hname habs, newName_iff hname]
      have hroot : getParentAndName [slash] = some ([slash], []) := rfl
      rw [hroot]
      by_cases hparent : parent = [] ∨ parent = [slash]
      · have hto : (if parent = [] then some ([slash], strncpy 256 name)
            else if 256 ≤ parent.length then none else some (parent, strncpy 256 name)) =
            some ([slash], strncpy 256 name) := by
          rcases hparent with rfl | rfl
          · rfl
          · rfl
        refine Or.inr ⟨rfl, strncpy 256 name, ?_, ?_⟩
        · rw [hto]
          dsimp only
          rw [h.find, if_pos rfl]
          simp
        · by_cases hnil : name = []
          · refine Or.inr ⟨habs, ?_⟩
            rw [hnil]
            rcases hparent with rfl | rfl
            · rfl
            · rfl
          · exact Or.inl ⟨hnil, hparent⟩
      · refine Or.inl ⟨?_, fun hyes => hparent hyes.2.2⟩
        rw [not_or] at hparent
        rw [if_neg hparent.1]
        split_ifs
        · rfl
        · dsimp only
          rw [h.find, h.find, if_neg hparent.2, if_pos rfl]
    · refine Or.inl ⟨?_, fun hyes => ?_⟩
      · have hnone : getParentAndName newpath = none := if_pos habs
        rw [hnone]
        rfl
      · obtain ⟨name, -, -, rfl | rfl⟩ := hyes.2
        · exact habs rfl
        · exact habs rfl
  · refine Or.inl ⟨?_, fun hyes => hold hyes.1⟩
    rw [if_neg hold]

theorem Bare.renameRoot (h : Bare s) (name : Name) :
    Bare (s.modify s.root fun n => { n with name := strncpy maxName name }) := by
  have hnode : (s.modify s.root fun n => { n with name := strncpy maxName name }).node s.root =
      { s.node s.root with name := strncpy maxName name } := by simp [State.modify]
  refine ⟨?_, ?_, ?_, h.alive⟩
  · exact (congrArg Node.children hnode).trans h.children
  · exact (congrArg Node.finddir hnode).trans h.finddir
  · exact (congrArg Node.type hnode).trans h.type

omit [DecidableEq ν] in
theorem Bare.map_eq (h : Bare s) (names : List Name) :
    s.map names = if names = [] then some (s.root, .directory) else none := by
  unfold State.map
  rw [h.follow]
  split_ifs
  · rw [Option.map_some, h.type]
  · rfl

theorem Bare.rename_iff {oldpath newpath : List UInt8} (h : Bare s) (hlen : newpath.length < 256) :
    Succeeds s (.rename oldpath newpath) ↔ (oldpath = [slash] → ¬NewName newpath) := by
  rcases h.rename_cases oldpath hlen with ⟨hfail, hnot⟩ | ⟨rfl, name, hcall, hnew⟩
  · exact iff_of_true (h.failed hfail) fun hold hyes => hnot ⟨hold, hyes⟩
  · have hbare := h.renameRoot name
    have hmap : (s.modify s.root fun n => { n with name := strncpy maxName name }).map = s.map := by
      funext names
      rw [hbare.map_eq, h.map_eq]
      rfl
    constructor
    · rintro ⟨ok, s', hcall', -, hposix⟩ - ⟨name', hne, hname', hpath⟩
      rw [show call s (.rename [slash] newpath) = _ from hcall] at hcall'
      obtain ⟨rfl, rfl⟩ := Prod.mk.inj (Option.some.inj hcall')
      have hcomps : components newpath = [name'] := by
        unfold components
        rcases hpath with rfl | rfl
        · rw [pieces_cons, pieces_of_notMem hne hname']
        · rw [pieces_cons, pieces_cons, pieces_of_notMem hne hname']
      obtain ⟨-, -, n, type, -, ⟨⟨t, ht⟩, -⟩ | ⟨hroot, -⟩⟩ := hposix
      · rw [hcomps, h.map_eq, if_neg (List.cons_ne_nil _ _)] at ht
        exact nomatch ht
      · exact hroot rfl
    · intro hok
      obtain ⟨habs, hnil⟩ := hnew.resolve_left (hok rfl)
      refine ⟨true, _, hcall, hbare.good, ?_⟩
      have hat : s.map [] = some (s.root, .directory) := h.map_eq []
      refine ⟨rfl, habs, s.root, .directory, hat, Or.inl ⟨⟨.directory, ?_⟩, hmap⟩⟩
      rw [hnil]
      exact hat

theorem Bare.succeeds_iff {c : Call ν} (h : Bare s) (hallowed : Allowed s c) : Succeeds s c ↔ CallOk c := by
  cases c with
  | mkdir path fresh => exact h.make_iff hallowed.1 hallowed.2 (congrArg some (h.mkdir_eq hallowed.1))
  | symlink path fresh => exact h.make_iff hallowed.1 hallowed.2 rfl
  | rmdir path => exact iff_of_true (h.failed (congrArg some (h.remove_fails hallowed _))) trivial
  | unlink path => exact iff_of_true (h.failed (congrArg some (h.remove_fails hallowed _))) trivial
  | rename oldpath newpath => exact h.rename_iff hallowed.2

/-- Calls that are as they should be leave a bare state bare. -/
theorem Bare.step {c : Call ν} (h : Bare s) (hallowed : Allowed s c) (hok : CallOk c)
    (hst : namespaceStep s c = some s') : Bare s' := by
  have hkept : ∀ {r : Bool × State ν}, r = (false, s) → some r.2 = some s' → Bare s' := by
    rintro r rfl hst
    exact Option.some.inj hst ▸ h
  cases c with
  | mkdir path fresh => exact hkept ((h.mkdir_eq hallowed.1).trans (h.make_fails hallowed.1 hok)) hst
  | symlink path fresh => exact hkept (h.make_fails hallowed.1 hok) hst
  | rmdir path => exact hkept (h.remove_fails hallowed _) hst
  | unlink path => exact hkept (h.remove_fails hallowed _) hst
  | rename oldpath newpath =>
    have hst : (vfsRename s oldpath newpath).map Prod.snd = some s' := hst
    rcases h.rename_cases oldpath hallowed.2 with ⟨hfail, -⟩ | ⟨-, name, hcall, -⟩
    · rw [hfail] at hst
      exact Option.some.inj hst ▸ h
    · rw [hcall] at hst
      exact Option.some.inj hst ▸ h.renameRoot name

/-- In every run that makes nothing in the root and does not rename it the namespace is a tree with unique names in
which every path is found, and any call does to it what its POSIX counterpart does exactly if it is one more such. -/
theorem vfs_namespace_ok (root : ν)
    (h : Run.Reach namespaceStep (fun s c => Allowed s c ∧ CallOk c) (fsInit root) s) :
    Good s ∧ ∀ c, Allowed s c → (Succeeds s c ↔ CallOk c) := by
  have hbare : Bare s := h.invariant (fsInit_bare root) fun s c t hs hok hst => hs.step hok.1 hok.2 hst
  exact ⟨hbare.good, fun c hallowed => hbare.succeeds_iff hallowed⟩

/-- Removing what is not there fails, and so does renaming it. -/
theorem vfs_namespace_ok_two : ∃ s : State Bool,
    Run.run namespaceStep (fsInit false) [.rmdir [47, 97], .rename [47, 97] [47, 98]] = some s ∧
      Good s ∧ ∀ c, Allowed s c → (Succeeds s c ↔ CallOk c) := by
  have hlen : [(47 : UInt8), 97].length < 256 := by decide
  have hlen' : [(47 : UInt8), 98].length < 256 := by decide
  have hold : ¬[(47 : UInt8), 97] = [slash] := by decide
  have hrmdir : namespaceStep (fsInit false) (.rmdir [47, 97]) = some (fsInit false) :=
    congrArg (fun r : Bool × State Bool => some r.2) ((fsInit_bare false).remove_fails hlen _)
  have hrename : namespaceStep (fsInit false) (.rename [47, 97] [47, 98]) = some (fsInit false) := by
    rcases (fsInit_bare false).rename_cases [47, 97] hlen' with ⟨hfail, -⟩ | ⟨hroot, -⟩
    · exact congrArg (Option.map Prod.snd) hfail
    · exact absurd hroot hold
  have hreach : Run.Reach namespaceStep (fun s c => Allowed s c ∧ CallOk c) (fsInit false) (fsInit false) :=
    (Run.Reach.start.step (.rmdir [47, 97]) ⟨hlen, trivial⟩ hrmdir).step (.rename [47, 97] [47, 98])
      ⟨⟨hlen, hlen'⟩, fun hroot => absurd hroot hold⟩ hrename
  refine ⟨fsInit false, ?_, vfs_namespace_ok false hreach⟩
  rw [Run.run_cons hrmdir, Run.run_cons hrename, Run.run_nil]

/-- A directory that was made is not found. -/
theorem made_not_found : ¬∀ s, Run.Reach namespaceStep Allowed (fsInit false) s → Good s := by
  intro hall
  have hlen : [(47 : UInt8), 97].length < 256 := by decide
  have hparent : parentAndName (fsInit false) [47, 97] = some ((fsInit false).root, [97]) := rfl
  obtain ⟨s, hmake, hbad⟩ : ∃ s, makeNode (fsInit false) (some true) [47, 97] .directory = (true, s) ∧ ¬Good s :=
    (fsInit_bare false).make_lost .directory hparent (by decide) (by decide) (by decide) rfl
  have hst : namespaceStep (fsInit false) (.mkdir [47, 97] (some true)) = some s :=
    congrArg (fun r : Bool × State Bool => some r.2) (((fsInit_bare false).mkdir_eq hlen).trans hmake)
  have hallowed : Allowed (fsInit false) (.mkdir [47, 97] (some true)) := by
    refine ⟨hlen, fun n hn => ?_⟩
    obtain rfl := Option.some.inj hn
    rfl
  exact hbad (hall s (Run.Reach.start.step _ hallowed hst))

end Vfs
