import Kenux.Vfs.Paths

/-!
# Nodes and descriptors (`kernel/fs.c`)

The children of a node are the list that its pointers make, the newest first. `vfs_create_node` leaves the operations
of a node null, and a node that has `finddir` finds its children by their names. A call that allocates is told the node
it gets, or that there is none.
-/

namespace Vfs

variable {ν : Type}

inductive NodeType where
  | regular
  | directory
  | fifo
  | symlink
  deriving DecidableEq

/-- `vfs_node_t` -/
structure Node (ν : Type) where
  name : Name := []
  type : NodeType := .regular
  finddir : Bool := false
  children : List ν := []
  parent : Option ν := none

/-- `open_file_t`, where its node is not null. -/
structure OpenFile (ν : Type) where
  node : ν
  offset : UInt64

/-- The nodes, those that are allocated, and the table of descriptors. -/
structure State (ν : Type) where
  node : ν → Node ν
  root : ν
  alive : ν → Bool
  openFiles : ℕ → Option (OpenFile ν) := fun _ => none
  nextFd : ℕ := 0

def maxName : ℕ := 256

def maxOpenFds : ℕ := 1024

theorem State.nameless (s : State ν) (n : ν) :
    (if ([] : Name) = [] then none else (s.node n).children.find? fun c => (s.node c).name = []) = none := if_pos rfl

/-- What the children of a node and its `finddir` make of the nodes. -/
def State.tree (s : State ν) : Tree ν where
  root := s.root
  isDirectory n := (s.node n).finddir
  finddir n name := if name = [] then none else (s.node n).children.find? fun c => (s.node c).name = name
  named := s.nameless

/-- `get_parent_and_name`, with buffers of 256 bytes -/
def getParentAndName (path : List UInt8) : Option (List UInt8 × Name) :=
  if path.head? ≠ some slash then none
  else if path = [slash] then some ([slash], [])
  else
    let name := (path.reverse.takeWhile (· ≠ slash)).reverse
    let parentLen := path.length - name.length - 1
    if parentLen = 0 then some ([slash], strncpy 256 name)
    else if parentLen ≥ 256 then none
    else some (path.take parentLen, strncpy 256 name)

/-- The parent and the name for a call that wants a name. -/
def parentAndName (s : State ν) (path : List UInt8) : Option (ν × Name) := do
  let (parentPath, name) ← getParentAndName path
  if name = [] then none
  else
    let parent ← vfsFindPath s.tree parentPath
    pure (parent, name)

variable [DecidableEq ν]

def State.modify (s : State ν) (n : ν) (f : Node ν → Node ν) : State ν :=
  { s with node := Function.update s.node n (f (s.node n)) }

/-- `vfs_create_node`, for the node that `kzalloc` gives. -/
def vfsCreateNode (s : State ν) (fresh : ν) (name : Name) (type : NodeType) : State ν :=
  { s with
    node := Function.update s.node fresh { name := strncpy maxName name, type := type }
    alive := Function.update s.alive fresh true }

def vfsAddChild (s : State ν) (parent child : ν) : State ν :=
  (s.modify child fun n => { n with parent := some parent }).modify parent fun n =>
    { n with children := child :: n.children }

/-- `vfs_mkdir` and `vfs_symlink` make a node of their own type; `vfs_symlink` does not look for the name. -/
def makeNode (s : State ν) (fresh : Option ν) (path : List UInt8) (type : NodeType) : Bool × State ν :=
  match parentAndName s path, fresh with
  | some (parent, name), some child => (true, vfsAddChild (vfsCreateNode s child name type) parent child)
  | _, _ => (false, s)

def vfsMkdir (s : State ν) (fresh : Option ν) (path : List UInt8) : Bool × State ν :=
  match parentAndName s path with
  | none => (false, s)
  | some (parent, name) =>
    if (s.node parent).finddir ∧ s.tree.finddir parent name ≠ none then (false, s)
    else makeNode s fresh path .directory

def vfsSymlink (s : State ν) (fresh : Option ν) (path : List UInt8) : Bool × State ν :=
  makeNode s fresh path .symlink

/-- The loop of `vfs_rmdir` and `vfs_unlink`: the first child with the name goes, unless it may not. -/
def removeChild (s : State ν) (path : List UInt8) (refused : Node ν → Bool) : Bool × State ν :=
  match parentAndName s path with
  | none => (false, s)
  | some (parent, name) =>
    match (s.node parent).children.find? fun c => (s.node c).name = name with
    | none => (false, s)
    | some child =>
      if refused (s.node child) then (false, s)
      else
        let s := s.modify parent fun n => { n with children := n.children.erase child }
        (true, { s with alive := Function.update s.alive child false })

def vfsRmdir (s : State ν) (path : List UInt8) : Bool × State ν := removeChild s path fun n => n.children ≠ []

def vfsUnlink (s : State ν) (path : List UInt8) : Bool × State ν := removeChild s path fun n => n.type = .directory

/-- `vfs_rename`. A node that is not found in the list it is taken from but stays in another spoils that one, and there
is no result. -/
def vfsRename (s : State ν) (oldpath newpath : List UInt8) : Option (Bool × State ν) :=
  match vfsFindPath s.tree oldpath, getParentAndName oldpath, getParentAndName newpath with
  | some node, some (oldParentPath, _), some (newParentPath, newName) =>
    match vfsFindPath s.tree oldParentPath, vfsFindPath s.tree newParentPath with
    | some oldParent, some newParent =>
      let renamed := s.modify node fun n => { n with name := strncpy maxName newName }
      if oldParentPath = newParentPath then some (true, renamed)
      else if node ∉ (s.node oldParent).children ∧ (s.node node).parent ≠ none then none
      else
        let s := renamed.modify oldParent fun n => { n with children := n.children.erase node }
        some (true, vfsAddChild s newParent node)
    | _, _ => some (false, s)
  | _, _, _ => some (false, s)

/-! ## Descriptors -/

def State.setFile (s : State ν) (fd : ℕ) (file : Option (OpenFile ν)) : State ν :=
  { s with openFiles := Function.update s.openFiles fd file }

def vfsOpen (s : State ν) (path : List UInt8) : Option ℕ × State ν :=
  match vfsFindPath s.tree path with
  | none => (none, s)
  | some node =>
    if s.nextFd ≥ maxOpenFds then (none, s)
    else (some s.nextFd, { s.setFile s.nextFd (some ⟨node, 0⟩) with nextFd := s.nextFd + 1 })

def vfsClose (s : State ν) (fd : ℕ) : Bool × State ν :=
  if fd ≥ maxOpenFds ∨ s.openFiles fd = none then (false, s) else (true, s.setFile fd none)

def vfsDup (s : State ν) (fd : ℕ) : Option ℕ × State ν :=
  if fd ≥ maxOpenFds ∨ s.openFiles fd = none then (none, s)
  else if s.nextFd ≥ maxOpenFds then (none, s)
  else (some s.nextFd, { s.setFile s.nextFd (s.openFiles fd) with nextFd := s.nextFd + 1 })

def vfsDup2 (s : State ν) (oldfd newfd : ℕ) : Option ℕ × State ν :=
  if oldfd ≥ maxOpenFds ∨ newfd ≥ maxOpenFds ∨ s.openFiles oldfd = none then (none, s)
  else
    let s := (vfsClose s newfd).2
    (some newfd, s.setFile newfd (s.openFiles oldfd))

/-- `vfs_pipe`; the node stays allocated when there are no descriptors. -/
def vfsPipe (s : State ν) (fresh : Option ν) : Option (ℕ × ℕ) × State ν :=
  match fresh with
  | none => (none, s)
  | some node =>
    let s := vfsCreateNode s node [112, 105, 112, 101] .fifo
    if s.nextFd ≥ maxOpenFds - 1 then (none, s)
    else
      let fd0 := s.nextFd
      let fd1 := s.nextFd + 1
      (some (fd0, fd1),
        { (s.setFile fd0 (some ⟨node, 0⟩)).setFile fd1 (some ⟨node, 0⟩) with nextFd := s.nextFd + 2 })

end Vfs
