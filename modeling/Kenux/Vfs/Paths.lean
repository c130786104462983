import Kenux.Ext2.ReadFile
import Kenux.Lib.Pieces

/-!
# Paths (`kernel/fs.c`, `arch/x86_64/ext2.c`)

A string is the list of its bytes before the 0 at its end, and a pointer into it is what is left of the list from there
on. Allocations succeed, and what a new buffer holds is a parameter.
-/

namespace Vfs

abbrev Name := List UInt8

def slash : UInt8 := 47

def tempSize : ℕ := 256

def cwdSize : ℕ := 4096

/-- `strncpy` to a buffer, and the 0 at its end. -/
def strncpy (size : ℕ) (path : List UInt8) : List UInt8 := path.take (size - 1)

/-- Directories and what is in them; `finddir` finds the child with exactly this name, and only directories have it. -/
structure Tree (ν : Type) where
  root : ν
  isDirectory : ν → Bool
  finddir : ν → Name → Option ν
  named : ∀ node, finddir node [] = none

variable {ν : Type}

/-- The loop of `vfs_find_path`. -/
def findFrom (t : Tree ν) (node : ν) (p : List UInt8) : Option ν :=
  if p = [] then some node
  else
    let token := p.takeWhile (· ≠ slash)
    let rest := (p.dropWhile (· ≠ slash)).tail
    if t.isDirectory node then
      match t.finddir node token with
      | none => none
      | some node => findFrom t node (rest.dropWhile (· = slash))
    else none
termination_by p.length
decreasing_by
  have hskip := (List.dropWhile_suffix (· = slash) (l := (p.dropWhile (· ≠ slash)).tail)).length_le
  have hle := (List.dropWhile_suffix (· ≠ slash) (l := p)).length_le
  have hpos := List.length_pos_iff.mpr ‹¬p = []›
  rw [List.length_tail] at hskip
  omega

/-- `vfs_find_path` -/
def vfsFindPath (t : Tree ν) (path : List UInt8) : Option ν :=
  if path.head? ≠ some slash then none
  else if path = [slash] then some t.root
  else findFrom t t.root (strncpy tempSize path).tail

/-- `vfs_chdir`, with the working directory before and after it. -/
def vfsChdir (t : Tree ν) (cwd path : List UInt8) : Option (List UInt8) :=
  let full := if path.head? = some slash then path else (cwd ++ slash :: path).take (cwdSize - 1)
  match vfsFindPath t full with
  | none => none
  | some node => if t.isDirectory node then some (strncpy cwdSize full) else none

/-! ## ext2 -/

/-- What the descriptors and the superblock of a mounted `ext2_fs_t` say, and its disk. -/
structure Volume where
  disk : Ext2.Disk
  inodesPerGroup : UInt32
  inodeSize : UInt16
  inodeTable : ℕ → UInt32
  grouped : inodesPerGroup ≠ 0

/-- What the buffers for one component hold at first; the pointer blocks of every round have their own. -/
structure Dirt where
  table : Memory.Mem
  inode : Memory.Mem
  pointers : ℕ → Memory.Mem
  block : Memory.Mem

/-- `sizeof(ext2_inode_t)` -/
def sizeofInode : ℕ := 128

def ext2GetInode (v : Volume) (dirt : Dirt) (inodeNum : UInt32) : Ext2.Inode :=
  let group := (inodeNum - 1) / v.inodesPerGroup
  let table := Ext2.ext2ReadBlock v.disk (v.inodeTable group.toNat) dirt.table
  let index := (inodeNum - 1) % v.inodesPerGroup
  let result : Memory.Mem := fun i =>
    if i < v.inodeSize.toNat then table (sizeofInode * index.toNat + i) else dirt.inode i
  { size := UInt32.ofNat (Memory.load result 4 4)
    block := fun k => UInt32.ofNat (Memory.load result (40 + 4 * k) 4) }

/-- The entries of a directory block from `offset` on. -/
def scanBlock (buf : Memory.Mem) (token : Name) (offset : ℕ) : UInt32 :=
  if offset < Ext2.ext2BlockSize then
    let recLen := Memory.load buf (offset + 4) 2
    if recLen = 0 then 0
    else
      let inode := UInt32.ofNat (Memory.load buf offset 4)
      if inode ≠ 0 ∧ (buf (offset + 6)).toNat = token.length ∧
          (List.range token.length).map (fun i => buf (offset + 8 + i)) = token then inode
      else scanBlock buf token (offset + recLen)
  else 0
termination_by Ext2.ext2BlockSize - offset

/-- The blocks of a directory; all are read to one buffer. -/
def scanBlocks (v : Volume) (dirt : Dirt) (dir : Ext2.Inode) (token : Name) : List ℕ → Memory.Mem → UInt32
  | [], _ => 0
  | b :: bs, buf =>
    let block := Ext2.ext2GetBlockNum v.disk dir (dirt.pointers b) b
    if block = 0 then scanBlocks v dirt dir token bs buf
    else
      let buf := Ext2.ext2ReadBlock v.disk block buf
      let found := scanBlock buf token 0
      if found ≠ 0 then found else scanBlocks v dirt dir token bs buf

/-- One component of `ext2_lookup_path`. -/
def ext2FindEntry (v : Volume) (dirt : Dirt) (ino : UInt32) (token : Name) : UInt32 :=
  let dir := ext2GetInode v dirt ino
  let dirBlocks := (dir.size + 1024 - 1) / 1024
  scanBlocks v dirt dir token (List.range dirBlocks.toNat) dirt.block

/-- The loop of `ext2_lookup_path`; `round` counts the components. -/
def lookupFrom (v : Volume) (dirt : ℕ → Dirt) (round : ℕ) (currentIno : UInt32) (p : List UInt8) : UInt32 :=
  if p = [] then currentIno
  else
    let name := p.dropWhile (· = slash)
    if name = [] then currentIno
    else
      let token := name.takeWhile (· ≠ slash)
      let rest := (name.dropWhile (· ≠ slash)).tail
      let found := ext2FindEntry v (dirt round) currentIno token
      if found = 0 then 0 else lookupFrom v dirt (round + 1) found rest
termination_by p.length
decreasing_by
  have hskip := (List.dropWhile_suffix (· = slash) (l := p)).length_le
  have hle := (List.dropWhile_suffix (· ≠ slash) (l := p.dropWhile (· = slash))).length_le
  have hpos := List.length_pos_iff.mpr ‹¬p.dropWhile (· = slash) = []›
  rw [List.length_tail]
  omega

/-- `ext2_lookup_path` -/
def ext2LookupPath (v : Volume) (dirt : ℕ → Dirt) (path : List UInt8) : UInt32 :=
  if path.head? = some slash then lookupFrom v dirt 0 2 (strncpy tempSize path).tail else 0

/-! ## What a path stands for -/

/-- The names in a path. -/
def components (path : List UInt8) : List Name := Pieces.pieces slash path

/-- One name after the other. -/
def Tree.follow (t : Tree ν) (node : ν) : List Name → Option ν
  | [] => some node
  | name :: names => if t.isDirectory node then (t.finddir node name).bind fun child => t.follow child names else none

/-- What an absolute path stands for that fits. -/
def resolve (t : Tree ν) (path : List UInt8) : Option ν :=
  if path.head? = some slash ∧ path.length < tempSize then t.follow t.root (components path) else none

/-- One inode after the other. -/
def entryPath (v : Volume) (dirt : ℕ → Dirt) (round : ℕ) (ino : UInt32) : List Name → UInt32
  | [] => ino
  | name :: names =>
    if ext2FindEntry v (dirt round) ino name = 0 then 0
    else entryPath v dirt (round + 1) (ext2FindEntry v (dirt round) ino name) names

/-- A tree and a volume with the same directories: a name is found in both or in neither. What regular files of the
volume hold is not said. -/
structure Image (ν : Type) where
  tree : Tree ν
  volume : Volume
  number : ν → UInt32
  number_root : number tree.root = 2
  number_ne : ∀ node, number node ≠ 0
  shows : ∀ node, tree.isDirectory node → ∀ name, name ≠ [] → slash ∉ name → ∀ dirt,
    ext2FindEntry volume dirt (number node) name = ((tree.finddir node name).map number).getD 0

/-- Both lookups give what the path stands for. -/
def PathOk (I : Image ν) (path : List UInt8) : Prop :=
  vfsFindPath I.tree path = resolve I.tree path ∧
    ∀ dirt, ext2LookupPath I.volume dirt path = ((vfsFindPath I.tree path).map I.number).getD 0

/-- Names of the path lead to a regular file whose bytes, read as directory entries, have the names that follow. -/
def Forged (I : Image ν) (names : List Name) : Prop :=
  ∃ pre name post file dirt, names = pre ++ name :: post ∧ I.tree.follow I.tree.root pre = some file ∧
    I.tree.isDirectory file = false ∧ entryPath I.volume dirt pre.length (I.number file) (name :: post) ≠ 0

/-- When both lookups are right: what the first 255 bytes of an absolute path stand for is not there, or it is, the
path has no other bytes and does not begin with two slashes; and no regular file on the way is taken for a directory. -/
def Clear (I : Image ν) (path : List UInt8) : Prop :=
  path.head? = some slash →
    (I.tree.follow I.tree.root (components (path.take 255)) ≠ none → path.length ≤ 255 ∧ ¬[slash, slash] <+: path) ∧
      ¬Forged I (components (path.take 255))

end Vfs
