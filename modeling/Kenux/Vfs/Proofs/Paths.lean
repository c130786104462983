import Kenux.Vfs.Paths

/-!
# The two lookups of a path

Both scanners find the pieces between slashes, apart from a second slash at the very beginning, and what they do with
the names agrees for as long as these lead through directories.
-/

namespace Vfs

open Pieces

variable {ν : Type} {t : Tree ν} {I : Image ν} {node child : ν} {path p cwd : List UInt8} {names : List Name}

/-! ## Names -/

theorem components_tail (habs : path.head? = some slash) : components path.tail = components path := by
  cases path with
  | nil => rfl
  | cons x path =>
    obtain rfl : x = slash := Option.some.inj habs
    exact (pieces_cons slash path).symm

theorem follow_cons (t : Tree ν) (node : ν) (name : Name) (names : List Name) : t.follow node (name :: names) =
    if t.isDirectory node then (t.finddir node name).bind fun child => t.follow child names else none := rfl

theorem follow_append (t : Tree ν) (node : ν) (pre post : List Name) :
    t.follow node (pre ++ post) = (t.follow node pre).bind fun child => t.follow child post := by
  induction pre generalizing node with
  | nil => rfl
  | cons name pre ih =>
    rw [List.cons_append, follow_cons, follow_cons]
    split_ifs with hdir
    · cases hfound : t.finddir node name with
      | none => rfl
      | some child => exact ih child
    · rfl

/-! ## `vfs_find_path` -/

theorem findFrom_eq (t : Tree ν) (node : ν) (p : List UInt8) (hhead : p.head? ≠ some slash) :
    findFrom t node p = t.follow node (components p) := by
  induction hlen : p.length using Nat.strong_induction_on generalizing node p with
  | _ n ih =>
    rw [findFrom]
    by_cases hnil : p = []
    · rw [if_pos hnil, hnil]
      rfl
    · have hskip := (List.dropWhile_suffix (· = slash) (l := (p.dropWhile (· ≠ slash)).tail)).length_le
      have hle := (List.dropWhile_suffix (· ≠ slash) (l := p)).length_le
      have hpos := List.length_pos_iff.mpr hnil
      rw [List.length_tail] at hskip
      have hnext : ((p.dropWhile (· ≠ slash)).tail.dropWhile (· = slash)).head? ≠ some slash := by
        intro hslash
        have hstop := List.head?_dropWhile_not (· = slash) (p.dropWhile (· ≠ slash)).tail
        rw [hslash] at hstop
        exact of_decide_eq_false hstop rfl
      have hnames : components p = p.takeWhile (· ≠ slash) ::
          components ((p.dropWhile (· ≠ slash)).tail.dropWhile (· = slash)) := by
        unfold components
        rw [pieces_dropWhile]
        exact pieces_eq hnil hhead
      rw [if_neg hnil, hnames]
      unfold Tree.follow
      dsimp only
      split_ifs with hdir
      · cases hfound : t.finddir node (p.takeWhile (· ≠ slash)) with
        | none => rfl
        | some child => exact ih _ (by omega) child _ hnext rfl
      · rfl

/-- A second slash at the beginning is an empty name. -/
theorem findFrom_slash (t : Tree ν) (node : ν) (rest : List UInt8) : findFrom t node (slash :: rest) = none := by
  rw [findFrom]
  simp [t.named]

theorem vfsFindPath_eq (habs : path.head? = some slash) (hsingle : ¬[slash, slash] <+: path) :
    vfsFindPath t path = t.follow t.root (components (path.take 255)) := by
  unfold vfsFindPath strncpy tempSize
  rw [if_neg (not_not.mpr habs)]
  cases path with
  | nil => exact nomatch habs
  | cons x rest =>
    obtain rfl : x = slash := Option.some.inj habs
    have hhead : rest.head? ≠ some slash := by
      intro hslash
      cases rest with
      | nil => exact nomatch hslash
      | cons y rest =>
        obtain rfl : y = slash := Option.some.inj hslash
        exact hsingle ⟨rest, rfl⟩
    split_ifs with hroot
    · rw [hroot]
      rfl
    · have htake : (rest.take 254).head? ≠ some slash := by
        cases rest with
        | nil => exact hhead
        | cons y rest => exact hhead
      rw [← components_tail (by rfl : ((slash :: rest).take 255).head? = some slash)]
      exact findFrom_eq t t.root _ htake

theorem vfsFindPath_double (hdouble : [slash, slash] <+: path) : vfsFindPath t path = none := by
  obtain ⟨rest, rfl⟩ := hdouble
  unfold vfsFindPath
  rw [if_neg (by simp), if_neg (by simp)]
  exact findFrom_slash t t.root _

theorem vfsFindPath_relative (hrel : path.head? ≠ some slash) : vfsFindPath t path = none := if_pos hrel

/-- What holds of the root and goes from directories to their children holds of what is found. -/
theorem vfsFindPath_reaches {P : ν → Prop} (hroot : P t.root)
    (hchild : ∀ n m name, P n → t.finddir n name = some m → P m) (hfind : vfsFindPath t path = some node) : P node := by
  have hfollow : ∀ (names : List Name) (n : ν), P n → t.follow n names = some node → P node := by
    intro names
    induction names with
    | nil =>
      intro n hn hsome
      exact Option.some.inj hsome ▸ hn
    | cons name names ih =>
      intro n hn hsome
      rw [follow_cons] at hsome
      split_ifs at hsome with hdir
      obtain ⟨m, hm, hsome⟩ := Option.bind_eq_some_iff.mp hsome
      exact ih m (hchild n m name hn hm) hsome
  by_cases habs : path.head? = some slash
  · by_cases hdouble : [slash, slash] <+: path
    · rw [vfsFindPath_double hdouble] at hfind
      exact nomatch hfind
    · rw [vfsFindPath_eq habs hdouble] at hfind
      exact hfollow _ _ hroot hfind
  · rw [vfsFindPath_relative habs] at hfind
    exact nomatch hfind

/-! ## `ext2_lookup_path` -/

theorem lookupFrom_eq (v : Volume) (dirt : ℕ → Dirt) (round : ℕ) (ino : UInt32) (p : List UInt8) :
    lookupFrom v dirt round ino p = entryPath v dirt round ino (components p) := by
  induction hlen : p.length using Nat.strong_induction_on generalizing round ino p with
  | _ n ih =>
    rw [lookupFrom]
    by_cases hnil : p = []
    · rw [if_pos hnil, hnil]
      rfl
    · have hskip : components p = components (p.dropWhile (· = slash)) := (pieces_dropWhile slash p).symm
      rw [if_neg hnil, hskip]
      have hhead : (p.dropWhile (· = slash)).head? ≠ some slash := by
        intro hslash
        have hstop := List.head?_dropWhile_not (· = slash) p
        rw [hslash] at hstop
        exact of_decide_eq_false hstop rfl
      have hle := (List.dropWhile_suffix (· = slash) (l := p)).length_le
      generalize p.dropWhile (· = slash) = name at hhead hle ⊢
      dsimp only
      by_cases hend : name = []
      · rw [if_pos hend, hend]
        rfl
      · have hle' := (List.dropWhile_suffix (· ≠ slash) (l := name)).length_le
        have hpos := List.length_pos_iff.mpr hend
        have hnames : components name = name.takeWhile (· ≠ slash) :: components (name.dropWhile (· ≠ slash)).tail :=
          pieces_eq hend hhead
        rw [if_neg hend, hnames]
        unfold entryPath
        split_ifs with hfound
        · rfl
        · apply ih _ _ _ _ _ rfl
          rw [List.length_tail]
          omega

theorem ext2LookupPath_eq (v : Volume) (dirt : ℕ → Dirt) (habs : path.head? = some slash) :
    ext2LookupPath v dirt path = entryPath v dirt 0 2 (components (path.take 255)) := by
  have hhead : (path.take 255).head? = some slash := by
    cases path with
    | nil => exact habs
    | cons x path => exact habs
  unfold ext2LookupPath
  rw [if_pos habs, lookupFrom_eq]
  exact congrArg _ (components_tail hhead)

/-! ## Names in a volume -/

theorem entryPath_cons (v : Volume) (dirt : ℕ → Dirt) (round : ℕ) (ino : UInt32) (name : Name) (names : List Name) :
    entryPath v dirt round ino (name :: names) = if ext2FindEntry v (dirt round) ino name = 0 then 0
      else entryPath v dirt (round + 1) (ext2FindEntry v (dirt round) ino name) names := rfl

theorem entryPath_append (v : Volume) (dirt : ℕ → Dirt) (round : ℕ) (ino : UInt32) (pre post : List Name)
    (hpre : entryPath v dirt round ino pre ≠ 0) :
    entryPath v dirt round ino (pre ++ post) =
      entryPath v dirt (round + pre.length) (entryPath v dirt round ino pre) post := by
  induction pre generalizing round ino with
  | nil => rfl
  | cons name pre ih =>
    rw [entryPath_cons] at hpre
    rw [List.cons_append, entryPath_cons, entryPath_cons]
    split_ifs at hpre ⊢ with hfound
    · exact absurd rfl hpre
    · rw [ih _ _ hpre, List.length_cons, Nat.add_assoc, Nat.add_comm 1]

/-- What is there is found in the volume. -/
theorem entryPath_some (hnames : ∀ name ∈ names, name ≠ [] ∧ slash ∉ name) (dirt : ℕ → Dirt) (round : ℕ)
    (hfollow : I.tree.follow node names = some child) :
    entryPath I.volume dirt round (I.number node) names = I.number child := by
  induction names generalizing node round with
  | nil =>
    obtain rfl : node = child := Option.some.inj hfollow
    rfl
  | cons name names ih =>
    obtain ⟨hname, hrest⟩ := List.forall_mem_cons.mp hnames
    unfold Tree.follow at hfollow
    split_ifs at hfollow with hdir
    obtain ⟨next, hfound, hfollow⟩ := Option.bind_eq_some_iff.mp hfollow
    have hentry := I.shows node hdir name hname.1 hname.2 (dirt round)
    rw [hfound] at hentry
    have hentry : ext2FindEntry I.volume (dirt round) (I.number node) name = I.number next := hentry
    unfold entryPath
    rw [hentry, if_neg (I.number_ne next)]
    exact ih hrest (round + 1) hfollow

/-- What is not there is not found, or a regular file passes for a directory. -/
theorem entryPath_none (hnames : ∀ name ∈ names, name ≠ [] ∧ slash ∉ name) (dirt : ℕ → Dirt) (round : ℕ)
    (hfollow : I.tree.follow node names = none) :
    entryPath I.volume dirt round (I.number node) names = 0 ∨
      ∃ pre name post file, names = pre ++ name :: post ∧ I.tree.follow node pre = some file ∧
        I.tree.isDirectory file = false ∧
        entryPath I.volume dirt (round + pre.length) (I.number file) (name :: post) ≠ 0 := by
  induction names generalizing node round with
  | nil => exact nomatch hfollow
  | cons name names ih =>
    by_cases hzero : entryPath I.volume dirt round (I.number node) (name :: names) = 0
    · exact Or.inl hzero
    apply Or.inr
    obtain ⟨hname, hrest⟩ := List.forall_mem_cons.mp hnames
    cases hdir : I.tree.isDirectory node with
    | false => exact ⟨[], name, names, node, rfl, rfl, hdir, hzero⟩
    | true =>
      have hentry := I.shows node hdir name hname.1 hname.2 (dirt round)
      unfold Tree.follow at hfollow
      rw [if_pos hdir] at hfollow
      unfold entryPath at hzero
      cases hfound : I.tree.finddir node name with
      | none =>
        rw [hfound] at hentry
        exact absurd (if_pos hentry) hzero
      | some next =>
        rw [hfound] at hentry hfollow
        have hentry : ext2FindEntry I.volume (dirt round) (I.number node) name = I.number next := hentry
        rw [hentry, if_neg (I.number_ne next)] at hzero
        obtain ⟨pre, name', post, file, hsplit, hpre, hfile, hforged⟩ :=
          (ih hrest (round + 1) hfollow).resolve_left hzero
        refine ⟨name :: pre, name', post, file, by rw [hsplit, List.cons_append], ?_, hfile, ?_⟩
        · unfold Tree.follow
          rw [if_pos hdir, hfound]
          exact hpre
        · rw [List.length_cons, Nat.add_comm pre.length, ← Nat.add_assoc]
          exact hforged

/-! ## Agreement -/

theorem components_named (path : List UInt8) : ∀ name ∈ components path, name ≠ [] ∧ slash ∉ name :=
  fun _ hmem => of_mem hmem

theorem resolve_eq (habs : path.head? = some slash) (hle : path.length ≤ 255) :
    resolve t path = t.follow t.root (components (path.take 255)) := by
  unfold resolve
  rw [if_pos ⟨habs, Nat.lt_succ_of_le hle⟩, List.take_of_length_le hle]

theorem resolve_long (hlong : ¬path.length ≤ 255) : resolve t path = none :=
  if_neg fun hyes => hlong (Nat.le_of_lt_succ hyes.2)

theorem forged_entryPath (h : Forged I names) (hnames : ∀ name ∈ names, name ≠ [] ∧ slash ∉ name) :
    I.tree.follow I.tree.root names = none ∧ ∃ dirt, entryPath I.volume dirt 0 2 names ≠ 0 := by
  obtain ⟨pre, name, post, file, dirt, rfl, hpre, hfile, hforged⟩ := h
  have hreach : entryPath I.volume dirt 0 2 pre = I.number file := by
    rw [← I.number_root]
    exact entryPath_some (fun x hx => hnames x (List.mem_append_left _ hx)) dirt 0 hpre
  constructor
  · rw [follow_append, hpre]
    unfold Tree.follow
    simp [hfile]
  · refine ⟨dirt, ?_⟩
    have hne : entryPath I.volume dirt 0 2 pre ≠ 0 := by
      rw [hreach]
      exact I.number_ne file
    rw [entryPath_append _ _ _ _ _ _ hne, hreach, Nat.zero_add]
    exact hforged

/-- In a tree without a volume a path that is cut is no worse for the two slashes it begins with. -/
theorem vfsFindPath_resolves (t : Tree ν) (path : List UInt8) : vfsFindPath t path = resolve t path ↔
    (path.head? = some slash → t.follow t.root (components (path.take 255)) ≠ none →
      (path.length ≤ 255 ↔ ¬[slash, slash] <+: path)) := by
  by_cases habs : path.head? = some slash
  · by_cases hdouble : [slash, slash] <+: path
    · rw [vfsFindPath_double hdouble]
      by_cases hle : path.length ≤ 255
      · rw [resolve_eq habs hle]
        constructor
        · intro hnone _ hnamed
          exact absurd hnone.symm hnamed
        · intro hnamed
          by_contra hsome
          exact (hnamed habs (Ne.symm hsome)).mp hle hdouble
      · rw [resolve_long hle]
        exact iff_of_true rfl fun _ _ => iff_of_false hle fun hsingle => hsingle hdouble
    · rw [vfsFindPath_eq habs hdouble]
      by_cases hle : path.length ≤ 255
      · rw [resolve_eq habs hle]
        exact iff_of_true rfl fun _ _ => iff_of_true hle hdouble
      · rw [resolve_long hle]
        constructor
        · intro hnone _ hnamed
          exact absurd hnone hnamed
        · intro hnamed
          by_contra hsome
          exact hle ((hnamed habs hsome).mpr hdouble)
  · refine iff_of_true ?_ fun hyes => absurd hyes habs
    rw [vfsFindPath_relative habs]
    exact (if_neg fun hyes => habs hyes.1).symm

theorem pathOk_iff (I : Image ν) (path : List UInt8) : PathOk I path ↔ Clear I path := by
  by_cases habs : path.head? = some slash
  · have hnames := components_named (path.take 255)
    have hext2 : ∀ dirt, ext2LookupPath I.volume dirt path =
        entryPath I.volume dirt 0 2 (components (path.take 255)) := fun dirt => ext2LookupPath_eq I.volume dirt habs
    constructor
    · rintro ⟨hvfs, hagree⟩ -
      refine ⟨fun hnamed => ?_, fun hforged => ?_⟩
      · obtain ⟨child, hchild⟩ := Option.ne_none_iff_exists'.mp hnamed
        have hfound : ext2LookupPath I.volume (fun _ => ⟨fun _ => 0, fun _ => 0, fun _ _ => 0, fun _ => 0⟩) path =
            I.number child := by
          rw [hext2, ← I.number_root]
          exact entryPath_some hnames _ 0 hchild
        have hsome : vfsFindPath I.tree path ≠ none := by
          intro hnone
          have hzero := hagree fun _ => ⟨fun _ => 0, fun _ => 0, fun _ _ => 0, fun _ => 0⟩
          rw [hfound, hnone] at hzero
          exact I.number_ne child hzero
        constructor
        · by_contra hlong
          exact hsome (hvfs.trans (resolve_long hlong))
        · exact fun hdouble => hsome (vfsFindPath_double hdouble)
      · obtain ⟨hnone, dirt, hne⟩ := forged_entryPath hforged hnames
        have hvnone : vfsFindPath I.tree path = none := by
          by_cases hdouble : [slash, slash] <+: path
          · exact vfsFindPath_double hdouble
          · exact (vfsFindPath_eq habs hdouble).trans hnone
        have hzero := hagree dirt
        rw [hext2, hvnone] at hzero
        exact hne hzero
    · intro hclear
      obtain ⟨hfits, hforged⟩ := hclear habs
      cases hfollow : I.tree.follow I.tree.root (components (path.take 255)) with
      | none =>
        have hvnone : vfsFindPath I.tree path = none := by
          by_cases hdouble : [slash, slash] <+: path
          · exact vfsFindPath_double hdouble
          · exact (vfsFindPath_eq habs hdouble).trans hfollow
        refine ⟨?_, fun dirt => ?_⟩
        · rw [hvnone]
          by_cases hle : path.length ≤ 255
          · rw [resolve_eq habs hle, hfollow]
          · rw [resolve_long hle]
        · rw [hext2, hvnone, ← I.number_root]
          refine (entryPath_none hnames dirt 0 hfollow).resolve_right ?_
          rintro ⟨pre, name, post, file, hsplit, hpre, hfile, hne⟩
          rw [Nat.zero_add] at hne
          exact hforged ⟨pre, name, post, file, dirt, hsplit, hpre, hfile, hne⟩
      | some child =>
        obtain ⟨hle, hsingle⟩ := hfits (by simp [hfollow])
        have hvfs := (vfsFindPath_eq (t := I.tree) habs hsingle).trans hfollow
        refine ⟨?_, fun dirt => ?_⟩
        · rw [hvfs, resolve_eq habs hle, hfollow]
        · rw [hext2, hvfs, ← I.number_root]
          exact entryPath_some hnames dirt 0 hfollow
  · refine iff_of_true ⟨?_, fun dirt => ?_⟩ fun hyes => absurd hyes habs
    · rw [vfsFindPath_relative habs]
      exact (if_neg fun hyes => habs hyes.1).symm
    · rw [vfsFindPath_relative habs]
      exact if_neg habs

/-- A root directory with a regular file `a`, whose inode is 12. -/
def oneFile : Tree Bool where
  root := false
  isDirectory node := !node
  finddir node name := if node = false ∧ name = [97] then some true else none
  named := fun _ => if_neg fun hyes => List.cons_ne_nil _ _ hyes.2.symm

/-- Inodes are in block 5, and the one of the root has the size 1024 and block 6. -/
def oneFileDisk : Ext2.Disk := fun lba i =>
  if lba = 10 then if i = 128 + 5 then 4 else if i = 128 + 40 then 6 else 0
  else if lba = 12 then if i = 0 then 12 else if i = 5 then 4 else if i = 6 then 1 else if i = 8 then 97 else 0
  else 0

def oneFileVolume : Volume where
  disk := oneFileDisk
  inodesPerGroup := 32
  inodeSize := 128
  inodeTable := fun _ => 5
  grouped := by decide

theorem oneFile_scan (buf : Memory.Mem) (token : Name) :
    scanBlock (Ext2.ext2ReadBlock oneFileDisk 6 buf) token 0 = if token = [97] then 12 else 0 := by
  have hlen : Memory.load (Ext2.ext2ReadBlock oneFileDisk 6 buf) (0 + 4) 2 = 1024 := rfl
  have hinode : Memory.load (Ext2.ext2ReadBlock oneFileDisk 6 buf) 0 4 = 12 := rfl
  have hname : (Ext2.ext2ReadBlock oneFileDisk 6 buf (0 + 6)).toNat = 1 := rfl
  have hfirst : Ext2.ext2ReadBlock oneFileDisk 6 buf 8 = 97 := rfl
  rw [scanBlock, if_pos (by decide), hlen, hinode, hname]
  dsimp only
  rw [if_neg (by decide)]
  by_cases htoken : token = [97]
  · subst htoken
    rw [if_pos rfl, if_pos ⟨by decide, rfl, rfl⟩]
    rfl
  · rw [if_neg htoken, if_neg, scanBlock]
    · exact if_neg (by decide)
    · rintro ⟨-, hone, heq⟩
      apply htoken
      rw [← heq, ← hone]
      exact congrArg (fun x => [x]) hfirst

theorem oneFile_shows (dirt : Dirt) (token : Name) :
    ext2FindEntry oneFileVolume dirt 2 token = if token = [97] then 12 else 0 := by
  have hsize : (ext2GetInode oneFileVolume dirt 2).size = 1024 := rfl
  have hdisk : oneFileVolume.disk = oneFileDisk := rfl
  have hblock : Ext2.ext2GetBlockNum oneFileDisk (ext2GetInode oneFileVolume dirt 2) (dirt.pointers 0) 0 = 6 := rfl
  have hrange : List.range ((1024 + 1024 - 1 : UInt32) / 1024).toNat = [0] := rfl
  unfold ext2FindEntry
  dsimp only
  rw [hsize, hrange]
  unfold scanBlocks
  dsimp only
  rw [hdisk, hblock, if_neg (by decide), oneFile_scan]
  by_cases htoken : token = [97]
  · rw [if_pos htoken]
    exact if_pos (by decide)
  · rw [if_neg htoken]
    exact if_neg (by decide)

def oneFileImage : Image Bool where
  tree := oneFile
  volume := oneFileVolume
  number node := if node then 12 else 2
  number_root := rfl
  number_ne node := by cases node <;> decide
  shows := by
    intro node hdir name _ _ dirt
    obtain rfl : node = false := by simpa [oneFile] using hdir
    refine (oneFile_shows dirt name).trans ?_
    by_cases hname : name = [97] <;> simp [oneFile, hname]

end Vfs
