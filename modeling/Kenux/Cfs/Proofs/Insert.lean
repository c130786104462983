import Kenux.Cfs.Proofs.Sentinel

/-!
# Insertion into a timeline
-/

namespace Cfs

open RbTree CTree

variable {α : Type*} [DecidableEq α] {s s' : Timeline α} {a p a' : α} {d e : Side} {t sib u : CTree α}
  {k : List (Crumb α)} {h' : Heap α} {o : Option α} {fuel : ℕ} {F : Set α}

/-- Two nodes get the same color, in either order. -/
theorem setColorOf_comm {h : Heap α} {x y : Option α} {c : Color} :
    (h.setColorOf x c).setColorOf y c = (h.setColorOf y c).setColorOf x c := by
  cases x with
  | none => rfl
  | some a =>
    cases y with
    | none => rfl
    | some b =>
      by_cases hab : a = b
      · rw [hab]
      · show (h.setColor a c).setColor b c = (h.setColor b c).setColor a c
        unfold Heap.setColor Heap.mod
        dsimp only
        rw [Function.update_of_ne (Ne.symm hab), Function.update_of_ne hab, Function.update_comm hab]

/-- The code does what the round on null pointers does. -/
theorem insertRound_sim (hnil : s.color none = .black) (h : Represents (heap s) (plug (⟨e, .red, p, sib⟩ :: k) t))
    (hred : RedIn (⟨e, .red, p, sib⟩ :: k) t) (ht : t.root = some a)
    (hround : RbTree.insertRound Heap.rotate a p (heap s) = some (a', o, h')) :
    ∃ s', insertRound (some a) s = (some a', s') ∧ heap s' = h' ∧ NilKept s s' := by
  have hp : s.parent (some a) = some p := h.parent_of_hole ht
  obtain ⟨d, g, u, k, rfl⟩ := hred.grandparent
  have hg : s.parent (some p) = some g := Represents.parent_of_hole (k := ⟨d, .black, g, u⟩ :: k) h root_join
  have hside : (if ((heap s).node g).child .left = some p then Side.left else .right) = d :=
    side_of_hole (k := k) (t := join e .red t p sib) h root_join
  have hside' : (if some p = s.child (some g) .left then Side.left else .right) = d := by
    rw [← hside]
    exact if_congr eq_comm rfl rfl
  have hgparent : ((heap s).node p).parent = some g := hg
  unfold RbTree.insertRound at hround
  rw [hgparent, Option.bind_eq_bind, Option.bind_some] at hround
  dsimp only at hround
  rw [hside] at hround
  unfold insertRound
  rw [hp, hg, hside']
  dsimp only
  rw [color_eq hnil]
  have hy : s.child (some g) d.other = ((heap s).node g).child d.other := rfl
  rw [hy]
  generalize hq : ((heap s).node g).child d.other = y at hround ⊢
  split_ifs at hround with huncle
  · obtain ⟨rfl, hpair⟩ := Prod.mk.inj (Option.some.inj hround)
    obtain ⟨-, rfl⟩ := Prod.mk.inj hpair
    rw [if_pos huncle]
    simp only [parent_setColor, hp, hg]
    have hkept : NilKept s (s.setColor (some p) .black) := setColor_nilKept
    refine ⟨_, rfl, ?_, (hkept.trans (blacken_nilKept (hkept.color hnil))).trans setColor_nilKept⟩
    rw [heap_setColor, heap_setColor, heap_setColor, setColorOf_comm]
    rfl
  · rw [if_neg huncle]
    obtain ⟨a₁, p₁, h₁, sib₁, t₁, hturn, hrep₁, hred₁, ht₁, -⟩ := turnInner_spec rotates_rotate h hred ht
    rw [hturn, Option.bind_eq_bind, Option.bind_some] at hround
    obtain ⟨h₂, hrot, hround⟩ := Option.bind_eq_some_iff.mp hround
    obtain ⟨rfl, hpair⟩ := Prod.mk.inj (Option.some.inj hround)
    obtain ⟨-, rfl⟩ := Prod.mk.inj hpair
    obtain ⟨s₁, hs₁, rfl, hkept₁⟩ := insertTurn_sim hp hturn
    have hp₁ : s₁.parent (some a₁) = some p₁ := hrep₁.parent_of_hole ht₁
    have hg₁ : s₁.parent (some p₁) = some g :=
      Represents.parent_of_hole (k := ⟨d, .black, g, u⟩ :: k) hrep₁ root_join
    rw [hs₁]
    simp only [parent_setColor, hp₁, hg₁]
    have hheap : heap ((s₁.setColor (some p₁) .black).setColor (some g) .red) =
        ((heap s₁).setColor p₁ .black).setColor g .red := by
      rw [heap_setColor, heap_setColor]
      rfl
    rw [← hheap] at hrot
    obtain ⟨hheap₂, hkept₂⟩ := rotate_sim hrot
    exact ⟨_, rfl, hheap₂, hkept₁.trans hkept₂⟩

omit [DecidableEq α] in
/-- The sentinel is the black parent of the root. -/
theorem blackTop_color (hnil : s.color none = .black) (h : Represents (heap s) (plug k t)) (ht : t.root = some a)
    (htop : k = [] ∨ BlackTop k) : s.color (s.parent (some a)) = .black := by
  have hparent : s.parent (some a) = top k := h.parent_of_hole ht
  rw [hparent]
  cases k with
  | nil => exact hnil
  | cons f k =>
    have hblack : f.color = .black := htop.resolve_left (by rintro ⟨⟩)
    exact (Represents.isNode (k := k) h).color.trans hblack

/-- The loop ends with a tree that is red-black but for the color of its root. -/
theorem insertLoop_spec (hnil : s.color none = .black) (hclosed : Closed F (heap s))
    (hmem : ∀ x ∈ (plug k t).toList, x ∈ F) (h : Represents (heap s) (plug k t)) (hred : RedIn k t)
    (ht : t.root = some a) (hfuel : k.length < fuel) :
    ∃ s' T, insertLoop fuel (some a) s = some s' ∧ NilKept s s' ∧ Within F (heap s) (heap s') ∧
      Represents (heap s') T ∧ (T.recolor .black).RedBlack ∧ T.toList = (plug k t).toList := by
  induction fuel generalizing s k t a with
  | zero => omega
  | succ fuel ih =>
    have hstop : k = [] ∨ BlackTop k → ∃ s' T, insertLoop (fuel + 1) (some a) s = some s' ∧ NilKept s s' ∧
        Within F (heap s) (heap s') ∧ Represents (heap s') T ∧ (T.recolor .black).RedBlack ∧
        T.toList = (plug k t).toList := by
      intro htop
      refine ⟨s, _, ?_, .refl s, hclosed.refl, h, hred.done htop, rfl⟩
      unfold insertLoop
      rw [blackTop_color hnil h ht htop, if_neg (by rintro ⟨⟩)]
    cases k with
    | nil => exact hstop (.inl rfl)
    | cons f k =>
      obtain ⟨e, c, p, sib⟩ := f
      cases c with
      | black => exact hstop (.inr rfl)
      | red =>
        have hparent : s.parent (some a) = some p := h.parent_of_hole ht
        have hcolor : s.color (some p) = .red := (Represents.isNode (k := k) h).color
        have ha : a ∈ F := hmem a ((perm_plug _ _).mem_iff.mpr (List.mem_append_left _ (mem_toList_root ht)))
        have hp : p ∈ F := hmem p ((perm_plug _ _).mem_iff.mpr (List.mem_append_right _ List.mem_cons_self))
        obtain ⟨a₁, h₁, k₁, t₁, hround, hrep₁, ht₁, hlist₁, hnext⟩ := insertRound_spec rotates_rotate h hred ht
        obtain ⟨hwithin₁, -⟩ := insertRound_within staysWithin_rotate hclosed ha hp hround
        obtain ⟨s₁, hs₁, rfl, hkept₁⟩ := insertRound_sim hnil h hred ht hround
        simp only [List.length_cons] at hfuel
        unfold insertLoop
        rw [hparent, hcolor, if_pos rfl, hs₁]
        dsimp only
        rcases hnext with ⟨hlen, hred₁⟩ | ⟨htop, hrb⟩
        · have hmem₁ : ∀ x ∈ (plug k₁ t₁).toList, x ∈ F := by
            rw [hlist₁]
            exact hmem
          obtain ⟨s₂, T, hs₂, hkept₂, hwithin₂, hrep, hrb, hlist⟩ :=
            ih (hkept₁.color hnil) hwithin₁.closed hmem₁ hrep₁ hred₁ ht₁ (by omega)
          exact ⟨s₂, T, hs₂, hkept₁.trans hkept₂, hwithin₁.trans hwithin₂, hrep, hrb, hlist.trans hlist₁⟩
        · refine ⟨s₁, _, ?_, hkept₁, hwithin₁, hrep₁, hrb, hlist₁⟩
          obtain ⟨fuel, rfl⟩ := Nat.exists_eq_add_one.mpr (show 0 < fuel by omega)
          unfold insertLoop
          rw [blackTop_color (hkept₁.color hnil) hrep₁ ht₁ (.inr htop), if_neg (by rintro ⟨⟩)]

theorem insertFixup_spec (hnil : s.color none = .black) (hclosed : Closed F (heap s))
    (hmem : ∀ x ∈ (plug k t).toList, x ∈ F) (h : Represents (heap s) (plug k t)) (hred : RedIn k t)
    (ht : t.root = some a) (hfuel : k.length < fuel) :
    ∃ s' T, insertFixup fuel (some a) s = some s' ∧ NilKept s s' ∧ Within F (heap s) (heap s') ∧
      Represents (heap s') T ∧ T.RedBlack ∧ T.toList = (plug k t).toList := by
  obtain ⟨s₁, T₁, hs₁, hkept, hwithin, hrep, hrb, hlist⟩ := insertLoop_spec hnil hclosed hmem h hred ht hfuel
  obtain ⟨b, hb⟩ : ∃ b, T₁.root = some b := by
    cases T₁ with
    | nil =>
      have hin : a ∈ (plug k t).toList := (perm_plug k t).mem_iff.mpr (List.mem_append_left _ (mem_toList_root ht))
      rw [← hlist] at hin
      cases hin
    | node c l b r => exact ⟨b, rfl⟩
  obtain ⟨c, l, r, rfl⟩ := exists_join hb .left
  have hroot : s₁.root = some b := hrep.root.trans hb
  have hbF : b ∈ F := by
    refine hmem b ?_
    rw [← hlist]
    exact mem_toList_root hb
  have hheap : heap (s₁.setColor (some b) .black) = (heap s₁).setColor b .black := heap_setColor
  refine ⟨s₁.setColor (some b) .black, join .left .black l b r, ?_, hkept.trans setColor_nilKept, ?_, ?_, ?_, ?_⟩
  · unfold insertFixup
    rw [hs₁, Option.bind_eq_bind, Option.bind_some, hroot]
    rfl
  · rw [hheap]
    exact hwithin.trans (hwithin.closed.setColor hbF)
  · rw [hheap]
    exact Represents.setColor (k := []) hrep .black
  · rw [recolor_join] at hrb
    exact hrb
  · rw [toList_join_color c, hlist]

/-! ## The walk -/

/-- The side that `rbtree_insert` goes to at `x`. -/
def side (key : α → UInt64) (node x : α) : Side := if key node < key x then .left else .right

section

variable {key : α → UInt64} {node : α}

omit [DecidableEq α] in
theorem walk_eq {x : Option α} {path path' : List (α × Side)}
    (h : descend (side key node) (heap s) fuel x path = some path') :
    walk key node s fuel (path.head?.map Prod.fst) x = some (path'.head?.map Prod.fst) := by
  induction fuel generalizing x path with
  | zero => cases h
  | succ fuel ih =>
    cases x with
    | none =>
      obtain rfl := Option.some.inj h
      rfl
    | some x =>
      have hstep := ih h
      unfold walk
      have hside : (if key node < key x then s.child (some x) .left else s.child (some x) .right) =
          ((heap s).node x).child (side key node x) := by
        unfold side
        split_ifs
        · rfl
        · rfl
      rw [hside]
      exact hstep

omit [DecidableEq α] in
/-- The links that the walk passes are on the sides that it goes to. -/
theorem descend_sides {sd : α → Side} {h : Heap α} {x : Option α} {path path' : List (α × Side)}
    (hpath : ∀ l ∈ path, l.2 = sd l.1) (hd : descend sd h fuel x path = some path') : ∀ l ∈ path', l.2 = sd l.1 := by
  induction fuel generalizing x path with
  | zero => cases hd
  | succ fuel ih =>
    cases x with
    | none =>
      obtain rfl := Option.some.inj hd
      exact hpath
    | some x => exact ih (List.forall_mem_cons.mpr ⟨rfl, hpath⟩) hd

/-- The node of the walk's last link gets the new node as the child on the link's side. -/
theorem heap_attach {path : List (α × Side)} (hpath : ∀ l ∈ path, l.2 = side key node l.1) :
    heap (attach key node (path.head?.map Prod.fst) s) = match path.head? with
      | none => ((heap s).setParent node none).setRoot (some node)
      | some (y, d) => ((heap s).setParent node (some y)).setChild y d (some node) := by
  cases path with
  | nil =>
    show heap ((s.setParent (some node) none).setRoot (some node)) = _
    rw [heap_setRoot, heap_setParent]
    rfl
  | cons l path =>
    obtain ⟨y, d⟩ := l
    have hd : d = side key node y := hpath _ List.mem_cons_self
    subst hd
    show heap (if key node < key y then _ else _) = _
    dsimp only [List.head?_cons]
    unfold side
    split_ifs
    · rw [heap_setChild, heap_setParent]
      rfl
    · rw [heap_setChild, heap_setParent]
      rfl

theorem attach_nilKept {y : Option α} : NilKept s (attach key node y s) := by
  unfold attach
  cases y with
  | none => rfl
  | some y =>
    dsimp only
    split_ifs
    · rfl
    · rfl

/-- The node is a red leaf in the hole. -/
theorem attach_spec (h : Represents (heap s) (plug k nil)) (hnode : node ∉ ctxNodes k)
    (hleaf : s.child (some node) .left = none ∧ s.child (some node) .right = none ∧ s.color (some node) = .red)
    (hsides : ∀ l ∈ links k, l.2 = side key node l.1) :
    Represents (heap (attach key node (top k) s)) (plug k (.node .red nil node nil)) ∧
      ∀ b, b ≠ node → b ∉ ctxNodes k → (attach key node (top k) s).node (some b) = s.node (some b) := by
  have hne : ∀ x, top k = some x → x ≠ node := by
    rintro x hx rfl
    exact hnode (top_mem hx)
  have hheap := heap_attach (s := s) hsides
  rw [links_fst] at hheap
  obtain ⟨hleft, hright, hcolor⟩ := hleaf
  have hleft : ((heap s).node node).child .left = none := hleft
  have hright : ((heap s).node node).child .right = none := hright
  have hcolor : ((heap s).node node).color = .red := hcolor
  have hother : ∀ b, b ≠ node → b ∉ ctxNodes k →
      (heap (attach key node (top k) s)).node b = (heap s).node b := by
    intro b hb hbk
    rw [hheap]
    cases k with
    | nil => simp [links, hb]
    | cons f k =>
      have hbf : b ≠ f.node := fun heq => hbk (heq ▸ List.mem_cons_self)
      simp [links, hb, hbf]
  refine ⟨?_, hother⟩
  rw [hheap]
  cases k with
  | nil =>
    refine h.attached hnode ?_ rfl fun y hy _ => ?_
    · constructor <;> simp [links, top, Side.other, hleft, hright, hcolor]
    · simp [links, hy]
  | cons f k =>
    have hf : f.node ≠ node := hne f.node rfl
    refine h.attached hnode ?_ ⟨rfl, ?_⟩ fun y hy hty => ?_
    · constructor <;> simp [links, top, hf.symm, Side.other, hleft, hright, hcolor]
    · simp [links, hf]
    · have hyf : y ≠ f.node := fun heq => hty (by rw [heq]; rfl)
      simp [links, hy, hyf]

/-- The node is in the tree after an insertion, in its place, and nothing outside the tree is different. -/
theorem rbtreeInsert_spec {T : CTree α} {le : α → α → Prop} (hnil : s.color none = .black)
    (h : Represents (heap s) T) (hrb : T.RedBlack) (hsorted : T.Sorted le)
    (htrans : ∀ a b c, le a b → le b c → le a c)
    (hside : ∀ y, match side key node y with | .left => le node y | .right => le y node)
    (hnode : node ∉ T.toList) (hfuel : T.toList.length < fuel) :
    ∃ s' T', rbtreeInsert fuel key node s = some s' ∧ NilKept s s' ∧
      (∀ b, b ∉ node :: T.toList → s'.node (some b) = s.node (some b)) ∧ Represents (heap s') T' ∧ T'.RedBlack ∧
      T'.Sorted le ∧ T'.toList.Perm (node :: T.toList) := by
  generalize hs₁ : ((s.setChild (some node) .right none).setChild (some node) .left none).setColor (some node) .red =
    s₁
  have hheap₁ : heap s₁ = (((heap s).setChild node .right none).setChild node .left none).setColor node .red := by
    rw [← hs₁, heap_setColor, heap_setChild, heap_setChild]
    rfl
  have hother₁ : ∀ b, b ≠ node → (heap s₁).node b = (heap s).node b := by
    intro b hb
    rw [hheap₁]
    simp [hb]
  have hkept₁ : NilKept s s₁ := by
    rw [← hs₁]
    rfl
  have hleaf : s₁.child (some node) .left = none ∧ s₁.child (some node) .right = none ∧
      s₁.color (some node) = .red := by
    show ((heap s₁).node node).child .left = none ∧ ((heap s₁).node node).child .right = none ∧
      ((heap s₁).node node).color = .red
    rw [hheap₁]
    simp [Node.setChild]
  have h₁ : Represents (heap s₁) T := by
    refine ⟨?_, h.repr.congr fun y hy => hother₁ y fun heq => hnode (heq ▸ hy), h.nodup⟩
    rw [hheap₁]
    exact h.root
  obtain ⟨k, hwalk, hplug, hfit⟩ := descend_spec (k := []) htrans hside h₁ hsorted fits_nil hfuel
  have hnone : ∀ l ∈ links ([] : List (Crumb α)), l.2 = side key node l.1 := by rintro l ⟨⟩
  have hsides := descend_sides hnone hwalk
  have hy : walk key node s₁ fuel none s₁.root = some (top k) := by
    have hend : walk key node s₁ fuel ((links []).head?.map Prod.fst) T.root =
        some ((links k).head?.map Prod.fst) := walk_eq hwalk
    rw [← links_fst, show s₁.root = T.root from h₁.root]
    exact hend
  have hplug : plug k nil = T := hplug
  have hperm := perm_plug k (nil : CTree α)
  have hlen := length_plug k (nil : CTree α)
  rw [hplug] at hperm hlen
  have hctx : ∀ b, b ∈ ctxNodes k ↔ b ∈ T.toList := fun b => hperm.mem_iff.symm
  have hout : node ∉ ctxNodes k := fun hmem => hnode ((hctx node).mp hmem)
  obtain ⟨hrep₂, hother₂⟩ := attach_spec (hplug.symm ▸ h₁) hout hleaf hsides
  have hred : RedIn k (.node .red nil node nil) := redIn_leaf (hplug.symm ▸ hrb)
  obtain ⟨s', T', hs', hkept', hwithin, hrep', hrb', hlist⟩ := insertFixup_spec
    ((hkept₁.trans attach_nilKept).color hnil) hrep₂.closed (fun x hx => hx) hrep₂ hred rfl (lt_of_le_of_lt hlen hfuel)
  have hperm' : (plug k (.node .red nil node nil)).toList.Perm (node :: T.toList) :=
    (perm_plug k _).trans (hperm.symm.cons node)
  refine ⟨s', T', ?_, (hkept₁.trans attach_nilKept).trans hkept', fun b hb => ?_, hrep', hrb', ?_, ?_⟩
  · unfold rbtreeInsert
    dsimp only
    rw [hs₁, hy, Option.bind_eq_bind, Option.bind_some]
    exact hs'
  · have hne : b ≠ node := fun heq => hb (heq ▸ List.mem_cons_self)
    have hout : b ∉ ctxNodes k := fun hmem => hb (List.mem_cons_of_mem _ ((hctx b).mp hmem))
    have hsame := hwithin.same b fun hmem => hb (hperm'.mem_iff.mp hmem)
    exact hsame.trans ((hother₂ b hne hout).trans (hother₁ b hne))
  · have hfits := hfit.sorted (c := .red) (hplug.symm ▸ hsorted)
    unfold CTree.Sorted at hfits ⊢
    rw [hlist]
    exact hfits
  · rw [hlist]
    exact hperm'

end

end Cfs
