import Kenux.Eevdf.Model
import Kenux.Lib.RbTree.Splice

/-!
# Insertion and removal in the tree of a run queue
-/

namespace Eevdf

open RbTree CTree

variable {α : Type*} [DecidableEq α] {s : Heap α} {k : List (Crumb α)} {t u l r : CTree α} {a b y : α} {c : Color}
  {d : Side} {fuel : ℕ}

theorem rotates_eevdfRbRotate : Rotates (@eevdfRbRotate α _) := rotates_rotate

/-! ## Insertion -/

/-- The new task is a red leaf in the hole. -/
theorem attach_spec {task : α} (h : Represents s (plug k nil)) (htask : task ∉ ctxNodes k) :
    Represents (attach s task (links k).head?) (plug k (.node .red nil task nil)) := by
  refine h.linked htask ?_ rfl fun y hy => ?_
  · rw [links_fst]
    constructor <;> simp [Node.setChild, Side.other]
  · simp [hy]

theorem insertLoop_insertFix : InsertLoop (@eevdfRbRotate α _) fun fuel node _ s => insertFix fuel node s := by
  constructor
  · intro fuel node s hstop
    unfold insertFix
    cases hp : (s.node node).parent with
    | none => rfl
    | some p =>
      show (if (s.node p).color = .red then _ else some s) = some s
      rw [hstop p hp, if_neg (by rintro ⟨⟩)]
  · intro fuel node p s hp hred
    rw [insertFix, hp]
    exact if_pos hred

theorem eevdfRbInsertFixup_spec (h : Represents s (plug k t)) (hred : RedIn k t) (ht : t.root = some a)
    (hfuel : k.length < fuel) :
    ∃ s' T, eevdfRbInsertFixup fuel a s = some s' ∧ Represents s' T ∧ T.RedBlack ∧
      T.toList = (plug k t).toList := by
  obtain ⟨s₁, T₁, hs₁, h₁, hrb₁, hlist₁⟩ :=
    insertLoop_insertFix.spec rotates_eevdfRbRotate h hred ht hfuel
  obtain ⟨b, hb⟩ : ∃ b, T₁.root = some b := by
    cases T₁ with
    | nil =>
      have hmem : a ∈ (plug k t).toList := (perm_plug k t).mem_iff.mpr (List.mem_append_left _ (mem_toList_root ht))
      rw [← hlist₁] at hmem
      cases hmem
    | node c l b r => exact ⟨b, rfl⟩
  obtain ⟨c, l, r, rfl⟩ := exists_join hb .left
  refine ⟨s₁.setColor b .black, join .left .black l b r, ?_, Represents.setColor (k := []) h₁ .black, ?_, ?_⟩
  · unfold eevdfRbInsertFixup
    rw [hs₁, Option.bind_eq_bind, Option.bind_some, h₁.root, hb]
    rfl
  · rw [recolor_join] at hrb₁
    exact hrb₁
  · rw [toList_join_color c, hlist₁]

theorem keyLe_trans {e f g : Entity} (hef : keyLe e f) (hfg : keyLe f g) : keyLe e g := by
  unfold keyLe at *
  rw [UInt64.lt_iff_toNat_lt, UInt64.le_iff_toNat_le, ← UInt64.toNat_inj] at *
  omega

theorem keyLe.deadline {e f : Entity} (h : keyLe e f) : e.deadline ≤ f.deadline := by
  unfold keyLe at h
  rw [UInt64.lt_iff_toNat_lt, UInt64.le_iff_toNat_le, ← UInt64.toNat_inj] at *
  omega

/-- The walk goes to the side that the order asks for. -/
theorem side_spec (e f : Entity) : match side e f with | .left => keyLe e f | .right => keyLe f e := by
  unfold side keyLe
  simp only [UInt64.lt_iff_toNat_lt, UInt64.le_iff_toNat_le, ← UInt64.toNat_inj, gt_iff_lt]
  split_ifs with hlt hgt hv
  · exact .inl hlt
  · exact .inl hgt
  · exact .inr ⟨by omega, by omega⟩
  · exact .inr ⟨by omega, by omega⟩

omit [DecidableEq α] in
/-- The new leftmost task. -/
theorem leftmost_insert {q : Rq α} {T : CTree α} {task : α} (h : Ordered q T) (hplug : plug k nil = T)
    (hfit : Fits (fun a b => keyLe (q.entity a) (q.entity b)) task k) :
    (if isFirst q task ((links k).all fun link => link.2 = .left) then some task else q.leftmost) =
      (before k ++ task :: after k).head? := by
  have hall : ((links k).all fun link => link.2 = .left) = true ↔ before k = [] := by
    rw [before_eq_nil]
    simp [links]
  cases hb : before k with
  | nil =>
    have hfirst : isFirst q task ((links k).all fun link => link.2 = .left) = true := by
      unfold isFirst
      rw [hall.mpr hb, Bool.true_or]
    rw [if_pos hfirst]
    rfl
  | cons b bs =>
    have hhead : q.leftmost = some b := by
      rw [h.leftmost, ← hplug, toList_plug, hb]
      rfl
    have hle := (hfit.before b (by rw [hb]; exact List.mem_cons_self)).deadline
    have hnot : isFirst q task ((links k).all fun link => link.2 = .left) = false := by
      unfold isFirst
      rw [Bool.eq_false_iff.mpr fun hleft => absurd (hall.mp hleft) (by rw [hb]; rintro ⟨⟩), hhead, Bool.false_or]
      simpa using hle
    rw [if_neg (by rw [hnot]; decide), hhead]
    rfl

/-- The task is in the tree after an insertion, in its place. -/
theorem eevdfRbInsert_spec {q : Rq α} {T : CTree α} {task : α} (h : Ordered q T) (htask : task ∉ T.toList)
    (hroot : T ≠ nil) (hfuel : T.toList.length < fuel) :
    ∃ q' T', eevdfRbInsert fuel q task = some q' ∧ Ordered q' T' ∧ q'.entity = q.entity ∧ q'.onRq = q.onRq ∧
      T'.toList.Perm (task :: T.toList) := by
  have hstart : Fits (fun a b => keyLe (q.entity a) (q.entity b)) task [] := fits_nil
  have htrans : ∀ a b c, keyLe (q.entity a) (q.entity b) → keyLe (q.entity b) (q.entity c) →
      keyLe (q.entity a) (q.entity c) := fun _ _ _ => keyLe_trans
  obtain ⟨k, hwalk, hplug, hfit⟩ := descend_spec htrans (fun y => side_spec (q.entity task) (q.entity y))
    (k := []) h.represents h.sorted hstart hfuel
  have hempty : Represents q.tree (plug k nil) := hplug ▸ h.represents
  have hperm := perm_plug k (nil : CTree α)
  have hlen := length_plug k (nil : CTree α)
  rw [hplug] at hperm hlen
  have hattach := attach_spec hempty fun hmem => htask (hperm.mem_iff.mpr hmem)
  have hred : RedIn k (.node .red nil task nil) := redIn_leaf (hplug.symm ▸ h.redBlack)
  have hfix : k.length < fuel := lt_of_le_of_lt hlen hfuel
  obtain ⟨s₁, T₁, hs₁, h₁, hrb₁, hlist₁⟩ := eevdfRbInsertFixup_spec hattach hred rfl hfix
  have hsorted := hfit.sorted (c := .red) (hplug.symm ▸ h.sorted)
  have hk : links k ≠ [] := by
    intro hk
    obtain rfl := List.map_eq_nil_iff.mp hk
    exact hroot hplug.symm
  refine ⟨{ q with tree := s₁, leftmost := (before k ++ task :: after k).head? }, T₁, ?_, ⟨h₁, hrb₁, ?_, ?_⟩,
    rfl, rfl, ?_⟩
  · unfold eevdfRbInsert
    rw [h.represents.root, show descend _ q.tree fuel T.root [] = _ from hwalk, Option.bind_eq_bind, Option.bind_some]
    dsimp only
    rw [leftmost_insert h hplug hfit, if_neg hk, hs₁]
    rfl
  · unfold CTree.Sorted at hsorted ⊢
    rw [hlist₁]
    exact hsorted
  · rw [hlist₁, toList_plug]
    simp [toList]
  · rw [hlist₁]
    exact (perm_plug k _).trans (hperm.symm.cons task)

end Eevdf

/-!
## Removal from the tree of a run queue
-/

namespace Eevdf

open RbTree CTree

variable {α : Type*} [DecidableEq α] {s s₁ s₂ : Heap α} {k k₂ : List (Crumb α)} {t u l r : CTree α} {a b y : α}
  {c c₂ : Color} {d : Side} {fuel : ℕ}

/-- A node with one child gives its place to it. -/
theorem eevdfRbTransplant_spec (h : Represents s (plug k (join d c nil a u))) :
    Represents (eevdfRbTransplant a u.root s) (plug k u) :=
  h.transplant

/-! ## The colors -/

theorem eevdfRbDeleteFixup_red (h : Represents s (plug k t)) (ht : t.root = some a) (hred : t.rootColor = .red)
    (hfuel : 0 < fuel) : eevdfRbDeleteFixup fuel a s = some (s.setColor a .black) := by
  obtain ⟨fuel, rfl⟩ := Nat.exists_eq_add_one.mpr hfuel
  have hcolor := h.colorOf
  rw [ht, hred] at hcolor
  have hstop : ¬(some a ≠ s.root ∧ s.colorOf (some a) = .black) := by
    rw [hcolor]
    rintro ⟨-, hblack⟩
    cases hblack
  unfold eevdfRbDeleteFixup deleteFix
  rw [if_neg hstop]
  rfl

/-- After the removal of a red node, of one whose child takes its place, or of the last one. -/
theorem fixup_spec (h : Represents s (plug k u)) (hrb : (plug k (join d c nil a u)).RedBlack)
    (hc : c = .red ∨ u.root ≠ none ∨ k = []) (hfuel : 0 < fuel) :
    ∃ s' T, fixup fuel c u.root s = some s' ∧ Represents s' T ∧ T.RedBlack ∧
      T.toList = (plug k u).toList := by
  unfold fixup
  cases c with
  | red =>
    refine ⟨s, _, ?_, h, redBlack_of_red hrb, rfl⟩
    cases u.root with
    | none => rfl
    | some x => exact if_neg (by decide)
  | black =>
    cases hu : u.root with
    | none =>
      have hk : k = [] := hc.elim (by rintro ⟨⟩) fun hc => hc.resolve_left fun hne => hne hu
      obtain rfl := root_eq_none.mp hu
      subst hk
      exact ⟨s, nil, rfl, h, ⟨rfl, 0, rfl⟩, rfl⟩
    | some x =>
      have hred : u.rootColor = .red := rootColor_of_single hrb (by rw [hu]; rintro ⟨⟩)
      obtain ⟨cu, v, w, rfl⟩ := exists_join hu .left
      refine ⟨s.setColor x .black, plug k (join .left .black v x w), ?_, h.setColor .black, ?_, ?_⟩
      · dsimp only
        rw [if_pos rfl]
        exact eevdfRbDeleteFixup_red h root_join hred hfuel
      · have hdone := (shortIn_of_redBlack hrb).done (.inr hred)
        rw [recolor_join] at hdone
        exact hdone
      · exact toList_plug_congr (toList_join_color cu)

omit [DecidableEq α] in
theorem eevdfRbUpdateLeftmost_spec {q : Rq α} {T : CTree α} (h : Represents q.tree T) (hfuel : T.toList.length ≤ fuel) :
    eevdfRbUpdateLeftmost fuel q = some { q with leftmost := T.toList.head? } := by
  unfold eevdfRbUpdateLeftmost
  rw [h.root]
  cases hroot : T.root with
  | none =>
    rw [root_eq_none.mp hroot]
    rfl
  | some a =>
    have hfirst := leftmost_head (k := []) h hroot hfuel
    obtain ⟨b, hb, hhead⟩ := Option.map_eq_some_iff.mp hfirst
    dsimp only
    rw [hb, ← hhead]
    rfl

/-! ## The whole removal -/

theorem deleteSingle_spec (h : Represents s (plug k (join d c nil a u))) (hrb : (plug k (join d c nil a u)).RedBlack)
    (hc : (s.node a).color = .red ∨ u.root ≠ none ∨ s.root = some a) (hfuel : 0 < fuel) :
    ∃ s₁ s' T, unlink a a u.root s = some s₁ ∧ fixup fuel (s.node a).color u.root s₁ = some s' ∧
      Represents s' T ∧ T.RedBlack ∧ T.toList = before k ++ u.toList ++ after k := by
  rw [h.isNode.color] at hc ⊢
  have hk : s.root = some a → k = [] := by
    intro hroot
    cases k with
    | nil => rfl
    | cons f k => exact absurd (root_join.trans hroot.symm) (root_ne_of_hole h)
  obtain ⟨s', T, hs', hrep, hrb', hlist⟩ :=
    fixup_spec (eevdfRbTransplant_spec h) hrb (hc.imp_right fun hc => hc.imp_right hk) hfuel
  exact ⟨_, s', T, if_pos rfl, hs', hrep, hrb', hlist.trans (toList_plug k u)⟩

theorem deleteBetween_spec (h : Represents s (plug k (node c l a (plug k₂ (node c₂ nil y u))))) (hl : l.root = some b)
    (hfirst : before k₂ = []) (hrb : (plug k (node c l a (plug k₂ (node c₂ nil y u)))).RedBlack)
    (hc : (s.node y).color = .red ∨ u.root ≠ none ∨ s.root = some y) (hfuel : 0 < fuel) :
    ∃ s₁ s' T, unlink a y u.root s = some s₁ ∧ fixup fuel (s.node y).color u.root s₁ = some s' ∧
      Represents s' T ∧ T.RedBlack ∧
      T.toList = before k ++ (l.toList ++ (plug k₂ (node c₂ nil y u)).toList) ++ after k := by
  have hsplit : ∀ (x : α) (t : CTree α), plug k (node c l x (plug k₂ t)) =
      plug (k₂ ++ ⟨.right, c, x, l⟩ :: k) t := fun x t => (plug_append k₂ (⟨.right, c, x, l⟩ :: k) t).symm
  obtain ⟨s₂, s₁, hs₂, hs₁, h₁⟩ : ∃ s₂ s₁, detach a y u.root s = some s₂ ∧ substitute a y s₂ = some s₁ ∧
      Represents s₁ (plug k (node c l y (plug k₂ u))) := h.between hl
  have hne : y ≠ a := by
    rintro rfl
    have hnodup := (represents_plug.mp h).2.2
    simp only [toList, List.append_assoc, List.nodup_append, List.cons_append, List.nodup_cons, List.mem_append,
      not_or] at hnodup
    refine hnodup.2.1.1.1 ((perm_plug _ _).mem_iff.mpr (List.mem_append_left _ ?_))
    exact List.mem_cons_self
  have hk : Represents s (plug (k₂ ++ ⟨.right, c, a, l⟩ :: k) (join .left c₂ nil y u)) := hsplit a _ ▸ h
  rw [hk.isNode.color] at hc ⊢
  have hc' : c₂ = .red ∨ u.root ≠ none ∨ k₂ ++ ⟨.right, c, y, l⟩ :: k = [] := by
    refine hc.imp_right fun hc => hc.imp_right fun hroot => ?_
    cases k₂ with
    | nil => exact absurd (root_join.trans hroot.symm) (root_ne_of_hole hk)
    | cons f k₂ => exact absurd (root_join.trans hroot.symm) (root_ne_of_hole hk)
  have hrb' : (plug (k₂ ++ ⟨.right, c, y, l⟩ :: k) (join .left c₂ nil y u)).RedBlack := by
    have hrelabel := hrb.relabel (b := y)
    rw [hsplit] at hrelabel
    exact hrelabel
  rw [hsplit] at h₁
  obtain ⟨s', T, hs', hrep, hrbT, hlist⟩ := fixup_spec h₁ hrb' hc' hfuel
  refine ⟨s₁, s', T, ?_, hs', hrep, hrbT, hlist.trans ?_⟩
  · unfold unlink
    rw [if_neg hne, hs₂]
    exact hs₁
  · rw [← hsplit, toList_plug, toList, toList_plug, toList_plug, hfirst]
    simp [toList]

theorem eevdfRbDelete_spec {q : Rq α} {T : CTree α} (h : Represents q.tree T) (hrb : T.RedBlack) (ha : a ∈ T.toList)
    (hleaves : Leaves fuel q.tree a) (hfuel : T.toList.length < fuel) :
    ∃ s' T', eevdfRbDelete fuel q a = some { q with tree := s', leftmost := T'.toList.head? } ∧ Represents s' T' ∧
      T'.RedBlack ∧ T'.toList = T.toList.erase a := by
  obtain ⟨k, c, l, r, rfl⟩ := exists_plug ha
  rw [erase_toList_plug h.nodup]
  obtain ⟨y, x, hspliced, hred⟩ := hleaves
  have hpos : 0 < fuel := by omega
  obtain ⟨s₁, s', T', hs₁, hs', hrep, hrb', hlist⟩ : ∃ s₁ s' T', unlink a y x q.tree = some s₁ ∧
      fixup fuel (q.tree.node y).color x s₁ = some s' ∧ Represents s' T' ∧ T'.RedBlack ∧
      T'.toList = before k ++ (l.toList ++ r.toList) ++ after k := by
    have hnode := Represents.isNode (d := .left) (t := l) (u := r) h
    have hright : (q.tree.node a).child .right = r.root := hnode.far
    unfold spliced at hspliced
    rw [hnode.near, hright] at hspliced
    cases hl : l.root with
    | none =>
      obtain rfl := root_eq_none.mp hl
      obtain ⟨rfl, rfl⟩ := Prod.mk.inj (Option.some.inj hspliced)
      exact deleteSingle_spec (d := .left) h hrb hred hpos
    | some b =>
      rw [hl] at hspliced
      cases hr : r.root with
      | none =>
        obtain rfl := root_eq_none.mp hr
        obtain ⟨rfl, rfl⟩ := Prod.mk.inj (Option.some.inj hspliced)
        rw [toList, List.append_nil, ← hl]
        rw [← hl] at hred
        exact deleteSingle_spec (d := .right) h hrb hred hpos
      | some b' =>
        have hhole : Represents q.tree (plug (⟨.right, c, a, l⟩ :: k) r) := Represents.far (d := .left) h
        have hlen : r.toList.length ≤ fuel := by
          rw [toList_plug] at hfuel
          simp only [toList, List.length_append, List.length_cons] at hfuel
          omega
        obtain ⟨k₂, c₂, y', u, hy, rfl, hb⟩ := leftmost_spec hhole hr hlen
        rw [hr] at hspliced
        dsimp only at hspliced
        rw [hy, Option.bind_eq_bind, Option.bind_some] at hspliced
        obtain ⟨rfl, rfl⟩ := Prod.mk.inj (Option.some.inj hspliced)
        have hinner : Represents q.tree (plug (⟨.right, c, a, l⟩ :: k) (plug k₂ (join .left c₂ nil y' u))) := hhole
        rw [← plug_append] at hinner
        have hchild : (q.tree.node y').child .right = u.root := hinner.isNode.far
        rw [hchild] at hred ⊢
        exact deleteBetween_spec h hl hb hrb hred hpos
  refine ⟨s', T', ?_, hrep, hrb', hlist⟩
  have hlen : T'.toList.length ≤ fuel := by
    rw [hlist]
    rw [toList_plug] at hfuel
    simp only [toList, List.length_append, List.length_cons] at hfuel ⊢
    omega
  unfold eevdfRbDelete
  rw [hspliced, Option.bind_eq_bind, Option.bind_some]
  dsimp only
  rw [hs₁, Option.bind_eq_bind, Option.bind_some, hs', Option.bind_some]
  exact eevdfRbUpdateLeftmost_spec hrep hlen

end Eevdf
