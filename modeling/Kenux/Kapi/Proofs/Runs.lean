import Kenux.Kapi.RbTree
import Kenux.Lib.RbTree.Splice

/-!
# Iteration, and runs of insertions and removals
-/

/-!
## Removal from the tree of the kernel API
-/

/-!
## Insertion into the tree of the kernel API
-/

namespace Kapi

open RbTree CTree

variable {α : Type*} [DecidableEq α] {s : Heap α} {k : List (Crumb α)} {t u : CTree α} {a : α}

theorem rotates_kapiRbRotate : Rotates (kapiRbRotate (α := α)) := by
  intro s k d c t a c' m b r h
  obtain ⟨s', hs', hrep⟩ := rotates_rotate s k d c t a c' m b r h
  refine ⟨s', ?_, hrep⟩
  have hp := h.apart
  have hna := h.isNode
  have hma : m.root ≠ some a := fun hm => hp.am (mem_toList_root hm)
  have htb : top k ≠ some b := fun ht => hp.bc (top_mem ht)
  rw [← hs']
  -- `b` gets its child before the parent gets `b`
  unfold kapiRbRotate Heap.rotate
  simp only [hna.far, (Represents.isNode h.far).near, root_join, Option.bind_eq_bind, Option.bind_some, Option.pure_def,
    node_setParent, node_setParentOf, node_setChild, if_neg hma, if_true, hna.parent, if_neg hp.ab, Node.setChild]
  refine congrArg some (Heap.ext_node (by simp) fun x => ?_)
  by_cases hx : x = b
  · simp [hx, htb, Ne.symm hp.ab, Node.setChild]
  · simp [hx, hp.ab]

/-! ## The walk -/

omit [DecidableEq α] in
theorem TotalPreorder.side {cmp : α → α → ℤ} (hcmp : TotalPreorder cmp) (node y : α) :
    match (if cmp node y < 0 then Side.left else .right) with
      | .left => cmp node y ≤ 0
      | .right => cmp y node ≤ 0 := by
  have hflip := (hcmp.flip node y).not
  by_cases hlt : cmp node y < 0
  · rw [if_pos hlt]
    exact Int.le_of_lt hlt
  · rw [if_neg hlt]
    show cmp y node ≤ 0
    omega

omit [DecidableEq α] in
/-- The walk ends at a hole that the new node fits into. -/
theorem findLink_spec {cmp : α → α → ℤ} (hcmp : TotalPreorder cmp) (h : Represents s t)
    (ht : t.Sorted (fun a b => cmp a b ≤ 0)) (node : α) {fuel : ℕ} (hfuel : t.toList.length < fuel) :
    ∃ k, findLink cmp s node fuel = some (links k).head? ∧ plug k nil = t ∧
      Fits (fun a b => cmp a b ≤ 0) node k := by
  obtain ⟨k, hwalk, hplug, hfit⟩ := descend_spec (k := []) hcmp.trans (hcmp.side node) h ht fits_nil hfuel
  refine ⟨k, ?_, hplug, hfit⟩
  unfold findLink
  rw [h.root]
  exact congrArg (Option.map List.head?) hwalk

/-- The new node is a red leaf in the hole. -/
theorem attach_spec {node : α} (h : Represents s (plug k nil)) (hnode : node ∉ ctxNodes k) :
    Represents (attach s node (links k).head?) (plug k (.node .red nil node nil)) := by
  refine h.linked hnode ?_ rfl fun y hy => ?_
  · rw [links_fst]
    constructor <;> simp [Node.setChild, Side.other]
  · simp [hy]

/-! ## The loop -/

theorem insertLoop_insertFix : InsertLoop (kapiRbRotate (α := α)) insertFix := by
  constructor
  · intro fuel node s hstop
    cases hp : (s.node node).parent with
    | none => rfl
    | some p =>
      unfold insertFix
      rw [hstop p hp, if_neg (by rintro ⟨⟩)]
  · intro fuel node p s _ hred
    rw [insertFix, if_pos hred]
    rfl

/-- The new node is in the tree after an insertion, in its place. -/
theorem kapiRbInsert_spec {cmp : α → α → ℤ} (hcmp : TotalPreorder cmp) {T : CTree α} {node : α} {fuel : ℕ}
    (h : Represents s T) (hrb : T.RedBlack) (hs : T.Sorted fun a b => cmp a b ≤ 0) (hnode : node ∉ T.toList)
    (hfuel : T.toList.length < fuel) :
    ∃ s' T', kapiRbInsert cmp fuel node s = some s' ∧ Represents s' T' ∧ T'.RedBlack ∧
      T'.Sorted (fun a b => cmp a b ≤ 0) ∧ T'.toList.Perm (node :: T.toList) := by
  obtain ⟨k, hwalk, hplug, hfit⟩ := findLink_spec hcmp h hs node hfuel
  have hempty : Represents s (plug k nil) := hplug ▸ h
  have hperm := perm_plug k (nil : CTree α)
  rw [hplug] at hperm
  have hattach := attach_spec hempty fun hmem => hnode (hperm.mem_iff.mpr hmem)
  have hlen : k.length ≤ T.toList.length := by
    have hle := length_plug k (nil : CTree α)
    rw [hplug] at hle
    exact hle
  have hfix : k.length < fuel := by omega
  have hred : RedIn k (.node .red nil node nil) := redIn_leaf (hplug.symm ▸ hrb)
  obtain ⟨s₁, T₁, hs₁, h₁, hrb₁, hlist₁⟩ := insertLoop_insertFix.spec rotates_kapiRbRotate hattach hred rfl hfix
  have hsorted : (plug k (.node .red nil node nil)).Sorted fun a b => cmp a b ≤ 0 :=
    hfit.sorted (hplug.symm ▸ hs)
  obtain ⟨a, ha⟩ : ∃ a, T₁.root = some a := by
    cases T₁ with
    | nil =>
      have hmem : node ∈ (plug k (.node .red nil node nil)).toList := by
        rw [toList_plug]
        simp [toList]
      rw [← hlist₁] at hmem
      cases hmem
    | node c l a r => exact ⟨a, rfl⟩
  obtain ⟨c, l, r, rfl⟩ := exists_join ha .left
  refine ⟨s₁.setColor a .black, join .left .black l a r, ?_, Represents.setColor (k := []) h₁ .black, ?_, ?_, ?_⟩
  · unfold kapiRbInsert
    rw [hwalk, Option.bind_eq_bind, Option.bind_some]
    dsimp only
    rw [links_fst, hs₁, Option.bind_eq_bind, Option.bind_some, h₁.root, ha]
    rfl
  · rw [recolor_join] at hrb₁
    exact hrb₁
  · unfold CTree.Sorted at hsorted ⊢
    rw [toList_join_color c, hlist₁]
    exact hsorted
  · rw [toList_join_color c, hlist₁]
    exact (perm_plug k _).trans (hperm.symm.cons node)

end Kapi

namespace Kapi

open RbTree CTree

variable {α : Type*} [DecidableEq α] {s : Heap α} {k : List (Crumb α)} {t u l r : CTree α} {a b y : α}
  {c : Color} {d : Side} {fuel : ℕ}

/-- A node with one child gives its place to it. -/
theorem unlink_spec (h : Represents s (plug k (join d c nil a u))) :
    Represents (unlink a u.root s) (plug k u) := by
  obtain ⟨ha, hdisj⟩ := h.above
  have hta : top k ≠ some a := fun ht => ha (top_mem ht)
  convert h.transplant using 1
  unfold unlink Heap.transplant
  refine Heap.ext_node (by simp) fun x => ?_
  by_cases hu : u.root = some x
  · simp [h.isNode.parent, hta, hu, hdisj x hu]
  · simp [h.isNode.parent, hta, hu]

theorem node_copyFields {x : α} (hya : y ≠ a) :
    (copyFields a y s).node x = if x = y then s.node a else s.node x := by
  unfold copyFields
  by_cases hx : x = y
  · subst hx
    rw [if_pos rfl]
    apply node_ext <;> simp [hya.symm, Node.setChild]
  · simp [hx]

theorem root_copyFields : (copyFields a y s).root = s.root := rfl

/-- A node that is in no tree takes the place of one with a left child. -/
theorem replace_spec (h : Represents s (plug k (.node c l a r))) (hl : l.root = some b)
    (hy : y ∉ (plug k (.node c l a r)).toList) :
    ∃ s', replace a y s = some s' ∧ Represents s' (plug k (.node c l y r)) := by
  have h : Represents s (plug k (join .left c l a r)) := h
  have hp := Represents.replaceable h hy
  have hctx := (represents_plug.mp h).1
  rw [root_join] at hctx
  have hnode := h.isNode
  have hright : (s.node a).child .right = r.root := hnode.far
  have hlb := hp.left b hl
  have hta : top k ≠ some a := fun ht => (hp.parent a ht).1 rfl
  have hty : top k ≠ some y := fun ht => (hp.parent y ht).2 rfl
  have hry : r.root ≠ some y := fun hr => (hp.right y hr).2.1 rfl
  unfold replace
  dsimp only
  simp only [node_relink, node_copyFields hp.ne, if_neg (Ne.symm hp.ne), if_neg hta, hnode.parent,
    hnode.near, hl, Option.bind_eq_bind, Option.bind_some, node_setParent, if_neg hlb.1.symm, hright]
  refine ⟨_, rfl, h.replaced hp.out ?_ ?_ ?_ ?_ ?_⟩
  · simp [hlb.2.1.symm, hry, hty, node_copyFields hp.ne]
  · intro x hx
    obtain rfl : b = x := Option.some.inj (hl.symm.trans hx)
    simp [hlb, node_copyFields hp.ne]
  · intro x hx
    have hbx : x ≠ b := fun heq => hlb.2.2.1 (heq ▸ hx)
    simp [hx, hp.right x hx, hbx, node_copyFields hp.ne]
  · refine relinked_relink (d := .left) hctx hp.old ?_ fun x hx => ?_
    · simp [root_copyFields]
    · have hbx : x ≠ b := fun heq => hlb.2.2.2 (heq ▸ hx)
      have hxr : r.root ≠ some x := fun hr => (hp.right x hr).2.2 hx
      simp [hx, hp.parent x hx, hbx, hxr, node_copyFields hp.ne]
  · intro x hxa hxy hxl hxr hxt
    have hbx : x ≠ b := fun heq => hxl (heq ▸ hl)
    simp [hxy, hbx, hxr, hxt, node_copyFields hp.ne]

/-! ## The loop -/

/-- The loop ends at a red node. -/
theorem eraseFix_red (h : Represents s (plug k t)) (hred : t.rootColor = .red) (hfuel : 0 < fuel) :
    eraseFix fuel t.root (top k) s = some (t.root, s) := by
  obtain ⟨fuel, rfl⟩ := Nat.exists_eq_add_one.mpr hfuel
  unfold eraseFix
  rw [h.colorOf, hred, if_neg]
  rintro ⟨-, hblack⟩
  cases hblack

/-- A short tree is a red-black tree again when the node that the loop ends at is made black. -/
theorem eraseFix_spec (h : Represents s (plug k t)) (hshort : ShortIn k t) (hfuel : k.length < fuel) :
    ∃ k' t' s', eraseFix fuel t.root (top k) s = some (t'.root, s') ∧ Represents s' (plug k' t') ∧
      (plug k' (t'.recolor .black)).RedBlack ∧ (plug k' t').toList = (plug k t).toList := by
  induction fuel generalizing s k t with
  | zero => omega
  | succ fuel ih =>
    have hcolor := h.colorOf
    by_cases hdone : k = [] ∨ t.rootColor = .red
    · have hstop : ¬(t.root ≠ s.root ∧ s.colorOf t.root = .black) := by
        rintro ⟨hne, hblack⟩
        rcases hdone with rfl | hred
        · exact hne h.root.symm
        · rw [← hcolor, hblack] at hred
          cases hred
      refine ⟨k, t, s, ?_, h, hshort.done hdone, rfl⟩
      unfold eraseFix
      rw [if_neg hstop]
    · obtain ⟨hk, hred⟩ := not_or.mp hdone
      cases k with
      | nil => exact absurd rfl hk
      | cons f k =>
        obtain ⟨d, cp, p, sib⟩ := f
        have ht : t.rootColor = .black := by
          cases hc : t.rootColor with
          | red => exact absurd hc hred
          | black => rfl
        have hgo : t.root ≠ s.root ∧ s.colorOf t.root = .black := ⟨root_ne_of_hole h, hcolor.trans ht⟩
        have hside := side_of_short h hshort
        unfold eraseFix
        rw [if_pos hgo, top, List.head?_cons, Option.map_some, Option.bind_eq_bind, Option.bind_some]
        dsimp only
        rw [hside]
        rcases deleteRound_spec rotates_kapiRbRotate (fun _ _ _ _ _ => rfl) h hshort ht with
          ⟨s', T, hround, hrep, hrb, hlist⟩ | ⟨s', k', c, v, hround, hrep, hshort', hgrow, hlist⟩
        · rw [hround, Option.bind_eq_bind, Option.bind_some]
          obtain ⟨-, n, hn⟩ := hrb
          refine ⟨[], T, s', ?_, hrep, hn.redBlack, hlist⟩
          dsimp only
          rw [if_pos rfl, hrep.root]
          rfl
        · rw [hround, Option.bind_eq_bind, Option.bind_some]
          dsimp only
          have hu : (join d c t p v).root = some p := root_join
          rw [if_neg (by decide), hrep.isNode.parent, ← hu]
          simp only [List.length_cons] at hfuel
          rcases hgrow with rfl | hred'
          · obtain ⟨k₂, t₂, s₂, hfix, hrep₂, hrb₂, hlist₂⟩ := ih hrep hshort' (by omega)
            exact ⟨k₂, t₂, s₂, hfix, hrep₂, hrb₂, hlist₂.trans hlist⟩
          · refine ⟨k', _, s', ?_, hrep, hshort'.done (.inr (rootColor_join.trans hred')), hlist⟩
            exact eraseFix_red hrep (rootColor_join.trans hred') (by omega)

/-- After the removal of a node whose child took its place. -/
theorem rebalance_spec {a : α} (h : Represents s (plug k u)) (hfuel : k.length < fuel)
    (hrb : (plug k (join d c nil a u)).RedBlack) :
    ∃ s' T, rebalance fuel c u.root (top k) s = some s' ∧ Represents s' T ∧ T.RedBlack ∧
      T.toList = (plug k u).toList := by
  cases c with
  | red => exact ⟨s, _, rfl, h, redBlack_of_red hrb, rfl⟩
  | black =>
    obtain ⟨k', t', s', hfix, hrep, hrb', hlist⟩ := eraseFix_spec h (shortIn_of_redBlack hrb) hfuel
    unfold rebalance
    dsimp only
    rw [hfix, Option.bind_eq_bind, Option.bind_some]
    dsimp only
    cases t' with
    | nil => exact ⟨s', _, rfl, hrep, hrb', hlist⟩
    | node c l x r =>
      refine ⟨_, _, rfl, Represents.setColor (d := .left) hrep .black, hrb', ?_⟩
      rw [← hlist]
      exact toList_plug_congr rfl

/-! ## The whole removal -/

/-- A node with at most one child. -/
theorem eraseSingle_spec (h : Represents s (plug k (join d c nil a u))) (hrb : (plug k (join d c nil a u)).RedBlack)
    (hfuel : (plug k (join d c nil a u)).toList.length < fuel) :
    ∃ s' T, rebalance fuel (s.node a).color u.root (s.node a).parent (unlink a u.root s) = some s' ∧
      Represents s' T ∧ T.RedBlack ∧ T.toList = before k ++ u.toList ++ after k := by
  have hlen : k.length < fuel := lt_of_le_of_lt (length_plug k (join d c nil a u)) hfuel
  obtain ⟨s', T, hs', hrep, hrb', hlist⟩ := rebalance_spec (unlink_spec h) hlen hrb
  rw [h.isNode.color, h.isNode.parent]
  exact ⟨s', T, hs', hrep, hrb', hlist.trans (toList_plug k u)⟩

/-- A node with two children: the next node in order takes its place. -/
theorem eraseBetween_spec {k₂ : List (Crumb α)} {c₂ : Color} {fuel : ℕ}
    (h : Represents s (plug k (node c l a (plug k₂ (node c₂ nil y u))))) (hl : l.root = some b)
    (hfirst : before k₂ = []) (hrb : (plug k (node c l a (plug k₂ (node c₂ nil y u)))).RedBlack)
    (hfuel : (plug k (node c l a (plug k₂ (node c₂ nil y u)))).toList.length < fuel) :
    ∃ s₂ s' T, replace a y (unlink y ((s.node y).child .right) s) = some s₂ ∧
      rebalance fuel (s.node y).color ((s.node y).child .right)
        (if (s.node y).parent = some a then some y else (s.node y).parent) s₂ = some s' ∧
      Represents s' T ∧ T.RedBlack ∧
      T.toList = before k ++ (l.toList ++ (plug k₂ (node c₂ nil y u)).toList) ++ after k := by
  have hsplit : ∀ (x : α) (t : CTree α), plug k (node c l x (plug k₂ t)) =
      plug (k₂ ++ ⟨.right, c, x, l⟩ :: k) t := fun x t => (plug_append k₂ (⟨.right, c, x, l⟩ :: k) t).symm
  have hne : ∀ f, k₂.head? = some f → f.node ≠ a := by
    rintro f hf rfl
    obtain ⟨k', rfl⟩ := List.head?_eq_some_iff.mp hf
    exact h.ne_of_right rfl
  rw [hsplit] at h hrb hfuel
  have hnode := Represents.isNode (d := .left) (t := nil) h
  have hright : (s.node y).child .right = u.root := hnode.far
  have hunlink := unlink_spec (d := .left) h
  have hy : y ∉ (plug (k₂ ++ ⟨.right, c, a, l⟩ :: k) u).toList := by
    rw [(perm_plug _ _).mem_iff]
    exact (List.nodup_cons.mp (represents_plug.mp h).2.2).1
  rw [← hsplit] at hunlink hy
  obtain ⟨s₂, hs₂, h₂⟩ := replace_spec hunlink hl hy
  rw [hsplit] at h₂
  have hrb₂ : (plug (k₂ ++ ⟨.right, c, y, l⟩ :: k) (join .left c₂ nil y u)).RedBlack := by
    rw [← hsplit] at hrb
    have hrelabel := hrb.relabel (b := y)
    rw [hsplit] at hrelabel
    exact hrelabel
  have hlen₂ : (k₂ ++ ⟨.right, c, y, l⟩ :: k).length < fuel := by
    have hlen := length_plug (k₂ ++ ⟨.right, c, a, l⟩ :: k) (node c₂ nil y u)
    rw [List.length_append, List.length_cons] at hlen ⊢
    omega
  have htop : (if (s.node y).parent = some a then some y else (s.node y).parent) =
      top (k₂ ++ ⟨.right, c, y, l⟩ :: k) := by
    rw [hnode.parent]
    cases k₂ with
    | nil => exact if_pos rfl
    | cons f k₂ => exact if_neg fun heq => hne f rfl (Option.some.inj heq)
  obtain ⟨s', T, hs', hrep, hrb', hlist⟩ := rebalance_spec h₂ hlen₂ hrb₂
  rw [hright, hnode.color, htop]
  refine ⟨s₂, s', T, hs₂, hs', hrep, hrb', hlist.trans ?_⟩
  rw [← hsplit, toList_plug, toList, toList_plug, toList_plug, hfirst]
  simp [toList]

/-- The node is no longer in the tree after a removal. -/
theorem kapiRbErase_spec {T : CTree α} (h : Represents s T) (hrb : T.RedBlack) (ha : a ∈ T.toList)
    (hfuel : T.toList.length < fuel) :
    ∃ s' T', kapiRbErase fuel a s = some s' ∧ Represents s' T' ∧ T'.RedBlack ∧
      T'.toList = T.toList.erase a := by
  obtain ⟨k, c, l, r, rfl⟩ := exists_plug ha
  rw [erase_toList_plug h.nodup]
  have hnode := Represents.isNode (d := .left) (t := l) (u := r) h
  have hright : (s.node a).child .right = r.root := hnode.far
  unfold kapiRbErase
  rw [hnode.near, hright]
  cases hl : l.root with
  | none =>
    obtain rfl := root_eq_none.mp hl
    exact eraseSingle_spec (d := .left) h hrb hfuel
  | some b =>
    cases hr : r.root with
    | none =>
      obtain rfl := root_eq_none.mp hr
      have hsingle := eraseSingle_spec (d := .right) h hrb hfuel
      rw [hl] at hsingle
      rw [toList, List.append_nil]
      exact hsingle
    | some b' =>
      dsimp only
      have hhole : Represents s (plug (⟨.right, c, a, l⟩ :: k) r) := Represents.far (d := .left) h
      have hlen : r.toList.length ≤ fuel := by
        have hsize := (perm_plug k (node c l a r)).length_eq
        simp only [toList, List.length_append, List.length_cons] at hsize
        omega
      obtain ⟨k₂, c₂, y, u, hy, rfl, hb⟩ := leftmost_spec hhole hr hlen
      rw [hy, Option.bind_eq_bind, Option.bind_some]
      obtain ⟨s₂, s', T, hs₂, hs', hrep, hrb', hlist⟩ := eraseBetween_spec h hl hb hrb hfuel
      rw [hs₂, Option.bind_eq_bind, Option.bind_some]
      exact ⟨s', T, hs', hrep, hrb', hlist⟩

end Kapi

namespace Kapi

open RbTree CTree

variable {α : Type*} [DecidableEq α] {s : Heap α} {k : List (Crumb α)} {t T l r : CTree α} {a b : α} {c : Color}
  {fuel : ℕ}

omit [DecidableEq α] in
theorem kapiRbFirst_spec (h : Represents s T) (hfuel : T.toList.length ≤ fuel) :
    kapiRbFirst fuel s = some T.toList.head? := by
  unfold kapiRbFirst
  rw [h.root]
  cases hroot : T.root with
  | none =>
    rw [root_eq_none.mp hroot]
    rfl
  | some a => exact leftmost_head (k := []) h hroot hfuel

/-- Up from a subtree, the first node behind it is found. -/
theorem climb_spec (h : Represents s (plug k t)) (ht : t.root = some a) (hfuel : k.length < fuel) :
    climb s fuel a (top k) = some (after k).head? := by
  induction fuel generalizing k t a with
  | zero => omega
  | succ fuel ih =>
    cases k with
    | nil => rfl
    | cons f k =>
      obtain ⟨d, c, p, sib⟩ := f
      have hp := Represents.isNode (k := k) h
      show (if (s.node p).child .right = some a then climb s fuel p (s.node p).parent else some (some p)) = _
      cases d with
      | left =>
        have hfar : (s.node p).child .right = sib.root := hp.far
        rw [hfar, if_neg (sibling_ne h ht)]
        rfl
      | right =>
        have hnear : (s.node p).child .right = t.root := hp.near
        simp only [List.length_cons] at hfuel
        rw [hnear, if_pos ht, hp.parent]
        exact ih (k := k) h root_join (by omega)

/-- The next node in order. -/
theorem kapiRbNext_spec (h : Represents s (plug k (node c l a r)))
    (hfuel : (plug k (node c l a r)).toList.length < fuel) :
    kapiRbNext fuel s a = some (r.toList ++ after k).head? := by
  have hright : (s.node a).child .right = r.root := (Represents.isNode (d := .left) (t := l) h).far
  unfold kapiRbNext
  rw [hright]
  cases hroot : r.root with
  | none =>
    obtain rfl := root_eq_none.mp hroot
    have hlen := length_plug k (node c l a nil)
    dsimp only
    rw [(Represents.isNode (d := .left) (t := l) h).parent]
    exact climb_spec h rfl (by omega)
  | some b =>
    have hsize : r.toList.length ≤ fuel := by
      rw [toList_plug] at hfuel
      simp only [toList, List.length_append, List.length_cons] at hfuel
      omega
    have hhole : Represents s (plug (⟨.right, c, a, l⟩ :: k) r) := Represents.far (d := .left) h
    dsimp only
    rw [leftmost_head hhole hroot hsize, List.head?_append_of_ne_nil]
    exact List.ne_nil_of_mem (mem_toList_root hroot)

omit [DecidableEq α] in
/-- The place of a node in the order says what is behind it in the tree. -/
theorem exists_plug_split {xs ys : List α} (hnodup : T.toList.Nodup) (h : T.toList = xs ++ a :: ys) :
    ∃ k c l r, T = plug k (node c l a r) ∧ ys = r.toList ++ after k := by
  have hmem : a ∈ T.toList := by
    rw [h]
    simp
  obtain ⟨k, c, l, r, rfl⟩ := exists_plug hmem
  have hsplit : (plug k (node c l a r)).toList = (before k ++ l.toList) ++ a :: (r.toList ++ after k) := by
    rw [toList_plug]
    simp [toList]
  rw [hsplit] at h hnodup
  obtain ⟨-, hbehind, hbefore⟩ := List.nodup_append.mp hnodup
  have hnot : a ∉ before k ++ l.toList := fun ha => hbefore a ha a List.mem_cons_self rfl
  have hnot' : a ∉ r.toList ++ after k := (List.nodup_cons.mp hbehind).1
  obtain ⟨-, -, hys⟩ := (List.append_cons_inj_of_notMem hnot hnot').mp h
  exact ⟨k, c, l, r, rfl, hys.symm⟩

/-- The iteration from a node on. -/
theorem visit_spec (h : Represents s T) (hfuel : T.toList.length < fuel) {xs ys : List α} {n : ℕ}
    (hsplit : T.toList = xs ++ ys) (hn : ys.length ≤ n) : visit fuel s n ys.head? = some ys := by
  induction ys generalizing xs n with
  | nil => cases n <;> rfl
  | cons y ys ih =>
    cases n with
    | zero => simp at hn
    | succ n =>
      obtain ⟨k, c, l, r, rfl, rfl⟩ := exists_plug_split h.nodup hsplit
      show (kapiRbNext fuel s y).bind _ = _
      rw [kapiRbNext_spec h hfuel, Option.bind_some]
      have hrest : (plug k (node c l y r)).toList = (xs ++ [y]) ++ (r.toList ++ after k) := by
        rw [hsplit, List.append_assoc, List.singleton_append]
      rw [ih hrest (Nat.le_of_succ_le_succ hn)]
      rfl

theorem iterate_spec (h : Represents s T) (hfuel : T.toList.length < fuel) : iterate fuel s = some T.toList := by
  unfold iterate
  have hle := Nat.le_of_lt hfuel
  have hsplit : T.toList = [] ++ T.toList := rfl
  rw [kapiRbFirst_spec h hle]
  exact visit_spec h hfuel hsplit hle

/-! ## Runs -/

variable {cmp : α → α → ℤ} {held : List α}

/-- The heap has a sorted red-black tree with the nodes `held`. -/
structure Keeps (cmp : α → α → ℤ) (s : Heap α) (T : CTree α) (held : List α) : Prop where
  represents : Represents s T
  redBlack : T.RedBlack
  sorted : T.Sorted fun a b => cmp a b ≤ 0
  perm : T.toList.Perm held

theorem Keeps.insert (hcmp : TotalPreorder cmp) (h : Keeps cmp s T held) (hnode : a ∉ held)
    (hfuel : held.length < fuel) :
    ∃ s' T', kapiRbInsert cmp fuel a s = some s' ∧ Keeps cmp s' T' (a :: held) := by
  rw [← h.perm.length_eq] at hfuel
  rw [← h.perm.mem_iff] at hnode
  obtain ⟨s', T', hs', hrep, hrb, hsorted, hperm⟩ :=
    kapiRbInsert_spec hcmp h.represents h.redBlack h.sorted hnode hfuel
  exact ⟨s', T', hs', hrep, hrb, hsorted, hperm.trans (h.perm.cons a)⟩

theorem Keeps.erase (h : Keeps cmp s T held) (hnode : a ∈ held) (hfuel : held.length < fuel) :
    ∃ s' T', kapiRbErase fuel a s = some s' ∧ Keeps cmp s' T' (held.erase a) := by
  rw [← h.perm.length_eq] at hfuel
  rw [← h.perm.mem_iff] at hnode
  obtain ⟨s', T', hs', hrep, hrb, hlist⟩ := kapiRbErase_spec h.represents h.redBlack hnode hfuel
  refine ⟨s', T', hs', hrep, hrb, ?_, ?_⟩
  · have hsorted := h.sorted
    unfold CTree.Sorted at hsorted ⊢
    rw [hlist]
    exact hsorted.sublist List.erase_sublist
  · rw [hlist]
    exact h.perm.erase a

theorem run_spec (hcmp : TotalPreorder cmp) {ops : List (Op α)} (h : Keeps cmp s T held)
    (hops : WellUsed held ops) (hfuel : held.length + ops.length < fuel) :
    ∃ s' T', Run.run (step cmp fuel) s ops = some s' ∧ Keeps cmp s' T' (contents held ops) ∧
      iterate fuel s' = some T'.toList := by
  induction ops generalizing s T held with
  | nil =>
    rw [← h.perm.length_eq, List.length_nil, Nat.add_zero] at hfuel
    exact ⟨s, T, rfl, h, iterate_spec h.represents hfuel⟩
  | cons op ops ih =>
    simp only [List.length_cons] at hfuel
    cases op with
    | insert a =>
      have hroom : held.length < fuel := by omega
      obtain ⟨s₁, T₁, hs₁, h₁⟩ := h.insert hcmp hops.1 hroom
      rw [Run.run_cons hs₁]
      exact ih h₁ hops.2 (by simp only [List.length_cons]; omega)
    | erase a =>
      have hroom : held.length < fuel := by omega
      obtain ⟨s₁, T₁, hs₁, h₁⟩ := h.erase hops.1 hroom
      have hlen := List.length_erase_of_mem hops.1
      rw [Run.run_cons hs₁]
      exact ih h₁ hops.2 (by omega)

/-- After any operations on an empty tree: no step fails, the heap has a sorted red-black tree of the nodes
inserted and not erased since, and the iteration visits its nodes in order. -/
theorem kapi_rb_runs (hcmp : TotalPreorder cmp) (node : α → Node α) (ops : List (Op α)) (hops : WellUsed [] ops)
    (fuel : ℕ) (hfuel : ops.length < fuel) :
    ∃ s T, Run.run (step cmp fuel) (empty node) ops = some s ∧ Represents s T ∧ T.RedBlack ∧
      T.Sorted (fun a b => cmp a b ≤ 0) ∧ T.toList.Perm (contents [] ops) ∧ iterate fuel s = some T.toList := by
  have hstart : Keeps cmp (empty node) nil [] :=
    ⟨⟨rfl, trivial, List.nodup_nil⟩, ⟨rfl, 0, rfl⟩, List.Pairwise.nil, .refl _⟩
  have hroom : ([] : List α).length + ops.length < fuel := by
    rw [List.length_nil, Nat.zero_add]
    exact hfuel
  obtain ⟨s, T, hrun, hkeeps, hiterate⟩ := run_spec hcmp hstart hops hroom
  exact ⟨s, T, hrun, hkeeps.represents, hkeeps.redBlack, hkeeps.sorted, hkeeps.perm, hiterate⟩

omit [DecidableEq α] in
theorem totalPreorder_sub (key : α → ℤ) : TotalPreorder fun a b => key a - key b :=
  ⟨fun a b => by omega, fun a b c => by omega⟩

theorem kapi_rb_runs_four :
    let node : ℕ → Node ℕ := fun _ => ⟨fun _ => none, none, .black⟩
    let cmp : ℕ → ℕ → ℤ := fun a b => (a : ℤ) - b
    ∃ s T, Run.run (step cmp 5) (empty node) [.insert 2, .insert 1, .insert 3, .erase 2] = some s ∧
      Represents s T ∧ T.RedBlack ∧ T.Sorted (fun a b => cmp a b ≤ 0) ∧ T.toList.Perm [3, 1] ∧
      iterate 5 s = some T.toList :=
  kapi_rb_runs (totalPreorder_sub fun a : ℕ => (a : ℤ)) _ [.insert 2, .insert 1, .insert 3, .erase 2]
    (by simp [WellUsed]) 5 (by decide)

end Kapi
