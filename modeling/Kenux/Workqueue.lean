import Kenux.Lib.Run
import Kenux.Lib.SList
import Mathlib.Data.UInt

/-!
# Work queues (`kernel/workqueue.c`)

Works, queues and the wrappers of delayed works are numbers. A tick is given with the timers of wrappers that are due
in it; the body of the loop of `__expire_level0` is run for each. `none` is a loop that does not end.
-/

namespace Workqueue

open Run SList Function

/-- The links and flags of the works, the queues, the wrappers with their queues and works, and what was done so far. -/
structure State where
  next : ℕ → Option ℕ
  pending : ℕ → Bool
  head : ℕ → Option ℕ
  tail : ℕ → Option ℕ
  pendingCount : ℕ → ℕ
  wrappers : List (ℕ × ℕ)
  /-- How often a wrapper was freed. -/
  freed : ℕ → ℕ
  /-- Whether a wrapper was used after that. -/
  misused : Bool
  queued : ℕ → ℕ
  ran : ℕ → ℕ
  cancelled : ℕ → ℕ
  total : ℕ

def start : State :=
  ⟨fun _ => none, fun _ => false, fun _ => none, fun _ => none, fun _ => 0, [], fun _ => 0, false, fun _ => 0,
    fun _ => 0, fun _ => 0, 0⟩

def count (f : ℕ → ℕ) (w : ℕ) : ℕ → ℕ := update f w (f w + 1)

/-- `queue_work`; `func` tells which works have a function. -/
def queueWork (func : ℕ → Bool) (q w : ℕ) (s : State) : State :=
  if ¬func w ∨ s.pending w then s
  else
    let next := update s.next w none
    { s with
      next := match s.tail q with
        | some t => update next t (some w)
        | none => next
      pending := update s.pending w true
      head := match s.tail q with
        | some _ => s.head
        | none => update s.head q (some w)
      tail := update s.tail q (some w)
      pendingCount := update s.pendingCount q ((s.pendingCount q + 1) % 2 ^ 32)
      queued := count s.queued w
      total := s.total + 1 }

/-- `work->next = NULL; work->pending = 0; wq->pending_count--` -/
def State.drop (s : State) (q w : ℕ) : State :=
  { s with
    next := update s.next w none
    pending := update s.pending w false
    pendingCount := update s.pendingCount q ((s.pendingCount q + (2 ^ 32 - 1)) % 2 ^ 32) }

/-- The link to `w` is set to what is behind it: in the work before it, or at the head. -/
def State.relink (s : State) (q w : ℕ) (before : Option ℕ) : State :=
  { s with
    next := match before with
      | some p => update s.next p (s.next w)
      | none => s.next
    head := match before with
      | some _ => s.head
      | none => update s.head q (s.next w)
    tail := match before with
      | some p => if s.tail q = some w then update s.tail q (some p) else s.tail
      | none => if s.next w = none then update s.tail q none else s.tail }

/-- `cancel_work` -/
def cancelWork (q w : ℕ) (s : State) : Option State :=
  if ¬s.pending w then some s
  else
    let taken :=
      if s.head q = some w then some (s.relink q w none)
      else (slotOf s.next w s.total none (s.head q)).map fun slot =>
        match slot with
        | some (some p) => s.relink q w (some p)
        | _ => s
    taken.map fun t => { t.drop q w with cancelled := count t.cancelled w }

/-- An iteration of `workqueue_thread`. -/
def work (func : ℕ → Bool) (q : ℕ) (s : State) : State :=
  match s.head q with
  | none => s
  | some w =>
    let s := (s.relink q w none).drop q w
    if func w then { s with ran := count s.ran w } else s

/-- `queue_delayed_work` -/
def queueDelayedWork (func : ℕ → Bool) (q w delay : ℕ) (allocates : Bool) (s : State) : State :=
  if delay = 0 then queueWork func q w s
  else if ¬allocates then s
  else { s with wrappers := s.wrappers ++ [(q, w)] }

/-- The timer of a wrapper expires: `delayed_work_callback` queues the work and frees the wrapper, and then the flags of
the timer inside it are read, which is put into the wheel again. -/
def expire (func : ℕ → Bool) (s : State) (d : ℕ) : State :=
  match s.wrappers[d]? with
  | none => s
  | some (q, w) =>
    let s := queueWork func q w { s with misused := s.misused ∨ 0 < s.freed d }
    let s := { s with freed := count s.freed d }
    { s with misused := s.misused ∨ 0 < s.freed d }

inductive Op where
  | queue (q w : ℕ)
  | delayed (q w delay : ℕ) (allocates : Bool)
  | cancel (q w : ℕ)
  | tick (due : List ℕ)
  | work (q : ℕ)

def step (func : ℕ → Bool) (s : State) : Op → Option State
  | .queue q w => some (queueWork func q w s)
  | .delayed q w delay allocates => some (queueDelayedWork func q w delay allocates s)
  | .cancel q w => cancelWork q w s
  | .tick due => some (due.foldl (expire func) s)
  | .work q => some (work func q s)

/-- The queues hold these works: a pending one is in exactly one queue, each queue is counted, a work was run or
cancelled as often as it was queued, and no wrapper was freed twice or used after that. -/
structure Holds (func : ℕ → Bool) (s : State) (works : ℕ → List ℕ) : Prop where
  chained : ∀ q, Chained s.next (s.head q) (works q)
  nodup : ∀ q, (works q).Nodup
  tail : ∀ q, s.tail q = (works q).getLast?
  counted : ∀ q, s.pendingCount q = (works q).length
  one : ∀ q q' w, w ∈ works q → w ∈ works q' → q = q'
  pending : ∀ w, s.pending w ↔ ∃ q, w ∈ works q
  done : ∀ w, s.queued w = s.ran w + s.cancelled w + (s.pending w).toNat
  wrappers : (∀ d, s.freed d ≤ 1) ∧ s.misused = false
  total : ∀ q, (works q).length ≤ s.total
  small : ∀ q, (works q).length < 2 ^ 32
  able : ∀ q, ∀ w ∈ works q, func w

/-- A queue does not outgrow its counter, a pending work is cancelled in its own queue, and no delay runs out. -/
def Harmless (s : State) : Op → Prop
  | .queue q _ => s.pendingCount q + 1 < 2 ^ 32
  | .delayed q _ delay _ => delay = 0 → s.pendingCount q + 1 < 2 ^ 32
  | .cancel q w => s.pending w → ∃ l, Chained s.next (s.head q) l ∧ w ∈ l
  | .tick due => due = []
  | .work _ => True

variable {func : ℕ → Bool} {s t : State} {works : ℕ → List ℕ} {q w : ℕ} {l₁ l₂ : List ℕ}

theorem Holds.apart (h : Holds func s works) {r x : ℕ} (hx : x ∈ works r) (hr : r ≠ q) : x ∉ works q :=
  fun hq => hr (h.one r q x hx hq)

theorem Holds.queueWork (h : Holds func s works) (hcount : s.pendingCount q + 1 < 2 ^ 32) :
    ∃ works, Holds func (queueWork func q w s) works := by
  unfold Workqueue.queueWork
  by_cases hskip : ¬func w ∨ s.pending w
  · exact ⟨works, by rwa [if_pos hskip]⟩
  rw [if_neg hskip]
  have hidle : ¬s.pending w := fun hp => hskip (.inr hp)
  have hfunc : func w := not_not.mp fun hno => hskip (.inl hno)
  have hnot (r : ℕ) : w ∉ works r := fun hin => hidle ((h.pending w).mpr ⟨r, hin⟩)
  have hne {r x : ℕ} (hx : x ∈ works r) : x ≠ w := fun heq => hnot r (heq ▸ hx)
  have htail := h.tail q
  -- the last work points to the new one, and no other link changes
  have hlink {x : ℕ} (hx : x ≠ w) : (match s.tail q with
      | some t => update (update s.next w none) t (some w)
      | none => update s.next w none) x = if (works q).getLast? = some x then some w else s.next x := by
    rw [htail]
    cases (works q).getLast? with
    | none => exact (update_of_ne hx _ _).trans (if_neg nofun).symm
    | some t =>
      dsimp only
      by_cases hxt : x = t
      · rw [hxt, update_self, if_pos rfl]
      · rw [update_of_ne hxt, update_of_ne hx, if_neg fun heq => hxt (Option.some.inj heq).symm]
  have hmem {r x : ℕ} (hx : x ∈ update works q (works q ++ [w]) r) : x ∈ works r ∨ x = w ∧ r = q := by
    by_cases hr : r = q
    · rw [hr, update_self] at hx
      exact (List.mem_append.mp hx).imp (hr ▸ ·) fun hx => ⟨List.mem_singleton.mp hx, hr⟩
    · rw [update_of_ne hr] at hx
      exact .inl hx
  refine ⟨update works q (works q ++ [w]), ?_⟩
  constructor
  all_goals try dsimp only
  case chained =>
    intro r
    by_cases hr : r = q
    · subst hr
      rw [update_self]
      have hchain : Chained s.next (s.head r) (works r ++ []) := by
        rw [List.append_nil]
        exact h.chained r
      have hnew := hchain.insert (x := w) (by rw [List.append_nil]; exact h.nodup r) ?_ fun y hy =>
        hlink (hne (by rwa [List.append_nil] at hy))
      · convert hnew using 1
        rw [htail]
        cases hlast : (works r).getLast? with
        | none => exact (update_self ..).trans (if_pos (List.getLast?_eq_none_iff.mp hlast)).symm
        | some t =>
          rw [if_neg fun hnil => by rw [hnil] at hlast; cases hlast]
      · rw [htail]
        cases hlast : (works r).getLast? with
        | none => exact update_self ..
        | some t =>
          have hwt : w ≠ t := fun heq => hnot r (by rw [heq]; exact List.mem_of_getLast? hlast)
          exact (update_of_ne hwt _ _).trans (update_self ..)
    · rw [update_of_ne hr]
      have hhead : (match s.tail q with
          | some _ => s.head
          | none => update s.head q (some w)) r = s.head r := by
        cases s.tail q with
        | none => exact update_of_ne hr _ _
        | some t => rfl
      rw [hhead]
      refine (h.chained r).congr fun x hx => (hlink (hne hx)).trans (if_neg fun heq => ?_)
      exact h.apart hx hr (List.mem_of_getLast? heq)
  case nodup =>
    refine (forall_update_iff works fun _ l => l.Nodup).mpr ⟨?_, fun r _ => h.nodup r⟩
    exact List.nodup_append.mpr ⟨h.nodup q, List.nodup_singleton w, fun x hx y hy heq =>
      hne hx (heq.trans (List.mem_singleton.mp hy))⟩
  case tail =>
    intro r
    by_cases hr : r = q
    · rw [hr, update_self, update_self, List.getLast?_concat]
    · rw [update_of_ne hr, update_of_ne hr, h.tail]
  case counted =>
    intro r
    by_cases hr : r = q
    · rw [hr, update_self, update_self, Nat.mod_eq_of_lt hcount, h.counted, List.length_append, List.length_singleton]
    · rw [update_of_ne hr, update_of_ne hr, h.counted]
  case one =>
    intro r r' x hx hx'
    rcases hmem hx, hmem hx' with ⟨hin | ⟨heq, hr⟩, hin' | ⟨heq', hr'⟩⟩
    · exact h.one r r' x hin hin'
    · exact (hne hin heq').elim
    · exact (hne hin' heq).elim
    · exact hr.trans hr'.symm
  case pending =>
    intro x
    by_cases hx : x = w
    · rw [hx, update_self]
      exact iff_of_true rfl ⟨q, by rw [update_self]; exact List.mem_append_right _ List.mem_cons_self⟩
    · rw [update_of_ne hx, h.pending]
      refine exists_congr fun r => ?_
      by_cases hr : r = q
      · rw [hr, update_self, List.mem_append, List.mem_singleton, or_iff_left hx]
      · rw [update_of_ne hr]
  case done =>
    intro x
    have hdone := h.done x
    unfold count
    by_cases hx : x = w
    · subst hx
      rw [Bool.eq_false_iff.mpr hidle] at hdone
      rw [update_self, update_self, hdone]
      rfl
    · rw [update_of_ne hx, update_of_ne hx, hdone]
  case wrappers => exact h.wrappers
  case total =>
    refine (forall_update_iff works fun _ l => l.length ≤ s.total + 1).mpr ⟨?_, fun r _ => (h.total r).trans (Nat.le_succ _)⟩
    rw [List.length_append]
    exact Nat.succ_le_succ (h.total q)
  case small =>
    refine (forall_update_iff works fun _ l => l.length < 2 ^ 32).mpr ⟨?_, fun r _ => h.small r⟩
    rw [List.length_append, List.length_singleton, ← h.counted]
    exact hcount
  case able =>
    intro r x hx
    rcases hmem hx with hx | ⟨rfl, -⟩
    · exact h.able r x hx
    · exact hfunc

/-- What is left when a work is taken out of its queue and counted as done. -/
theorem Holds.remove (ran cancelled : ℕ → ℕ) (h : Holds func s works) (hw : works q = l₁ ++ w :: l₂)
    (hdone : ran w + cancelled w = s.ran w + s.cancelled w + 1)
    (hother : ∀ x, x ≠ w → ran x = s.ran x ∧ cancelled x = s.cancelled x) :
    ∃ works, Holds func { (s.relink q w l₁.getLast?).drop q w with ran := ran, cancelled := cancelled } works := by
  have hnd := hw ▸ h.nodup q
  have hin : w ∈ works q := hw ▸ List.mem_append_right _ List.mem_cons_self
  have hrest : ∀ x, x ∈ works q ↔ x = w ∨ x ∈ l₁ ++ l₂ := fun x => by
    rw [hw, List.mem_append, List.mem_cons, List.mem_append]
    exact or_left_comm
  have hcount := h.small q
  have hgone : w ∉ l₁ ++ l₂ := (List.nodup_middle.mp hnd).notMem
  have hne {x : ℕ} (hx : x ∈ l₁ ++ l₂) : x ≠ w := fun heq => hgone (heq ▸ hx)
  have hlength : (works q).length = (l₁ ++ l₂).length + 1 := by
    rw [hw, List.length_append, List.length_append, List.length_cons, Nat.add_assoc]
  have hbehind : s.next w = l₂.head? := Chained.next_eq (hw ▸ h.chained q)
  have hlink {x : ℕ} (hx : x ≠ w) : ((s.relink q w l₁.getLast?).drop q w).next x =
      if l₁.getLast? = some x then s.next w else s.next x := by
    cases l₁.getLast? with
    | none => exact (update_of_ne hx _ _).trans (if_neg nofun).symm
    | some p =>
      refine (update_of_ne hx _ _).trans ?_
      change update s.next p (s.next w) x = _
      by_cases hxp : x = p
      · rw [hxp, update_self, if_pos rfl]
      · rw [update_of_ne hxp, if_neg fun heq => hxp (Option.some.inj heq).symm]
  have hhead (r : ℕ) : ((s.relink q w l₁.getLast?).drop q w).head r =
      if r = q ∧ l₁ = [] then s.next w else s.head r := by
    cases hlast : l₁.getLast? with
    | none =>
      have hnil := List.getLast?_eq_none_iff.mp hlast
      change update s.head q (s.next w) r = _
      rw [update_apply]
      simp only [hnil, and_true]
    | some p =>
      rw [if_neg fun hand => by rw [hand.2] at hlast; cases hlast]
      rfl
  have htail (r : ℕ) : ((s.relink q w l₁.getLast?).drop q w).tail r =
      if r = q then (l₁ ++ l₂).getLast? else s.tail r := by
    have hold : s.tail q = some (l₂.getLast?.getD w) := by
      rw [h.tail, hw, List.getLast?_append, List.getLast?_cons, Option.some_or]
    have hlast : s.tail q = some w ↔ l₂ = [] := by
      rw [hold, Option.some_inj]
      cases hl : l₂.getLast? with
      | none => exact iff_of_true rfl (List.getLast?_eq_none_iff.mp hl)
      | some p =>
        refine iff_of_false (fun heq => ?_) fun hnil => by rw [hnil] at hl; cases hl
        exact hgone (List.mem_append_right _ (heq ▸ List.mem_of_getLast? hl))
    have hempty : s.next w = none ↔ l₂ = [] := by rw [hbehind, List.head?_eq_none_iff]
    have hnew : ((s.relink q w l₁.getLast?).drop q w).tail =
        if l₂ = [] then update s.tail q l₁.getLast? else s.tail := by
      unfold State.drop State.relink
      cases l₁.getLast? with
      | none => simp only [hempty]
      | some p => simp only [hlast]
    rw [hnew]
    by_cases hnil : l₂ = []
    · rw [if_pos hnil, update_apply, hnil, List.append_nil]
    · rw [if_neg hnil]
      by_cases hr : r = q
      · rw [if_pos hr, hr, hold, List.getLast?_append]
        cases hl : l₂.getLast? with
        | none => exact (hnil (List.getLast?_eq_none_iff.mp hl)).elim
        | some p => rfl
      · rw [if_neg hr]
  have hmem {r x : ℕ} (hx : x ∈ update works q (l₁ ++ l₂) r) : x ∈ works r := by
    by_cases hr : r = q
    · rw [hr, update_self] at hx
      exact hr ▸ (hrest x).mpr (.inr hx)
    · rwa [update_of_ne hr] at hx
  refine ⟨update works q (l₁ ++ l₂), ?_⟩
  constructor
  all_goals try dsimp only
  case chained =>
    intro r
    rw [hhead]
    by_cases hr : r = q
    · subst hr
      have hchain := Chained.unlink (hw ▸ h.chained r) hnd fun y hy => hlink (hne hy)
      simpa only [update_self, true_and] using hchain
    · rw [update_of_ne hr, if_neg fun hand => hr hand.1]
      refine (h.chained r).congr fun x hx => (hlink (by rintro rfl; exact h.apart hx hr hin)).trans (if_neg fun heq => ?_)
      exact h.apart hx hr ((hrest x).mpr (.inr (List.mem_append_left _ (List.mem_of_getLast? heq))))
  case nodup =>
    exact (forall_update_iff works fun _ l => l.Nodup).mpr ⟨(List.nodup_middle.mp hnd).of_cons, fun r _ => h.nodup r⟩
  case tail =>
    intro r
    rw [htail, update_apply, h.tail]
    split_ifs
    · rfl
    · rfl
  case counted =>
    intro r
    have hcounted := h.counted r
    change update s.pendingCount q ((s.pendingCount q + (2 ^ 32 - 1)) % 2 ^ 32) r = _
    by_cases hr : r = q
    · subst hr
      rw [update_self, update_self, hcounted]
      omega
    · rw [update_of_ne hr, update_of_ne hr, hcounted]
  case one => exact fun r r' x hx hx' => h.one r r' x (hmem hx) (hmem hx')
  case pending =>
    intro x
    change update s.pending w false x = true ↔ _
    by_cases hx : x = w
    · rw [hx, update_self]
      refine iff_of_false Bool.false_ne_true ?_
      rintro ⟨r, hr⟩
      by_cases hrq : r = q
      · rw [hrq, update_self] at hr
        exact hgone hr
      · rw [update_of_ne hrq] at hr
        exact h.apart hr hrq hin
    · rw [update_of_ne hx, h.pending]
      refine exists_congr fun r => ?_
      by_cases hr : r = q
      · rw [hr, update_self, hrest, or_iff_right hx]
      · rw [update_of_ne hr]
  case done =>
    intro x
    have hbefore := h.done x
    change s.queued x = ran x + cancelled x + (update s.pending w false x).toNat
    by_cases hx : x = w
    · subst hx
      rw [(h.pending x).mpr ⟨q, hin⟩] at hbefore
      rw [update_self, hdone, hbefore]
      rfl
    · rw [update_of_ne hx, (hother x hx).1, (hother x hx).2, hbefore]
  case wrappers => exact h.wrappers
  case total =>
    have htotal := h.total q
    exact (forall_update_iff works fun _ l => l.length ≤ s.total).mpr ⟨by omega, fun r _ => h.total r⟩
  case small =>
    exact (forall_update_iff works fun _ l => l.length < 2 ^ 32).mpr ⟨by omega, fun r _ => h.small r⟩
  case able => exact fun r x hx => h.able r x (hmem hx)

theorem Holds.cancelWork (h : Holds func s works) (hok : Harmless s (.cancel q w))
    (hst : cancelWork q w s = some t) : ∃ works, Holds func t works := by
  unfold Workqueue.cancelWork at hst
  by_cases hp : s.pending w
  · rw [if_neg (not_not.mpr hp)] at hst
    obtain ⟨l, hl, hin⟩ := hok hp
    rw [hl.unique (h.chained q)] at hin
    obtain ⟨l₁, l₂, hw, hbefore⟩ := List.eq_append_cons_of_mem hin
    have htaken : (if s.head q = some w then some (s.relink q w none)
        else (slotOf s.next w s.total none (s.head q)).map fun slot => match slot with
          | some (some p) => s.relink q w (some p)
          | _ => s) = some (s.relink q w l₁.getLast?) := by
      have hchain := hw ▸ h.chained q
      cases hlast : l₁.getLast? with
      | none =>
        rw [List.getLast?_eq_none_iff.mp hlast] at hchain
        rw [if_pos hchain.1]
      | some p =>
        have hhead : s.head q ≠ some w := by
          cases l₁ with
          | nil => cases hlast
          | cons x xs =>
            rw [hchain.1]
            exact fun heq => hbefore (Option.some.inj heq ▸ List.mem_cons_self)
        rw [if_neg hhead, hchain.slotOf_eq hbefore (by rw [← hw]; exact h.total q), hlast]
        rfl
    dsimp only at hst
    rw [htaken] at hst
    cases hst
    refine h.remove s.ran (count s.cancelled w) hw ?_ fun x hx => ⟨rfl, update_of_ne hx _ _⟩
    rw [count, update_self, Nat.add_assoc]
  · rw [if_pos hp] at hst
    exact ⟨works, Option.some.inj hst ▸ h⟩

theorem Holds.work (h : Holds func s works) :
    ∃ works, Holds func (work func q s) works := by
  unfold Workqueue.work
  have hchain := h.chained q
  cases hw : works q with
  | nil =>
    rw [hw] at hchain
    have hnone : s.head q = none := hchain
    rw [hnone]
    exact ⟨works, h⟩
  | cons w l =>
    have hhead : s.head q = some w := (hw ▸ hchain).1
    have hran : func w := h.able q w (hw ▸ List.mem_cons_self)
    rw [hhead]
    dsimp only
    rw [if_pos hran]
    refine h.remove (count s.ran w) s.cancelled (show works q = [] ++ w :: l from hw) ?_
      fun x hx => ⟨update_of_ne hx _ _, rfl⟩
    rw [count, update_self]
    omega

theorem Holds.step {op : Op} (h : Holds func s works) (hok : Harmless s op) (hst : step func s op = some t) :
    ∃ works, Holds func t works := by
  cases op with
  | queue q w => exact Option.some.inj hst ▸ h.queueWork hok
  | delayed q w delay allocates =>
    rw [← Option.some.inj hst]
    unfold queueDelayedWork
    split_ifs with hzero
    · exact h.queueWork (hok hzero)
    · exact ⟨works, { h with }⟩
    · exact ⟨works, h⟩
  | cancel q w => exact h.cancelWork hok hst
  | tick due =>
    obtain rfl : due = [] := hok
    exact ⟨works, Option.some.inj hst ▸ h⟩
  | work q => exact Option.some.inj hst ▸ h.work

/-- In every run of harmless calls the queues stay whole and every work is run as often as it was queued. -/
theorem queues_hold (hs : Reach (step func) Harmless start s) : ∃ works, Holds func s works := by
  refine hs.invariant (I := fun s => ∃ works, Holds func s works) ⟨fun _ => [], ?_⟩
    fun _ _ _ ⟨_, h⟩ hok hst => h.step hok hst
  refine ⟨fun _ => rfl, fun _ => List.nodup_nil, fun _ => rfl, fun _ => rfl, nofun, fun _ => ?_, fun _ => rfl,
    ⟨fun _ => Nat.zero_le 1, rfl⟩, fun _ => Nat.le_refl 0, fun _ => Nat.two_pow_pos 32, nofun⟩
  exact iff_of_false Bool.false_ne_true fun ⟨_, hr⟩ => nomatch hr

/-- A work is queued and run. -/
theorem one_run : ∃ works, Holds (fun _ => true) (work (fun _ => true) 0 (queueWork (fun _ => true) 0 1 start)) works :=
  queues_hold (.step (.work 0) (.step (.queue 0 1) .start (show 0 + 1 < 2 ^ 32 by decide) rfl) trivial rfl)

/-- Queue 1 cancels a work of queue 0, and its count wraps. -/
theorem foreign_cancelled : ¬∀ s, Reach (step fun _ => true) (fun _ _ => True) start s →
    ∃ works, Holds (fun _ => true) s works := by
  intro hall
  obtain ⟨works, h⟩ := hall _ (.step (.cancel 1 1) (.step (.queue 0 1) .start trivial rfl) trivial rfl)
  have hempty : works 1 = [] := (h.chained 1).unique rfl
  have hcount := h.counted 1
  rw [hempty] at hcount
  revert hcount
  decide

end Workqueue
