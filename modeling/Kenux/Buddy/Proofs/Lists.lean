import Kenux.Buddy.Model

/-!
# What the list operations change

Each of `__list_add`, `__list_pop` and `__list_del` is described by the links, the data of the pages
and the zone it leaves.
-/

namespace Buddy

/-- The fields of a page other than its links. -/
def Page.data (p : Page) : ℕ × UInt32 × UInt32 × ℤ := (p.order, p.flags, p.refcount, p.zoneIdx)

def State.data (s : State) (p : ℕ) : ℕ × UInt32 × UInt32 × ℤ := (s.heap p).data

theorem order_of_data {p q : Page} (h : p.data = q.data) : p.order = q.order := congrArg (·.1) h

theorem flags_of_data {p q : Page} (h : p.data = q.data) : p.flags = q.flags :=
  congrArg (·.2.1) h

theorem used_of_data {p q : Page} (h : p.data = q.data) : p.used = q.used := by
  unfold Page.used
  rw [flags_of_data h]

theorem reserved_of_data {p q : Page} (h : p.data = q.data) : p.reserved = q.reserved := by
  unfold Page.reserved
  rw [flags_of_data h]

section

variable {s : State} {p q k : ℕ} {f : Page → Page}

@[simp] theorem modify_zone : (s.modify p f).zone = s.zone := rfl

theorem modify_heap : (s.modify p f).heap q = if q = p then f (s.heap p) else s.heap q := by
  unfold State.modify
  simp [Function.update_apply]

theorem modify_next : (s.modify p f).next q = if q = p then (f (s.heap p)).next else s.next q := by
  unfold State.next
  rw [modify_heap]
  split_ifs <;> rfl

theorem modify_prev : (s.modify p f).prev q = if q = p then (f (s.heap p)).prev else s.prev q := by
  unfold State.prev
  rw [modify_heap]
  split_ifs <;> rfl

theorem modify_data : (s.modify p f).data q = if q = p then (f (s.heap p)).data else s.data q := by
  unfold State.data
  rw [modify_heap]
  split_ifs <;> rfl

/-- A write to a link leaves the data alone. -/
theorem modify_links_data (hf : ∀ x, (f x).data = x.data) : (s.modify p f).data q = s.data q := by
  rw [modify_data]
  split_ifs with h
  · rw [hf, h]
    rfl
  · rfl

@[simp] theorem setPrev_zone {o v : Option ℕ} : (s.setPrev o v).zone = s.zone := by
  cases o <;> rfl

@[simp] theorem setNext_zone {o v : Option ℕ} : (s.setNext o v).zone = s.zone := by
  cases o <;> rfl

@[simp] theorem setPrev_data {o v : Option ℕ} : (s.setPrev o v).data q = s.data q := by
  unfold State.setPrev
  cases o with
  | none => rfl
  | some r => exact modify_links_data (by intro; rfl)

@[simp] theorem setNext_data {o v : Option ℕ} : (s.setNext o v).data q = s.data q := by
  unfold State.setNext
  cases o with
  | none => rfl
  | some r => exact modify_links_data (by intro; rfl)

@[simp] theorem setPrev_next {o v : Option ℕ} : (s.setPrev o v).next q = s.next q := by
  unfold State.setPrev
  cases o with
  | none => rfl
  | some r =>
    dsimp only
    rw [modify_next]
    split_ifs with h
    · rw [h]
      rfl
    · rfl

@[simp] theorem setNext_prev {o v : Option ℕ} : (s.setNext o v).prev q = s.prev q := by
  unfold State.setNext
  cases o with
  | none => rfl
  | some r =>
    dsimp only
    rw [modify_prev]
    split_ifs with h
    · rw [h]
      rfl
    · rfl

theorem setPrev_prev {o v : Option ℕ} :
    (s.setPrev o v).prev q = if o = some q then v else s.prev q := by
  unfold State.setPrev
  cases o with
  | none => simp
  | some r =>
    dsimp only
    rw [modify_prev]
    simp only [Option.some_inj, eq_comm (a := r)]

theorem setNext_next {o v : Option ℕ} :
    (s.setNext o v).next q = if o = some q then v else s.next q := by
  unfold State.setNext
  cases o with
  | none => simp
  | some r =>
    dsimp only
    rw [modify_next]
    simp only [Option.some_inj, eq_comm (a := r)]

@[simp] theorem setList_next {o : Option ℕ} {c : UInt64} : (s.setList k o c).next q = s.next q :=
  rfl

@[simp] theorem setList_prev {o : Option ℕ} {c : UInt64} : (s.setList k o c).prev q = s.prev q :=
  rfl

@[simp] theorem setList_data {o : Option ℕ} {c : UInt64} : (s.setList k o c).data q = s.data q :=
  rfl

/-! ## `__list_add` -/

theorem listAdd_zone : (listAdd s k p).zone =
    (s.setList k (some p) (s.zone.freeCount k + 1)).zone := by
  unfold listAdd State.setList
  simp only [modify_zone, setPrev_zone]

theorem listAdd_data : (listAdd s k p).data q = s.data q := by
  unfold listAdd
  simp only [setList_data, setPrev_data]
  exact modify_links_data (by intro; rfl)

theorem listAdd_next : (listAdd s k p).next q = if q = p then s.zone.freeList k else s.next q := by
  unfold listAdd
  simp only [setList_next, setPrev_next]
  exact modify_next

theorem listAdd_prev (h : s.zone.freeList k ≠ some p) : (listAdd s k p).prev q =
    if q = p then none else if s.zone.freeList k = some q then some p else s.prev q := by
  unfold listAdd
  simp only [setList_prev, setPrev_prev, modify_zone, modify_prev]
  split_ifs with h1 h2 h2
  · exact absurd (h2 ▸ h1) h
  · rfl
  · rfl
  · rfl

/-! ## `__list_pop` -/

section

variable {o : Option ℕ} {t : State} (h : s.zone.freeList k = some p)
include h

theorem listPop_fst : (listPop s k).1 = some p := by
  unfold listPop
  rw [h]

theorem listPop_zone : (listPop s k).2.zone =
    (s.setList k (s.next p) (s.zone.freeCount k - 1)).zone := by
  unfold listPop State.setList
  rw [h]
  simp only [modify_zone, setPrev_zone]

theorem listPop_data : (listPop s k).2.data q = s.data q := by
  unfold listPop
  rw [h]
  simp only [setList_data]
  rw [modify_links_data (by intro; rfl), setPrev_data]

theorem listPop_next : (listPop s k).2.next q = if q = p then none else s.next q := by
  unfold listPop
  rw [h]
  simp only [setList_next, modify_next, setPrev_next]

theorem listPop_prev : (listPop s k).2.prev q =
    if q = p then none else if s.next p = some q then none else s.prev q := by
  unfold listPop
  rw [h]
  simp only [setList_prev, modify_prev, setPrev_prev]

end

/-! ## `__list_del` -/

theorem listDel_zone : (listDel s p).zone = s.zone := by
  unfold listDel
  simp only [modify_zone, setPrev_zone, setNext_zone]

theorem listDel_data : (listDel s p).data q = s.data q := by
  unfold listDel
  dsimp only
  rw [modify_links_data (by intro; rfl), setPrev_data, setNext_data]

theorem listDel_next : (listDel s p).next q =
    if q = p then none else if s.prev p = some q then s.next p else s.next q := by
  unfold listDel
  simp only [modify_next, setPrev_next, setNext_next]

theorem listDel_prev (h : s.prev p ≠ some p) : (listDel s p).prev q =
    if q = p then none else if s.next p = some q then s.prev p else s.prev q := by
  unfold listDel
  simp only [modify_prev, setPrev_prev, setNext_next, setNext_prev, if_neg h]

end

end Buddy
