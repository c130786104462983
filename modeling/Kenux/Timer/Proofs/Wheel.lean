import Kenux.Lib.TailList
import Kenux.Timer.Model

/-!
# The operations of the wheel
-/

/-!
## The lists of the wheel
-/

namespace Timer

open DList TailList

variable {s s' : State} {B : ℕ → ℕ → List ℕ} {out : List ℕ} {t now e : ℕ}

/-- The list that a timer belongs to: on level 0 those of the next 255 ticks, on level 1 those that come to level 0
before they expire. -/
def Placed (now e l i : ℕ) : Prop :=
  (l = 0 ∧ e % 256 = i ∧ now < e ∧ e < now + 256) ∨
  (l = 1 ∧ e / 256 % 256 = i ∧ e % 256 ≠ 0 ∧ now / 256 < e / 256 ∧ e / 256 ≤ now / 256 + 256)

theorem placed_calcIndex (hlo : now < e) (hhi : e < now + 65536) (hcarry : now + 256 ≤ e → e % 256 ≠ 0) :
    Placed now e (calcIndex e now).1 (calcIndex e now).2 := by
  have hdelta : (e + 2 ^ 64 - now) % 2 ^ 64 = e - now := by omega
  unfold calcIndex
  simp only [hdelta, wheelBits, wheelSize]
  by_cases hnear : e - now < 2 ^ 8
  · rw [if_pos hnear]
    exact .inl ⟨rfl, by simp, hlo, by omega⟩
  · rw [if_neg hnear, if_pos (by omega)]
    exact .inr ⟨rfl, by simp, hcarry (by omega), by omega, by omega⟩

/-- The lists of the wheel are `B`; the timers of `out` are on none of them, and every other active timer is on
one. -/
structure Repr (s : State) (B : ℕ → ℕ → List ℕ) (out : List ℕ) : Prop where
  list : ∀ l i, IsTailList (fun t => (s.mem t).next) (fun t => (s.mem t).prev) (s.lists l i) (B l i)
  active : ∀ l i t, t ∈ B l i → (s.mem t).state = .active
  placed : ∀ l i t, t ∈ B l i → Placed s.jiffies (s.mem t).expires l i
  known : ∀ l i t, t ∈ B l i → t ∈ s.known
  one : ∀ l i l' i' t, t ∈ B l i → t ∈ B l' i' → l = l' ∧ i = i'
  apart : ∀ l i t, t ∈ B l i → t ∉ out
  linked : ∀ t, (s.mem t).state = .active → t ∉ out → ∃ l i, t ∈ B l i

/-- Nothing but links changes, except of timer `t`. -/
structure Others (t : ℕ) (s s' : State) : Prop where
  fields : ∀ y, y ≠ t → (s'.mem y).expires = (s.mem y).expires ∧ (s'.mem y).state = (s.mem y).state ∧
    (s'.mem y).oneshot = (s.mem y).oneshot
  expires : (s'.mem t).expires = (s.mem t).expires
  oneshot : (s'.mem t).oneshot = (s.mem t).oneshot
  jiffies : s'.jiffies = s.jiffies
  known : s'.known = s.known
  events : s'.events = s.events

/-- The lists with a timer put to the end of one. -/
def put (B : ℕ → ℕ → List ℕ) (l i t : ℕ) : ℕ → ℕ → List ℕ :=
  fun l' i' => if l' = l ∧ i' = i then B l i ++ [t] else B l' i'

theorem mem_put {l i l' i' y : ℕ} : y ∈ put B l i t l' i' ↔ y ∈ B l' i' ∨ (l' = l ∧ i' = i ∧ y = t) := by
  unfold put
  split_ifs with h
  · obtain ⟨rfl, rfl⟩ := h
    simp
  · rw [← and_assoc]
    exact ⟨.inl, fun hy => hy.elim id fun hy => absurd hy.1 h⟩

@[simp] theorem setTimer_mem (s : State) (t y : ℕ) (x : TimerEntry) :
    (s.setTimer t x).mem y = if y = t then x else s.mem y := Function.update_apply ..

section Setters

variable (s : State) (t y l i : ℕ) (o : Option ℕ) (x : TimerState)

@[simp] theorem setNext_next : ((s.setNext t o).mem y).next = if y = t then o else (s.mem y).next := by
  rw [State.setNext, setTimer_mem]
  split_ifs <;> rfl

@[simp] theorem setNext_other : ((s.setNext t o).mem y).prev = (s.mem y).prev ∧
    ((s.setNext t o).mem y).expires = (s.mem y).expires ∧ ((s.setNext t o).mem y).state = (s.mem y).state ∧
    ((s.setNext t o).mem y).oneshot = (s.mem y).oneshot := by
  rw [State.setNext, setTimer_mem]
  split_ifs with h
  · subst h
    exact ⟨rfl, rfl, rfl, rfl⟩
  · exact ⟨rfl, rfl, rfl, rfl⟩

@[simp] theorem setPrev_prev : ((s.setPrev t o).mem y).prev = if y = t then o else (s.mem y).prev := by
  rw [State.setPrev, setTimer_mem]
  split_ifs <;> rfl

@[simp] theorem setPrev_other : ((s.setPrev t o).mem y).next = (s.mem y).next ∧
    ((s.setPrev t o).mem y).expires = (s.mem y).expires ∧ ((s.setPrev t o).mem y).state = (s.mem y).state ∧
    ((s.setPrev t o).mem y).oneshot = (s.mem y).oneshot := by
  rw [State.setPrev, setTimer_mem]
  split_ifs with h
  · subst h
    exact ⟨rfl, rfl, rfl, rfl⟩
  · exact ⟨rfl, rfl, rfl, rfl⟩

@[simp] theorem setState_state : ((s.setState t x).mem y).state = if y = t then x else (s.mem y).state := by
  rw [State.setState, setTimer_mem]
  split_ifs <;> rfl

@[simp] theorem setState_other : ((s.setState t x).mem y).next = (s.mem y).next ∧
    ((s.setState t x).mem y).prev = (s.mem y).prev ∧ ((s.setState t x).mem y).expires = (s.mem y).expires ∧
    ((s.setState t x).mem y).oneshot = (s.mem y).oneshot := by
  rw [State.setState, setTimer_mem]
  split_ifs with h
  · subst h
    exact ⟨rfl, rfl, rfl, rfl⟩
  · exact ⟨rfl, rfl, rfl, rfl⟩

@[simp] theorem setList_mem : (s.setList l i o).mem = s.mem := rfl

@[simp] theorem setters_lists : (s.setNext t o).lists = s.lists ∧ (s.setPrev t o).lists = s.lists ∧
    (s.setState t x).lists = s.lists := ⟨rfl, rfl, rfl⟩

@[simp] theorem setters_jiffies : (s.setNext t o).jiffies = s.jiffies ∧ (s.setPrev t o).jiffies = s.jiffies ∧
    (s.setState t x).jiffies = s.jiffies ∧ (s.setList l i o).jiffies = s.jiffies := ⟨rfl, rfl, rfl, rfl⟩

end Setters

theorem Repr.fresh {l i : ℕ} (h : Repr s B (t :: out)) : t ∉ B l i := fun ht => h.apart l i t ht List.mem_cons_self

/-- What an enqueue into one list comes to, however its links were written. -/
theorem Repr.put {l i : ℕ} (h : Repr s B (t :: out)) (hout : t ∉ out) (ho : Others t s s')
    (hplaced : Placed s.jiffies (s.mem t).expires l i) (hknown : t ∈ s.known)
    (hactive : (s'.mem t).state = .active)
    (hlist : IsTailList (fun t => (s'.mem t).next) (fun t => (s'.mem t).prev) (s'.lists l i) (B l i ++ [t]))
    (hlists : ∀ l' i', ¬ (l' = l ∧ i' = i) → s'.lists l' i' = s.lists l' i')
    (hlinks : ∀ y, y ≠ t → y ∉ B l i → (s'.mem y).next = (s.mem y).next ∧ (s'.mem y).prev = (s.mem y).prev) :
    Repr s' (put B l i t) out := by
  have hne {l' i' y : ℕ} (hy : y ∈ B l' i') : y ≠ t := fun heq => h.fresh (heq ▸ hy)
  refine ⟨fun l' i' => ?_, fun l' i' y hy => ?_, fun l' i' y hy => ?_, fun l' i' y hy => ?_,
    fun l₁ i₁ l₂ i₂ y h₁ h₂ => ?_, fun l' i' y hy => ?_, fun y hy hyout => ?_⟩
  · by_cases hli : l' = l ∧ i' = i
    · obtain ⟨rfl, rfl⟩ := hli
      rw [Timer.put, if_pos ⟨rfl, rfl⟩]
      exact hlist
    · rw [Timer.put, if_neg hli, hlists l' i' hli]
      have hother {y : ℕ} (hy : y ∈ B l' i') : y ∉ B l i := fun hy' => hli (h.one l' i' l i y hy hy')
      exact (h.list l' i').congr (fun y hy => (hlinks y (hne hy) (hother hy)).1)
        fun y hy => (hlinks y (hne hy) (hother hy)).2
  · rcases mem_put.mp hy with hy | ⟨-, -, rfl⟩
    · rw [(ho.fields y (hne hy)).2.1]
      exact h.active l' i' y hy
    · exact hactive
  · rw [ho.jiffies]
    rcases mem_put.mp hy with hy | ⟨rfl, rfl, rfl⟩
    · rw [(ho.fields y (hne hy)).1]
      exact h.placed l' i' y hy
    · rw [ho.expires]
      exact hplaced
  · rw [ho.known]
    rcases mem_put.mp hy with hy | ⟨-, -, rfl⟩
    · exact h.known l' i' y hy
    · exact hknown
  · rcases mem_put.mp h₁ with hy₁ | ⟨hl₁, hi₁, hyt⟩
    · rcases mem_put.mp h₂ with hy₂ | ⟨-, -, hyt⟩
      · exact h.one l₁ i₁ l₂ i₂ y hy₁ hy₂
      · exact absurd hyt (hne hy₁)
    · rcases mem_put.mp h₂ with hy₂ | ⟨hl₂, hi₂, -⟩
      · exact absurd hyt (hne hy₂)
      · exact ⟨hl₁.trans hl₂.symm, hi₁.trans hi₂.symm⟩
  · rcases mem_put.mp hy with hy | ⟨-, -, rfl⟩
    · exact fun hyout => h.apart l' i' y hy (List.mem_cons_of_mem t hyout)
    · exact hout
  · by_cases hyt : y = t
    · exact ⟨l, i, mem_put.mpr (.inr ⟨rfl, rfl, hyt⟩)⟩
    · rw [(ho.fields y hyt).2.1] at hy
      obtain ⟨l', i', hmem⟩ := h.linked y hy (by simp [hyt, hyout])
      exact ⟨l', i', mem_put.mpr (.inl hmem)⟩

/-- A timer that belongs to the list of its index is put to the end of it. -/
theorem enqueue_spec (h : Repr s B (t :: out)) (hout : t ∉ out) (hknown : t ∈ s.known)
    (hplaced : Placed s.jiffies (s.mem t).expires (calcIndex (s.mem t).expires s.jiffies).1
      (calcIndex (s.mem t).expires s.jiffies).2) :
    ∃ s', enqueue t s = some s' ∧ Others t s s' ∧ (s'.mem t).state = .active ∧
      Repr s' (put B (calcIndex (s.mem t).expires s.jiffies).1 (calcIndex (s.mem t).expires s.jiffies).2 t) out ∧
      ∀ y ∈ out, (s'.mem y).next = (s.mem y).next := by
  unfold enqueue
  dsimp only
  generalize hl : (calcIndex (s.mem t).expires s.jiffies).1 = l at hplaced ⊢
  generalize hi : (calcIndex (s.mem t).expires s.jiffies).2 = i at hplaced ⊢
  have hlist := h.list l i
  cases hhead : s.lists l i with
  | none =>
    rw [hhead] at hlist
    have hnil : B l i = [] := by
      have := hlist.head_eq
      cases hB : B l i with
      | nil => rfl
      | cons y ys => simp [hB] at this
    have ho : Others t s (((((s.setNext t none).setPrev t none).setList l i (some t)).setPrev t (some t)).setState t
        .active) :=
      ⟨fun y hy => by simp [hy], by simp, by simp, rfl, rfl, rfl⟩
    refine ⟨_, rfl, ho, by simp, h.put hout ho hplaced hknown (by simp) ?_ (fun l' i' hli => ?_) (fun y hy _ => ?_),
      fun y hy => ?_⟩
    · have hset : (((((s.setNext t none).setPrev t none).setList l i (some t)).setPrev t (some t)).setState t
          .active).lists l i = some t := if_pos ⟨rfl, rfl⟩
      rw [hnil, hset]
      exact .singleton (by simp) (by simp)
    · exact if_neg hli
    · simp [hy]
    · have hyt : y ≠ t := fun heq => hout (heq ▸ hy)
      simp [hyt]
  | some b =>
    rw [hhead] at hlist
    have hb : b ∈ B l i := List.mem_of_mem_head? hlist.head_eq.symm
    obtain ⟨last, hlast⟩ : ∃ last, (B l i).getLast? = some last :=
      Option.ne_none_iff_exists'.mp fun hnone => List.ne_nil_of_mem hb (List.getLast?_eq_none_iff.mp hnone)
    have hprev : (s.mem b).prev = some last := hlist.prev_head.trans hlast
    have hne {y : ℕ} (hy : y ∈ B l i) : y ≠ t := fun heq => h.fresh (heq ▸ hy)
    have hlt : last ≠ t := hne (List.mem_of_getLast? hlast)
    have hbt : b ≠ t := hne hb
    have hothers {y : ℕ} (hy : y ∉ B l i) : y ≠ last ∧ y ≠ b :=
      ⟨fun heq => hy (heq ▸ List.mem_of_getLast? hlast), fun heq => hy (heq ▸ hb)⟩
    dsimp only
    rw [hprev]
    dsimp only
    have ho : Others t s (((((s.setNext t none).setPrev t (some last)).setNext last (some t)).setPrev b
        (some t)).setState t .active) :=
      ⟨fun y hy => by simp [hy], by simp, by simp, rfl, rfl, rfl⟩
    refine ⟨_, rfl, ho, by simp, h.put hout ho hplaced hknown (by simp) ?_ (fun _ _ _ => rfl) (fun y hy hyB => ?_),
      fun y hy => ?_⟩
    · have hset : (((((s.setNext t none).setPrev t (some last)).setNext last (some t)).setPrev b (some t)).setState t
          .active).lists l i = some b := hhead
      rw [hset]
      refine hlist.append h.fresh ?_ ?_ (fun z hz => ?_) fun z hz => ?_
      · simp [Ne.symm hlt]
      · simp [Ne.symm hbt, hlast]
      · simp [hne hz, hlast, eq_comm]
      · simp [hne hz]
    · obtain ⟨hyl, hyb⟩ := hothers hyB
      simp [hy, hyl, hyb]
    · have hyt : y ≠ t := fun heq => hout (heq ▸ hy)
      obtain ⟨hyl, -⟩ := hothers fun hyB => h.apart l i y hyB (List.mem_cons_of_mem t hy)
      simp [hyt, hyl]

end Timer

namespace Timer

open DList TailList

variable {s s' : State} {B : ℕ → ℕ → List ℕ} {out : List ℕ} {t : ℕ} {fuel : ℕ} {cur : Option ℕ}

/-- Timers on no list may change as they like. -/
theorem Repr.of_out (h : Repr s B out) (hmem : ∀ y, y ∉ out → s'.mem y = s.mem y) (hlists : s'.lists = s.lists)
    (hjiffies : s'.jiffies = s.jiffies) (hknown : ∀ y ∈ s.known, y ∈ s'.known) : Repr s' B out := by
  have hB {l i y : ℕ} (hy : y ∈ B l i) : s'.mem y = s.mem y := hmem y (h.apart l i y hy)
  refine ⟨fun l i => ?_, fun l i y hy => ?_, fun l i y hy => ?_, fun l i y hy => ?_, h.one, h.apart, fun y hy hyout => ?_⟩
  · rw [hlists]
    exact (h.list l i).congr (fun y hy => by rw [hB hy]) fun y hy => by rw [hB hy]
  · rw [hB hy]
    exact h.active l i y hy
  · rw [hB hy, hjiffies]
    exact h.placed l i y hy
  · exact hknown y (h.known l i y hy)
  · rw [hmem y hyout] at hy
    exact h.linked y hy hyout

/-- A timer that is not active may be thought of as on no list, or not be thought of. -/
theorem Repr.take (h : Repr s B out) (ht : (s.mem t).state ≠ .active) : Repr s B (t :: out) := by
  refine ⟨h.list, h.active, h.placed, h.known, h.one, fun l i y hy hyout => ?_, fun y hy hyout => ?_⟩
  · rcases List.mem_cons.mp hyout with rfl | hyout
    · exact ht (h.active l i y hy)
    · exact h.apart l i y hy hyout
  · exact h.linked y hy fun hmem => hyout (List.mem_cons_of_mem t hmem)

theorem Repr.forget (h : Repr s B (t :: out)) (ht : (s.mem t).state ≠ .active) : Repr s B out := by
  refine ⟨h.list, h.active, h.placed, h.known, h.one, fun l i y hy hyout => ?_, fun y hy hyout => ?_⟩
  · exact h.apart l i y hy (List.mem_cons_of_mem t hyout)
  · refine h.linked y hy fun hmem => ?_
    rcases List.mem_cons.mp hmem with rfl | hmem
    · exact ht hy
    · exact hyout hmem

/-! ## Taking a timer from its list -/

/-- A timer can be unlinked that has another one behind it and is not the first of a list. -/
def Inside (s : State) (t : ℕ) : Prop := (s.mem t).next ≠ none ∧ ∀ l i, s.lists l i ≠ some t

/-- The lists without a timer. -/
def without (B : ℕ → ℕ → List ℕ) (t : ℕ) : ℕ → ℕ → List ℕ := fun l i => (B l i).filter (· ≠ t)

theorem mem_without {l i y : ℕ} : y ∈ without B t l i ↔ y ∈ B l i ∧ y ≠ t := by
  simp [without]

theorem filter_split {l₁ l₂ : List ℕ} (h : (l₁ ++ t :: l₂).Nodup) :
    (l₁ ++ t :: l₂).filter (· ≠ t) = l₁ ++ l₂ := by
  obtain ⟨-, h₂, h₁⟩ := List.nodup_append.mp h
  have hfirst : l₁.filter (· ≠ t) = l₁ := by
    refine List.filter_eq_self.mpr fun y hy => ?_
    have hne : y ≠ t := h₁ y hy t List.mem_cons_self
    simpa using hne
  have hrest : l₂.filter (· ≠ t) = l₂ := by
    refine List.filter_eq_self.mpr fun y hy => ?_
    have hne : y ≠ t := fun heq => (List.nodup_cons.mp h₂).1 (heq ▸ hy)
    simpa using hne
  rw [List.filter_append, hfirst, List.filter_cons_of_neg (by simp), hrest]

/-- A timer inside its list is unlinked, and nothing else changes but links. -/
theorem dequeue_spec (h : Repr s B []) (ht : (s.mem t).state = .active) (hin : Inside s t) :
    ∃ s', dequeue t s = some s' ∧ Others t s s' ∧ (s'.mem t).state = .inactive ∧ Repr s' (without B t) [t] := by
  obtain ⟨hnext, hfirst⟩ := hin
  obtain ⟨l, i, hmem⟩ := h.linked t ht List.not_mem_nil
  obtain ⟨l₁, l₂, hB⟩ := List.append_of_mem hmem
  have hlist := h.list l i
  rw [hB] at hlist
  obtain ⟨hn, hp⟩ := hlist.linked.neighbours
  have hl₁ : l₁ ≠ [] := by
    rintro rfl
    exact hfirst l i hlist.head_eq
  have hl₂ : l₂ ≠ [] := by
    rintro rfl
    exact hnext hn
  obtain ⟨n, hl₂n⟩ : ∃ n, l₂.head? = some n :=
    Option.ne_none_iff_exists'.mp fun hnone => hl₂ (List.head?_eq_none_iff.mp hnone)
  obtain ⟨p, hl₁p⟩ : ∃ p, l₁.getLast? = some p :=
    Option.ne_none_iff_exists'.mp fun hnone => hl₁ (List.getLast?_eq_none_iff.mp hnone)
  rw [hl₂n] at hn
  rw [hl₁p, Option.some_or] at hp
  have hpl : p ∈ l₁ := List.mem_of_getLast? hl₁p
  have hnl : n ∈ l₂ := List.mem_of_mem_head? hl₂n
  obtain ⟨-, hnd₂, hnd⟩ := List.nodup_append.mp hlist.nodup
  have hnt : n ≠ t := fun heq => (List.nodup_cons.mp hnd₂).1 (heq ▸ hnl)
  have hmid {y : ℕ} (hy : y ∈ l₁ ++ l₂) : y ∈ B l i ∧ y ≠ t := by
    rcases List.mem_append.mp hy with hy | hy
    · exact ⟨hB ▸ List.mem_append_left _ hy, hnd y hy t List.mem_cons_self⟩
    · exact ⟨hB ▸ List.mem_append_right _ (List.mem_cons_of_mem t hy),
        fun heq => (List.nodup_cons.mp hnd₂).1 (heq ▸ hy)⟩
  unfold dequeue
  simp only [hn, hp, if_neg hnt]
  refine ⟨_, rfl, ⟨fun y hy => by simp [hy], by simp, by simp, rfl, rfl, rfl⟩, by simp, fun l' i' => ?_,
    fun l' i' y hy => ?_, fun l' i' y hy => ?_, fun l' i' y hy => ?_, fun l₃ i₃ l₄ i₄ y h₃ h₄ => ?_,
    fun l' i' y hy => ?_, fun y hy hyout => ?_⟩
  · by_cases hli : l' = l ∧ i' = i
    · obtain ⟨rfl, rfl⟩ := hli
      rw [without, hB, filter_split hlist.nodup]
      refine hlist.unlink hl₁ hl₂ (fun z hz => ?_) fun z hz => ?_
      · simp [(hmid hz).2, hp, hn, eq_comm]
      · simp [(hmid hz).2, hp, hn, eq_comm]
    · have hother {y : ℕ} (hy : y ∈ B l' i') : y ∉ B l i := fun hy' => hli (h.one l' i' l i y hy hy')
      have hself : without B t l' i' = B l' i' := by
        refine List.filter_eq_self.mpr fun y hy => ?_
        have hne : y ≠ t := fun heq => hother hy (heq ▸ hmem)
        simpa using hne
      rw [hself]
      refine (h.list l' i').congr (fun y hy => ?_) fun y hy => ?_
      · have hyt : y ≠ t := fun heq => hother hy (heq ▸ hmem)
        have hyp : y ≠ p := fun heq => hother hy (heq ▸ (hmid (List.mem_append_left _ hpl)).1)
        simp [hyt, hyp]
      · have hyt : y ≠ t := fun heq => hother hy (heq ▸ hmem)
        have hyn : y ≠ n := fun heq => hother hy (heq ▸ (hmid (List.mem_append_right _ hnl)).1)
        simp [hyt, hyn]
  · obtain ⟨hy, hyt⟩ := mem_without.mp hy
    simpa [hyt] using h.active l' i' y hy
  · obtain ⟨hy, hyt⟩ := mem_without.mp hy
    have hplaced := h.placed l' i' y hy
    simp only [setState_other, setPrev_other, setNext_other]
    exact hplaced
  · exact h.known l' i' y (mem_without.mp hy).1
  · exact h.one l₃ i₃ l₄ i₄ y (mem_without.mp h₃).1 (mem_without.mp h₄).1
  · rw [List.mem_singleton]
    exact (mem_without.mp hy).2
  · have hyt : y ≠ t := fun heq => hyout (List.mem_singleton.mpr heq)
    obtain ⟨l', i', hy'⟩ := h.linked y (by simpa [hyt] using hy) List.not_mem_nil
    exact ⟨l', i', mem_without.mpr ⟨hy', hyt⟩⟩

/-! ## Moving a list down -/

/-- Nothing changes but links. -/
structure Same (s s' : State) : Prop where
  fields : ∀ y, (s'.mem y).expires = (s.mem y).expires ∧ (s'.mem y).state = (s.mem y).state ∧
    (s'.mem y).oneshot = (s.mem y).oneshot
  jiffies : s'.jiffies = s.jiffies
  known : s'.known = s.known
  events : s'.events = s.events

theorem Same.trans {s₁ s₂ s₃ : State} (h₁ : Same s₁ s₂) (h₂ : Same s₂ s₃) : Same s₁ s₃ := by
  refine ⟨fun y => ?_, h₂.jiffies.trans h₁.jiffies, h₂.known.trans h₁.known, h₂.events.trans h₁.events⟩
  obtain ⟨he, hs, ho⟩ := h₁.fields y
  obtain ⟨he', hs', ho'⟩ := h₂.fields y
  exact ⟨he'.trans he, hs'.trans hs, ho'.trans ho⟩

/-- The links of a timer that is about to be enqueued. -/
def State.unlinked (s : State) (t : ℕ) : State := (s.setNext t none).setPrev t none

theorem unlinked_other {y : ℕ} (h : y ≠ t) : (s.unlinked t).mem y = s.mem y := by
  unfold State.unlinked State.setPrev State.setNext
  rw [setTimer_mem, if_neg h, setTimer_mem, if_neg h]

theorem same_unlinked : Same s (s.unlinked t) :=
  ⟨fun y => by simp [State.unlinked], rfl, rfl, rfl⟩

theorem cascadeLoop_spec (h : Repr s B out) (hchain : SList.Chained (fun t => (s.mem t).next) cur out)
    (hfuel : out.length ≤ fuel) (hnodup : out.Nodup) (hknown : ∀ t ∈ out, t ∈ s.known)
    (hactive : ∀ t ∈ out, (s.mem t).state = .active)
    (hplaced : ∀ t ∈ out, Placed s.jiffies (s.mem t).expires (calcIndex (s.mem t).expires s.jiffies).1
      (calcIndex (s.mem t).expires s.jiffies).2) :
    ∃ s' B', cascadeLoop fuel cur s = some s' ∧ Same s s' ∧ Repr s' B' [] := by
  induction out generalizing s B cur fuel with
  | nil =>
    obtain rfl : cur = none := hchain
    refine ⟨s, B, ?_, ⟨fun y => ⟨rfl, rfl, rfl⟩, rfl, rfl, rfl⟩, h⟩
    unfold cascadeLoop
    rfl
  | cons t out ih =>
    obtain ⟨rfl, hrest⟩ := hchain
    obtain ⟨ht, hnodup⟩ := List.nodup_cons.mp hnodup
    rw [List.length_cons] at hfuel
    obtain ⟨fuel, rfl⟩ := Nat.exists_eq_succ_of_ne_zero (show fuel ≠ 0 by omega)
    have hlength : out.length ≤ fuel := by omega
    have hne {y : ℕ} (hy : y ∈ out) : y ≠ t := fun heq => ht (heq ▸ hy)
    have hun : Repr (s.unlinked t) B (t :: out) :=
      h.of_out (fun y hy => unlinked_other fun heq => hy (heq ▸ List.mem_cons_self)) rfl rfl fun y hy => hy
    have hself := (same_unlinked (s := s) (t := t)).fields t
    obtain ⟨s₁, hs₁, ho, hact, hrepr, hnext⟩ := enqueue_spec hun ht (hknown t List.mem_cons_self) (by
      rw [hself.1]
      exact hplaced t List.mem_cons_self)
    have hsame : Same s s₁ := by
      refine ⟨fun y => ?_, ho.jiffies, ho.known, ho.events⟩
      by_cases hy : y = t
      · subst hy
        exact ⟨ho.expires.trans hself.1, hact.trans (hactive y List.mem_cons_self).symm, ho.oneshot.trans hself.2.2⟩
      · have hfields := ho.fields y hy
        rw [unlinked_other hy] at hfields
        exact hfields
    obtain ⟨s', B', hs', hsame', hrepr'⟩ := ih hrepr
      (hrest.congr fun y hy => (hnext y hy).trans (by rw [unlinked_other (hne hy)])) hlength hnodup
      (fun y hy => hsame.known ▸ hknown y (List.mem_cons_of_mem t hy))
      (fun y hy => (hsame.fields y).2.1.trans (hactive y (List.mem_cons_of_mem t hy)))
      fun y hy => by
        rw [hsame.jiffies, (hsame.fields y).1]
        exact hplaced y (List.mem_cons_of_mem t hy)
    refine ⟨s', B', ?_, hsame.trans hsame', hrepr'⟩
    unfold cascadeLoop
    unfold State.unlinked at hs₁
    dsimp only
    rw [hs₁]
    exact hs'

/-! ## A tick -/

/-- The callbacks run of exactly the timers of the list, and no other timer changes. -/
theorem expireLoop_spec (hchain : SList.Chained (fun t => (s.mem t).next) cur out) (hfuel : out.length ≤ fuel)
    (hnodup : out.Nodup) (honeshot : ∀ t ∈ out, (s.mem t).oneshot = true) :
    ∃ s', expireLoop fuel cur s = some (out, s') ∧ (∀ y, y ∉ out → s'.mem y = s.mem y) ∧
      (∀ y ∈ out, (s'.mem y).state = .expired) ∧ s'.lists = s.lists ∧ s'.jiffies = s.jiffies ∧
      s'.known = s.known ∧ s'.events = s.events := by
  induction out generalizing s cur fuel with
  | nil =>
    obtain rfl : cur = none := hchain
    refine ⟨s, ?_, fun y _ => rfl, fun y hy => absurd hy List.not_mem_nil, rfl, rfl, rfl, rfl⟩
    unfold expireLoop
    rfl
  | cons t out ih =>
    obtain ⟨rfl, hrest⟩ := hchain
    obtain ⟨ht, hnodup⟩ := List.nodup_cons.mp hnodup
    rw [List.length_cons] at hfuel
    obtain ⟨fuel, rfl⟩ := Nat.exists_eq_succ_of_ne_zero (show fuel ≠ 0 by omega)
    have hlength : out.length ≤ fuel := by omega
    have hne {y : ℕ} (hy : y ∈ out) : y ≠ t := fun heq => ht (heq ▸ hy)
    obtain ⟨s₁, hs₁⟩ : ∃ s₁, s₁ = ((s.setNext t none).setPrev t none).setState t .expired := ⟨_, rfl⟩
    have hother {y : ℕ} (hy : y ≠ t) : s₁.mem y = s.mem y := by
      rw [hs₁]
      unfold State.setState
      rw [setTimer_mem, if_neg hy]
      exact unlinked_other hy
    have hone : (s₁.mem t).oneshot = true := by
      rw [hs₁]
      simpa using honeshot t List.mem_cons_self
    obtain ⟨s', hs', hmem, hstate, hlists, hjiffies, hknown, hevents⟩ := ih (s := s₁)
      (hrest.congr fun y hy => by rw [hother (hne hy)]) hlength hnodup fun y hy => by rw [hother (hne hy)]; exact honeshot y (List.mem_cons_of_mem t hy)
    refine ⟨s', ?_, fun y hy => ?_, fun y hy => ?_, hlists.trans (by rw [hs₁]; rfl), hjiffies.trans (by rw [hs₁]; rfl),
      hknown.trans (by rw [hs₁]; rfl), hevents.trans (by rw [hs₁]; rfl)⟩
    · unfold expireLoop
      dsimp only
      rw [← hs₁, if_pos hone, Option.bind_some, hs']
      rfl
    · obtain ⟨hyt, hy⟩ := List.ne_and_not_mem_of_not_mem_cons hy
      rw [hmem y hy, hother hyt]
    · rcases List.mem_cons.mp hy with rfl | hy
      · rw [hmem y ht, hs₁]
        simp
      · exact hstate y hy

end Timer
