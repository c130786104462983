import Kenux.Netfilter.Proofs.Lists

/-!
# Runs of calls on hook lists
-/

namespace Netfilter

open SList Ordered
open Function (update_self update_of_ne)

variable {ν : Type} [DecidableEq ν] {obj : ν → HookOps} {fuel i : ℕ} {h h' : Hooks ν} {L L' : ℕ → List ν} {reg : ν}
  {regs done : List ν} {t t' : Traced ν}

section Marks

variable (obj) in
/-- The lists hold what is registered, by priority and time. -/
structure Marks (t : Traced ν) (L : ℕ → List ν) : Prop where
  holds : ∀ i < nfInetNumhooks, ∀ x, x ∈ L i ↔ listOf obj x = some i ∧ (t.registered x).isSome
  sorted : ∀ i < nfInetNumhooks, (L i).Pairwise fun x y =>
    (obj x).priority < (obj y).priority ∨ (obj x).priority = (obj y).priority ∧
      ∀ n ∈ t.registered x, ∀ m ∈ t.registered y, n < m
  past : ∀ x, ∀ n ∈ t.registered x, n < t.time

omit [DecidableEq ν] in
theorem Marks.withHooks (hm : Marks obj t L) (hooks : Hooks ν) : Marks obj { t with hooks := hooks } L :=
  ⟨hm.holds, hm.sorted, hm.past⟩

/-- An object that is registered goes behind those of its priority. -/
theorem Marks.mark (hm : Marks obj t L) (hi : listOf obj reg = some i) (hnot : reg ∉ L i) :
    Marks obj (t.mark reg) (insertIn obj L i reg) := by
  have hin := listOf_lt hi
  have hself : (t.mark reg).registered reg = some t.time := update_self _ _ _
  have hother : ∀ x ≠ reg, (t.mark reg).registered x = t.registered x := fun x hx => update_of_ne hx _ _
  have hsame : ∀ j < nfInetNumhooks, ∀ x ∈ L j, (t.mark reg).registered x = t.registered x := by
    intro j hj x hx
    refine hother x ?_
    rintro rfl
    obtain rfl := Option.some.inj (hi.symm.trans ((hm.holds j hj x).mp hx).1)
    exact hnot hx
  have hsorted : ∀ j < nfInetNumhooks, (L j).Pairwise fun x y =>
      (obj x).priority < (obj y).priority ∨ (obj x).priority = (obj y).priority ∧
        ∀ n ∈ (t.mark reg).registered x, ∀ m ∈ (t.mark reg).registered y, n < m := by
    intro j hj
    refine (hm.sorted j hj).imp_of_mem fun {x y} hx hy hxy => ?_
    rw [hsame j hj x hx, hsame j hj y hy]
    exact hxy
  refine ⟨fun j hj x => ?_, fun j hj => ?_, fun x n hn => ?_⟩
  · unfold insertIn
    by_cases hji : j = i
    · subst hji
      rw [update_self, List.mem_orderedInsert]
      by_cases hx : x = reg
      · subst hx
        simp [hi, hself]
      · rw [hother x hx, ← hm.holds j hj x]
        simp [hx]
    · rw [update_of_ne hji]
      by_cases hx : x = reg
      · subst hx
        refine iff_of_false (fun hmem => ?_) fun hyes => ?_
        · exact hji (Option.some.inj (((hm.holds j hj x).mp hmem).1.symm.trans hi))
        · exact hji (Option.some.inj (hyes.1.symm.trans hi))
      · rw [hother x hx]
        exact hm.holds j hj x
  · unfold insertIn
    by_cases hji : j = i
    · subst hji
      rw [update_self]
      refine pairwise_orderedInsert (hsorted j hj) (fun y _ hlt => .inl hlt) (fun y hy hge => ?_) ?_
      · rcases Int.lt_or_eq_of_le (Int.not_lt.mp hge) with hlt | heq
        · exact .inl hlt
        · refine .inr ⟨heq, fun n hn m hm' => ?_⟩
          rw [hsame j hj y hy] at hn
          rw [hself] at hm'
          obtain rfl := Option.some.inj hm'
          exact hm.past y n hn
      · intro y _ z _ hyz hlt
        unfold Sooner at hlt
        rcases hyz with hyz | ⟨hyz, -⟩
        · exact .inl (Int.lt_trans hlt hyz)
        · exact .inl (hyz ▸ hlt)
    · rw [update_of_ne hji]
      exact hsorted j hj
  · show n < t.time + 1
    by_cases hx : x = reg
    · rw [hx, hself] at hn
      obtain rfl := Option.some.inj hn
      omega
    · rw [hother x hx] at hn
      exact Nat.lt_succ_of_lt (hm.past x n hn)

/-- What is unregistered is taken out of the lists. -/
theorem Marks.drop (hm : Marks obj t L) (hsub : ∀ i < nfInetNumhooks, (L' i).Sublist (L i))
    (hmem : ∀ i < nfInetNumhooks, ∀ x, x ∈ L' i ↔ x ∈ L i ∧ x ∉ regs) (hooks : Hooks ν) :
    Marks obj (t.drop hooks regs) L' := by
  have hold : ∀ x, ∀ n ∈ (t.drop hooks regs).registered x, n ∈ t.registered x := by
    intro x n hn
    unfold Traced.drop at hn
    dsimp only at hn
    split_ifs at hn
    · cases hn
    · exact hn
  refine ⟨fun i hi x => ?_, fun i hi => ?_, fun x n hn => hm.past x n (hold x n hn)⟩
  · rw [hmem i hi x, hm.holds i hi x]
    unfold Traced.drop
    dsimp only
    split_ifs with hx
    · simp [hx]
    · simp [hx]
  · refine ((hm.sorted i hi).sublist (hsub i hi)).imp fun {x y} hxy => ?_
    rcases hxy with hlt | ⟨heq, hage⟩
    · exact .inl hlt
    · exact .inr ⟨heq, fun n hn m hm' => hage n (hold x n hn) m (hold y m hm')⟩

end Marks

section Calls

variable (obj) in
def eraseAll (L : ℕ → List ν) (regs : List ν) : ℕ → List ν := regs.foldl (eraseIn obj) L

theorem Repr.mem_eraseIn (hr : Repr obj h L) (hi : i < nfInetNumhooks) (x : ν) :
    x ∈ eraseIn obj L reg i ↔ x ∈ L i ∧ x ≠ reg := by
  have hnot : listOf obj reg ≠ some i → (x ∈ L i ↔ x ∈ L i ∧ x ≠ reg) := by
    intro hreg
    refine ⟨fun hx => ⟨hx, ?_⟩, fun hx => hx.1⟩
    rintro rfl
    exact hreg (hr.own i hi x hx)
  unfold eraseIn
  cases hreg : listOf obj reg with
  | none =>
    refine hnot fun heq => ?_
    cases hreg.symm.trans heq
  | some j =>
    dsimp only
    by_cases hji : i = j
    · subst hji
      rw [update_self, (hr.nodup i hi).mem_erase_iff]
      exact and_comm
    · rw [update_of_ne hji]
      exact hnot (hreg ▸ fun heq => hji (Option.some.inj heq).symm)

theorem sublist_eraseIn (L : ℕ → List ν) (reg : ν) (i : ℕ) : (eraseIn obj L reg i).Sublist (L i) := by
  unfold eraseIn
  cases listOf obj reg with
  | none => exact List.Sublist.refl _
  | some j =>
    dsimp only
    by_cases hji : i = j
    · rw [hji, update_self]
      exact List.erase_sublist
    · rw [update_of_ne hji]

variable (hfuel : nfMaxHooksPerHook ≤ fuel)

include hfuel

theorem unregisterAll_spec (hr : Repr obj h L) (regs : List ν) :
    ∃ h', nfUnregisterNetHooks obj fuel h regs = some h' ∧ Repr obj h' (eraseAll obj L regs) ∧
      ∀ i < nfInetNumhooks, (eraseAll obj L regs i).Sublist (L i) ∧
        ∀ x, x ∈ eraseAll obj L regs i ↔ x ∈ L i ∧ x ∉ regs := by
  induction regs generalizing h L with
  | nil => exact ⟨h, rfl, hr, fun i _ => ⟨List.Sublist.refl _, fun x => by simp [eraseAll]⟩⟩
  | cons reg regs ih =>
    obtain ⟨h₁, hone, hr₁⟩ := unregister_spec hfuel hr reg
    obtain ⟨h₂, hrest, hr₂, hlists⟩ := ih hr₁
    refine ⟨h₂, ?_, hr₂, fun i hi => ⟨(hlists i hi).1.trans (sublist_eraseIn L reg i), fun x => ?_⟩⟩
    · unfold nfUnregisterNetHooks
      rw [hone]
      exact hrest
    · have hx := (hlists i hi).2 x
      rw [hr.mem_eraseIn hi x] at hx
      rw [List.mem_cons, not_or, ← and_assoc]
      exact hx

/-- An array is registered as a whole; or an object is refused, and what was registered before it is taken back. -/
theorem registerFrom_spec (hr : Repr obj h L) (hm : Marks obj t L) (hback : eraseAll obj L done = L')
    (hfresh : FreshFrom obj fuel h regs) : ∃ ret h', registerFrom obj fuel h done regs = some (ret, h') ∧
      (ret = true → ∃ L₁, Repr obj h' L₁ ∧ Marks obj (t.add h' regs) L₁) ∧ (ret = false → Repr obj h' L') := by
  induction regs generalizing h L t done with
  | nil => exact ⟨true, h, rfl, fun _ => ⟨L, hr, hm.withHooks h⟩, fun hno => Bool.noConfusion hno⟩
  | cons reg regs ih =>
    by_cases hadd : ∃ i, listOf obj reg = some i ∧ (L i).length < nfMaxHooksPerHook
    · obtain ⟨i, hi, hlt⟩ := hadd
      have hnot : reg ∉ L i := by
        rcases hfresh.1 i (L i) hi (hr.chained i (listOf_lt hi)) with hnot | hfull
        · exact hnot
        · omega
      obtain ⟨h₁, hone, hr₁⟩ := register_spec hfuel hr hi hnot hlt
      have hback₁ : eraseAll obj (insertIn obj L i reg) (reg :: done) = L' := by
        unfold eraseAll
        rw [List.foldl_cons, erase_insertIn hi hnot]
        exact hback
      obtain ⟨ret, h₂, hrest, hall, hnone⟩ := ih hr₁ (hm.mark hi hnot) hback₁ (hfresh.2 h₁ hone)
      refine ⟨ret, h₂, ?_, hall, hnone⟩
      unfold registerFrom
      rw [hone]
      exact hrest
    · have hrefused := register_refused hfuel hr fun i hi => Nat.le_of_not_lt fun hlt => hadd ⟨i, hi, hlt⟩
      obtain ⟨h₁, hdone, hr₁, -⟩ := unregisterAll_spec hfuel hr done
      rw [hback] at hr₁
      refine ⟨false, h₁, ?_, fun hno => Bool.noConfusion hno, fun _ => hr₁⟩
      unfold registerFrom
      rw [hrefused, Option.bind_eq_bind, Option.bind_some]
      dsimp only
      rw [if_neg Bool.false_ne_true, hdone]
      rfl

end Calls

section Runs

variable (obj) in
/-- The links and the times of registration stand for the same lists. -/
def Inv (t : Traced ν) : Prop := ∃ L, Repr obj t.hooks L ∧ Marks obj t L

omit [DecidableEq ν] in
theorem Inv.listsOk (h : Inv obj t) : ListsOk obj t := by
  obtain ⟨L, hr, hm⟩ := h
  exact fun i hi => ⟨L i, hr.chained i hi, hr.nodup i hi, hm.holds i hi, hm.sorted i hi⟩

omit [DecidableEq ν] in
theorem inv_start (next : ν → Option ν) : Inv obj (startOf next) := by
  refine ⟨fun _ => [], ⟨fun _ _ => rfl, fun _ _ => List.nodup_nil, fun _ _ _ hx => absurd hx List.not_mem_nil,
    fun _ _ => Nat.zero_le _⟩, ⟨fun _ _ x => ?_, fun _ _ => List.Pairwise.nil, fun _ n hn => ?_⟩⟩
  · refine iff_of_false List.not_mem_nil fun hyes => ?_
    cases hyes.2
  · cases hn

/-- Every call returns, and keeps the lists in order; arrays that fail leave them as they were. -/
theorem Inv.call (hfuel : nfMaxHooksPerHook ≤ fuel) (h : Inv obj t) (c : Call ν) (hok : CallOk obj fuel t c) :
    ∃ r, callHooks obj fuel t.hooks c = some r ∧ Inv obj (record t r c) := by
  obtain ⟨L, hr, hm⟩ := h
  cases c with
  | register reg =>
    by_cases hadd : ∃ i, listOf obj reg = some i ∧ (L i).length < nfMaxHooksPerHook
    · obtain ⟨i, hi, hlt⟩ := hadd
      have hnot : reg ∉ L i := by
        rcases hok i (L i) hi (hr.chained i (listOf_lt hi)) with hnot | hfull
        · exact hnot
        · omega
      obtain ⟨h', hreg, hr'⟩ := register_spec hfuel hr hi hnot hlt
      exact ⟨(true, h'), hreg, insertIn obj L i reg, hr', (hm.mark hi hnot).withHooks h'⟩
    · have hrefused := register_refused hfuel hr fun i hi => Nat.le_of_not_lt fun hlt => hadd ⟨i, hi, hlt⟩
      exact ⟨(false, t.hooks), hrefused, L, hr, hm⟩
  | unregister reg =>
    obtain ⟨h', hun, hr'⟩ := unregister_spec hfuel hr reg
    refine ⟨(true, h'), Option.map_eq_some_iff.mpr ⟨h', hun, rfl⟩, eraseIn obj L reg, hr', ?_⟩
    refine hm.drop (fun i _ => sublist_eraseIn L reg i) (fun i hi x => ?_) h'
    rw [List.mem_singleton]
    exact hr.mem_eraseIn hi x
  | registerNet regs =>
    obtain ⟨ret, h', hreg, hall, hnone⟩ := registerFrom_spec hfuel hr hm rfl hok
    refine ⟨(ret, h'), hreg, ?_⟩
    cases ret with
    | true => exact hall rfl
    | false => exact ⟨L, hnone rfl, hm.withHooks h'⟩
  | unregisterNet regs =>
    obtain ⟨h', hun, hr', hlists⟩ := unregisterAll_spec hfuel hr regs
    refine ⟨(true, h'), Option.map_eq_some_iff.mpr ⟨h', hun, rfl⟩, eraseAll obj L regs, hr', ?_⟩
    exact hm.drop (fun i hi => (hlists i hi).1) (fun i hi => (hlists i hi).2) h'

/-- As long as no object is registered while it is in its list, every list is finite, in order and without
repetition, every call returns, and an array that is refused leaves the lists as they were. -/
theorem hook_lists_ok (obj : ν → HookOps) {fuel : ℕ} (hfuel : nfMaxHooksPerHook ≤ fuel) (next : ν → Option ν)
    {t : Traced ν} (h : Run.Reach (step obj fuel) (CallOk obj fuel) (startOf next) t) :
    ListsOk obj t ∧ (∀ c, CallOk obj fuel t c → (step obj fuel t c).isSome) ∧
      ∀ regs h', FreshFrom obj fuel t.hooks regs → nfRegisterNetHooks obj fuel t.hooks regs = some (false, h') →
        SameLists t.hooks h' := by
  have hinv : Inv obj t := h.invariant (inv_start next) fun s c s' hs hok hst => by
    obtain ⟨r, hcall, hr⟩ := hs.call hfuel c hok
    unfold step at hst
    rw [hcall] at hst
    exact Option.some.inj hst ▸ hr
  refine ⟨hinv.listsOk, fun c hok => ?_, fun regs h' hfresh hfail => ?_⟩
  · obtain ⟨r, hcall, -⟩ := hinv.call hfuel c hok
    unfold step
    rw [hcall]
    rfl
  · obtain ⟨L, hr, hm⟩ := hinv
    obtain ⟨ret, h'', hreg, -, hnone⟩ := registerFrom_spec hfuel hr hm rfl hfresh
    obtain ⟨rfl, rfl⟩ := Prod.mk.inj (Option.some.inj (hfail.symm.trans hreg))
    have hr' := hnone rfl
    intro i hi l
    constructor
    · intro hl
      rw [hl.unique (hr.chained i hi)]
      exact hr'.chained i hi
    · intro hl
      rw [hl.unique (hr'.chained i hi)]
      exact hr.chained i hi

omit [DecidableEq ν] in
theorem fresh_of_chained {h : Hooks ν} {reg : ν}
    (hl : ∀ i, listOf obj reg = some i → ∃ l, Chained h.next (h.heads i) l ∧ reg ∉ l) : Fresh obj h reg := by
  intro i l hi hl'
  obtain ⟨m, hm, hnot⟩ := hl i hi
  rw [hl'.unique hm]
  exact Or.inl hnot

/-- Objects of one list and one priority. -/
def sameHook : ℕ → HookOps := fun _ => ⟨1, 0⟩

/-- Two objects of one priority are registered, and the first is taken out again. -/
theorem hook_lists_ok_two : ∃ t, Run.run (step sameHook 64) (startOf fun _ => none)
      [.register 0, .register 1, .unregister 0] = some t ∧
    ListsOk sameHook t ∧ (∀ c, CallOk sameHook 64 t c → (step sameHook 64 t c).isSome) ∧
      ∀ regs h', FreshFrom sameHook 64 t.hooks regs → nfRegisterNetHooks sameHook 64 t.hooks regs = some (false, h') →
        SameLists t.hooks h' := by
  have hreach : Run.Reach (step sameHook 64) (CallOk sameHook 64) (startOf fun _ => none) _ :=
    ((Run.Reach.start.step (.register 0) ?_ rfl).step (.register 1) ?_ rfl).step (.unregister 0) trivial rfl
  · exact ⟨_, rfl, hook_lists_ok sameHook (Nat.le_refl 64) _ hreach⟩
  · refine fresh_of_chained fun i _ => ⟨[], rfl, List.not_mem_nil⟩
  · refine fresh_of_chained fun i hi => ⟨[0], ?_, by decide⟩
    obtain rfl : 1 = i := Option.some.inj hi
    exact ⟨rfl, rfl⟩

/-- An object that is registered twice is linked to itself. -/
theorem hook_registered_twice : ¬∀ t, Run.Reach (step sameHook 64) (fun _ _ => True) (startOf fun _ => none) t →
    ListsOk sameHook t := by
  intro hall
  obtain ⟨t, hrun⟩ : ∃ t, Run.run (step sameHook 64) (startOf fun _ => none) [.register 0, .register 0] = some t :=
    ⟨_, rfl⟩
  have hlinks : (Run.run (step sameHook 64) (startOf fun _ => none) [.register 0, .register 0]).map
      (fun t => (t.hooks.heads 1, t.hooks.next 0)) = some (some 0, some 0) := by
    decide +kernel
  rw [hrun] at hlinks
  obtain ⟨hhead, hnext⟩ := Prod.mk.inj (Option.some.inj hlinks)
  obtain ⟨l, hl⟩ := hall t (.of_run .start hrun) 1 (by decide)
  have hendless : ∀ l, ¬Chained t.hooks.next (some 0) l := by
    intro l
    induction l with
    | nil =>
      intro hnil
      cases hnil
    | cons x xs ih =>
      rintro ⟨hx, hrest⟩
      rw [← Option.some.inj hx, hnext] at hrest
      exact ih hrest
  exact hendless l (hhead ▸ hl.chained)

end Runs

end Netfilter
