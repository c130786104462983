import Kenux.Ipc.Model

/-!
# When the futex queues are right
-/

namespace Ipc.Futex

open Run
open Function (update_self update_of_ne)

variable {s s' : State} {uaddr uaddr2 n : ℕ} {q done : List Node}

/-! ## What the loops do to a bucket -/

/-- The nodes of a bucket that wait on a word. -/
def waitersOn (uaddr : ℕ) (q : List Node) : List Node := q.filter fun x => x.uaddr = uaddr

theorem wakeLoop_taken (uaddr n : ℕ) (q : List Node) : (wakeLoop uaddr n q).2 = (waitersOn uaddr q).take n := by
  induction q generalizing n with
  | nil => simp [wakeLoop, waitersOn]
  | cons x q ih =>
    cases n with
    | zero => simp [wakeLoop]
    | succ n =>
      unfold wakeLoop
      by_cases hx : x.uaddr = uaddr
      · simp [hx, ih, waitersOn]
      · simp [hx, ih, waitersOn]

theorem wakeLoop_perm (uaddr n : ℕ) (q : List Node) : (wakeLoop uaddr n q).1 ++ (wakeLoop uaddr n q).2 |>.Perm q := by
  induction q generalizing n with
  | nil => simp [wakeLoop]
  | cons x q ih =>
    cases n with
    | zero => simp [wakeLoop]
    | succ n =>
      unfold wakeLoop
      split_ifs
      · exact List.perm_middle.trans ((ih n).cons x)
      · exact (ih (n + 1)).cons x

theorem wakeLoop_kept (uaddr n : ℕ) (q : List Node) : (wakeLoop uaddr n q).1.Sublist q := by
  induction q generalizing n with
  | nil => simp [wakeLoop]
  | cons x q ih =>
    cases n with
    | zero => simp [wakeLoop]
    | succ n =>
      unfold wakeLoop
      split_ifs
      · exact (ih n).cons x
      · exact (ih (n + 1)).cons_cons x

/-- What of a node never changes. -/
def key (x : Node) : ℕ × ℕ := (x.address, x.pid)

theorem skipOthers_eq (uaddr : ℕ) (q : List Node) : (skipOthers uaddr q).1 ++ (skipOthers uaddr q).2 = q := by
  unfold skipOthers
  rw [List.span_eq_takeWhile_dropWhile]
  exact List.takeWhile_append_dropWhile

theorem requeueWithin_spec (uaddr uaddr2 n : ℕ) (done q : List Node) :
    ((requeueWithin uaddr uaddr2 n done q).map key).Perm ((done ++ q).map key) ∧
    ∀ x ∈ requeueWithin uaddr uaddr2 n done q, x ∈ done ++ q ∨ x.uaddr = uaddr2 := by
  induction n generalizing done q with
  | zero => exact ⟨.refl _, fun x hx => .inl hx⟩
  | succ n ih =>
    have hq := skipOthers_eq uaddr q
    unfold requeueWithin
    cases hskip : skipOthers uaddr q with
    | mk others rest =>
      rw [hskip] at hq
      cases rest with
      | nil =>
        rw [List.append_nil] at hq
        subst hq
        exact ⟨.refl _, fun x hx => .inl hx⟩
      | cons x rest =>
        subst hq
        dsimp only
        split_ifs with hnil
        · obtain ⟨rfl, rfl⟩ := List.append_eq_nil_iff.mp hnil
          obtain ⟨hperm, hmem⟩ := ih [] ({ x with uaddr := uaddr2 } :: rest)
          refine ⟨hperm, fun y hy => ?_⟩
          rcases hmem y hy with hy | hy
          · rcases List.mem_cons.mp hy with rfl | hy
            · exact .inr rfl
            · exact .inl (List.mem_cons_of_mem _ hy)
          · exact .inr hy
        · obtain ⟨hperm, hmem⟩ := ih ({ x with uaddr := uaddr2 } :: done ++ others) rest
          refine ⟨hperm.trans ?_, fun y hy => ?_⟩
          · have hmid : (x :: (done ++ others ++ rest)).Perm (done ++ (others ++ x :: rest)) := by
              rw [← List.append_assoc]
              exact List.perm_middle.symm
            exact hmid.map key
          · rcases hmem y hy with hy | hy
            · simp only [List.cons_append, List.mem_cons, List.mem_append] at hy ⊢
              rcases hy with rfl | (hy | hy) | hy
              · exact .inr rfl
              · exact .inl (.inl hy)
              · exact .inl (.inr (.inl hy))
              · exact .inl (.inr (.inr (.inr hy)))
            · exact .inr hy

theorem requeueInto_spec (uaddr uaddr2 n : ℕ) (q q2 : List Node) :
    (((requeueInto uaddr uaddr2 n q q2).1 ++ (requeueInto uaddr uaddr2 n q q2).2).map key).Perm ((q ++ q2).map key) ∧
    (∀ x ∈ (requeueInto uaddr uaddr2 n q q2).1, x ∈ q) ∧
    ∀ x ∈ (requeueInto uaddr uaddr2 n q q2).2, x ∈ q2 ∨ x.uaddr = uaddr2 := by
  induction n generalizing q q2 with
  | zero => exact ⟨.refl _, fun x hx => hx, fun x hx => .inl hx⟩
  | succ n ih =>
    have hq := skipOthers_eq uaddr q
    unfold requeueInto
    cases hskip : skipOthers uaddr q with
    | mk others rest =>
      rw [hskip] at hq
      cases rest with
      | nil =>
        rw [List.append_nil] at hq
        subst hq
        exact ⟨.refl _, fun x hx => hx, fun x hx => .inl hx⟩
      | cons x rest =>
        subst hq
        dsimp only
        obtain ⟨hperm, hmem, hmem2⟩ := ih rest ({ x with uaddr := uaddr2 } :: q2)
        refine ⟨?_, fun y hy => ?_, fun y hy => ?_⟩
        · have hmid : ((rest ++ { x with uaddr := uaddr2 } :: q2).map key).Perm ((x :: rest ++ q2).map key) :=
            List.perm_middle.map key
          rw [List.append_assoc, List.map_append, List.append_assoc others, @List.map_append _ _ _ others]
          exact (hperm.trans hmid).append_left _
        · rcases List.mem_append.mp hy with hy | hy
          · exact List.mem_append_left _ hy
          · exact List.mem_append_right _ (List.mem_cons_of_mem _ (hmem y hy))
        · rcases hmem2 y hy with hy | hy
          · rcases List.mem_cons.mp hy with rfl | hy
            · exact .inr rfl
            · exact .inl hy
          · exact .inr hy

/-! ## The invariant -/

/-- A process with a node on a queue is in a call of `futex_wait` with that node, and one that is in a call has its
node on a queue unless it was freed; one that sleeps has it there. No node is on two queues or twice on one, and none
that was freed is on a queue. -/
structure Inv (s : State) : Prop where
  nodup : ∀ h, ((s.queues h).map fun x => x.address).Nodup
  one : ∀ h h' x y, x ∈ s.queues h → y ∈ s.queues h' → x.address = y.address → h = h'
  place : ∀ h x, x ∈ s.queues h → futexHash x.uaddr = h
  owner : ∀ h x, x ∈ s.queues h → x.pid < processMax ∧ ∃ u val b, (s.procs x.pid).pc = .asleep u val x.address b
  linked : ∀ p u val w b, (s.procs p).pc = .asleep u val w b →
    (∃ h x, x ∈ s.queues h ∧ x.address = w ∧ x.pid = p) ∨ w ∈ s.freed
  sleeping : ∀ p, (s.procs p).state = .sleeping → ∃ h x u val b, x ∈ s.queues h ∧ x.pid = p ∧
    (s.procs p).pc = .asleep u val x.address b
  freedOnce : s.freed.Nodup
  unreachable : ∀ h x, x ∈ s.queues h → x.address ∉ s.freed
  fresh : (∀ h x, x ∈ s.queues h → x.address < s.nextAddress) ∧ ∀ w ∈ s.freed, w < s.nextAddress
  woken : ∀ p, (s.procs p).state = .sleeping → (s.procs p).missed = false
  running : ∀ p u val, (s.procs p).pc = .compared u val → p < processMax

/-- Two nodes with one address are one node. -/
theorem Inv.eq_of_address (h : Inv s) {b b' : ℕ} {x y : Node} (hx : x ∈ s.queues b) (hy : y ∈ s.queues b')
    (heq : x.address = y.address) : x = y := by
  obtain rfl := h.one b b' x y hx hy heq
  exact List.inj_on_of_nodup_map (h.nodup b) hx hy heq

/-- A process has one node. -/
theorem Inv.eq_of_pid (h : Inv s) {b b' : ℕ} {x y : Node} (hx : x ∈ s.queues b) (hy : y ∈ s.queues b')
    (heq : x.pid = y.pid) : x = y := by
  obtain ⟨-, u, val, c, hpc⟩ := h.owner b x hx
  obtain ⟨-, u', val', c', hpc'⟩ := h.owner b' y hy
  rw [heq, hpc'] at hpc
  injection hpc with _ _ haddr
  exact h.eq_of_address hx hy haddr.symm

/-- The steps that the queues are made for. A process does not go to sleep if, since it compared the word, another
changed it and then woke all waiters; a process goes on only while its node is in the bucket it was put to; and when
waiters of a word are woken, the first of them, as many as are to be woken, are nodes of sleeping processes, and, if
all are to be woken, no process that sleeps after the word was changed was moved to another word. -/
def Fair (s : State) : Call → Prop
  | .enqueue p _ => (s.procs p).missed = false
  | .resume p => ∀ u val w h, (s.procs p).pc = .asleep u val w h → ∃ x ∈ s.queues h, x.address = w
  | .wake u n => (∀ x ∈ (waitersOn u (s.queues (futexHash u))).take n, (s.procs x.pid).state = .sleeping) ∧
      (intMax ≤ n → ∀ p val, (s.procs p).state = .sleeping → (s.procs p).pc.call = some (u, val) →
        (s.procs p).changed = true → ∃ x ∈ waitersOn u (s.queues (futexHash u)), x.pid = p)
  | _ => True

theorem inv_start : Inv start := by
  constructor <;> simp [start]

/-- Only processes change that are in no call, or whether the word was changed. -/
theorem Inv.procs (h : Inv s) {procs : ℕ → Process} {words : ℕ → ℕ}
    (hpc : ∀ p u val w b, (procs p).pc = .asleep u val w b ↔ (s.procs p).pc = .asleep u val w b)
    (hstate : ∀ p, (procs p).state = .sleeping → (s.procs p).state = .sleeping ∧ (procs p).missed = (s.procs p).missed)
    (hrun : ∀ p u val, (procs p).pc = .compared u val → p < processMax) :
    Inv { s with procs := procs, words := words } where
  nodup := h.nodup
  one := h.one
  place := h.place
  owner b x hx := by
    obtain ⟨hlt, u, val, c, hp⟩ := h.owner b x hx
    exact ⟨hlt, u, val, c, (hpc ..).mpr hp⟩
  linked p u val w b hp := h.linked p u val w b ((hpc ..).mp hp)
  sleeping p hp := by
    obtain ⟨b, x, u, val, c, hx, hxp, hp⟩ := h.sleeping p (hstate p hp).1
    exact ⟨b, x, u, val, c, hx, hxp, (hpc ..).mpr hp⟩
  freedOnce := h.freedOnce
  unreachable := h.unreachable
  fresh := h.fresh
  woken p hp := (hstate p hp).2.trans (h.woken p (hstate p hp).1)
  running := hrun

/-- The nodes are put to other places. -/
theorem Inv.rearrange (h : Inv s) {queues : ℕ → List Node}
    (hnodup : ∀ b, ((queues b).map fun x => x.address).Nodup)
    (hone : ∀ b b' x y, x ∈ queues b → y ∈ queues b' → x.address = y.address → b = b')
    (hplace : ∀ b x, x ∈ queues b → futexHash x.uaddr = b)
    (hfrom : ∀ b x, x ∈ queues b → ∃ b' y, y ∈ s.queues b' ∧ key y = key x)
    (hto : ∀ b x, x ∈ s.queues b → ∃ b' y, y ∈ queues b' ∧ key y = key x) :
    Inv { s with queues := queues } where
  nodup := hnodup
  one := hone
  place := hplace
  owner b x hx := by
    obtain ⟨b', y, hy, hkey⟩ := hfrom b x hx
    obtain ⟨haddr, hpid⟩ := Prod.mk.inj hkey
    rw [← haddr, ← hpid]
    exact h.owner b' y hy
  linked p u val w b hp := by
    rcases h.linked p u val w b hp with ⟨c, x, hx, haddr, hpid⟩ | hw
    · obtain ⟨b', y, hy, hkey⟩ := hto c x hx
      obtain ⟨haddr', hpid'⟩ := Prod.mk.inj hkey
      exact .inl ⟨b', y, hy, haddr'.trans haddr, hpid'.trans hpid⟩
    · exact .inr hw
  sleeping p hp := by
    obtain ⟨b, x, u, val, c, hx, hpid, hpc⟩ := h.sleeping p hp
    obtain ⟨b', y, hy, hkey⟩ := hto b x hx
    obtain ⟨haddr', hpid'⟩ := Prod.mk.inj hkey
    exact ⟨b', y, u, val, c, hy, hpid'.trans hpid, haddr' ▸ hpc⟩
  freedOnce := h.freedOnce
  unreachable b x hx := by
    obtain ⟨b', y, hy, hkey⟩ := hfrom b x hx
    exact (Prod.mk.inj hkey).1 ▸ h.unreachable b' y hy
  fresh := by
    refine ⟨fun b x hx => ?_, h.fresh.2⟩
    obtain ⟨b', y, hy, hkey⟩ := hfrom b x hx
    exact (Prod.mk.inj hkey).1 ▸ h.fresh.1 b' y hy
  woken := h.woken
  running := h.running

theorem inv_write (h : Inv s) (v : ℕ) : Inv (write uaddr v s) := by
  have hproc (p : ℕ) : ((write uaddr v s).procs p).pc = (s.procs p).pc ∧
      ((write uaddr v s).procs p).state = (s.procs p).state ∧
      ((write uaddr v s).procs p).missed = (s.procs p).missed := by
    unfold write
    dsimp only
    split
    · split_ifs <;> exact ⟨rfl, rfl, rfl⟩
    · exact ⟨rfl, rfl, rfl⟩
  refine h.procs (fun p u val w b => iff_of_eq (congrArg (· = Pc.asleep u val w b) (hproc p).1)) (fun p hp => ?_) fun p u val hp => ?_
  · exact ⟨(hproc p).2.1.symm.trans hp, (hproc p).2.2⟩
  · exact h.running p u val ((hproc p).1.symm.trans hp)

theorem inv_compare (h : Inv s) {p u val : ℕ} (hp : p < processMax) (hidle : (s.procs p).pc = .idle) :
    Inv { s with procs := Function.update s.procs p ⟨.awake, .compared u val, false, false⟩ } := by
  refine @Inv.procs s h _ s.words (fun p' u' val' w b => ?_) (fun p' hp' => ?_) fun p' u' val' hp' => ?_
  · by_cases heq : p' = p
    · subst heq
      simp [hidle]
    · simp [heq]
  · by_cases heq : p' = p
    · subst heq
      simp at hp'
    · simpa [heq] using hp'
  · by_cases heq : p' = p
    · exact heq ▸ hp
    · exact h.running p' u' val' (by simpa [heq] using hp')

theorem inv_requeue (h : Inv s) (uaddr uaddr2 n : ℕ) : Inv (futexRequeue uaddr uaddr2 n s) := by
  have haddr {q q' : List Node} (hperm : (q.map key).Perm (q'.map key)) (hq : (q'.map fun x => x.address).Nodup) :
      (q.map fun x => x.address).Nodup := by
    have := hperm.map Prod.fst
    rw [List.map_map, List.map_map] at this
    exact this.nodup_iff.mpr hq
  have hmem {q q' : List Node} (hperm : (q.map key).Perm (q'.map key)) {x : Node} (hx : x ∈ q) :
      ∃ y ∈ q', key y = key x := List.mem_map.mp (hperm.mem_iff.mp (List.mem_map_of_mem hx))
  unfold futexRequeue
  dsimp only
  split_ifs with hsame
  · obtain ⟨hperm, hnew⟩ := requeueWithin_spec uaddr uaddr2 n [] (s.queues (futexHash uaddr))
    rw [List.nil_append] at hperm hnew
    generalize requeueWithin uaddr uaddr2 n [] (s.queues (futexHash uaddr)) = q' at hperm hnew ⊢
    have hfrom (b : ℕ) (x : Node) (hx : x ∈ Function.update s.queues (futexHash uaddr) q' b) :
        ∃ y ∈ s.queues b, key y = key x := by
      by_cases hb : b = futexHash uaddr
      · subst hb
        rw [update_self] at hx
        exact hmem hperm hx
      · rw [update_of_ne hb] at hx
        exact ⟨x, hx, rfl⟩
    refine h.rearrange (fun b => ?_) (fun b b' x y hx hy heq => ?_) (fun b x hx => ?_)
      (fun b x hx => ⟨b, hfrom b x hx⟩) fun b x hx => ?_
    · by_cases hb : b = futexHash uaddr
      · subst hb
        rw [update_self]
        exact haddr hperm (h.nodup _)
      · rw [update_of_ne hb]
        exact h.nodup b
    · obtain ⟨x', hx', hkx⟩ := hfrom b x hx
      obtain ⟨y', hy', hky⟩ := hfrom b' y hy
      exact h.one b b' x' y' hx' hy' (by rw [(Prod.mk.inj hkx).1, (Prod.mk.inj hky).1, heq])
    · by_cases hb : b = futexHash uaddr
      · subst hb
        rw [update_self] at hx
        rcases hnew x hx with hx | hx
        · exact h.place _ x hx
        · rw [hx, hsame]
      · rw [update_of_ne hb] at hx
        exact h.place b x hx
    · refine ⟨b, ?_⟩
      by_cases hb : b = futexHash uaddr
      · subst hb
        rw [update_self]
        exact hmem hperm.symm hx
      · rw [update_of_ne hb]
        exact ⟨x, hx, rfl⟩
  · obtain ⟨hperm, hold, hnew⟩ := requeueInto_spec uaddr uaddr2 n (s.queues (futexHash uaddr))
      (s.queues (futexHash uaddr2))
    generalize requeueInto uaddr uaddr2 n (s.queues (futexHash uaddr)) (s.queues (futexHash uaddr2)) = r
      at hperm hold hnew ⊢
    generalize futexHash uaddr = h1 at hsame hperm hold hnew ⊢
    generalize hh2 : futexHash uaddr2 = h2 at hsame hperm hold hnew ⊢
    have hall : ((s.queues h1 ++ s.queues h2).map fun x => x.address).Nodup := by
      rw [List.map_append, List.nodup_append]
      refine ⟨h.nodup h1, h.nodup h2, fun a ha b hb heq => ?_⟩
      obtain ⟨x, hx, rfl⟩ := List.mem_map.mp ha
      obtain ⟨y, hy, rfl⟩ := List.mem_map.mp hb
      exact hsame (h.one h1 h2 x y hx hy heq)
    have hboth := haddr hperm hall
    rw [List.map_append, List.nodup_append] at hboth
    -- a node is where it was, or in one of the two buckets as it was before
    have hin (b : ℕ) (x : Node)
        (hx : x ∈ Function.update (Function.update s.queues h1 r.1) h2 r.2 b) :
        (b = h1 ∧ x ∈ r.1) ∨ (b = h2 ∧ x ∈ r.2) ∨ (b ≠ h1 ∧ b ≠ h2 ∧ x ∈ s.queues b) := by
      by_cases hb2 : b = h2
      · subst hb2
        rw [update_self] at hx
        exact .inr (.inl ⟨rfl, hx⟩)
      · rw [update_of_ne hb2] at hx
        by_cases hb1 : b = h1
        · subst hb1
          rw [update_self] at hx
          exact .inl ⟨rfl, hx⟩
        · rw [update_of_ne hb1] at hx
          exact .inr (.inr ⟨hb1, hb2, hx⟩)
    have hat1 : Function.update (Function.update s.queues h1 r.1) h2 r.2 h1 = r.1 := by
      rw [update_of_ne hsame, update_self]
    have hat2 : Function.update (Function.update s.queues h1 r.1) h2 r.2 h2 = r.2 := update_self ..
    have hold' (x : Node) (hx : x ∈ r.1 ++ r.2) :
        ∃ b' y, y ∈ s.queues b' ∧ key y = key x ∧ (b' = h1 ∨ b' = h2) := by
      obtain ⟨y, hy, hkey⟩ := hmem hperm hx
      rcases List.mem_append.mp hy with hy | hy
      · exact ⟨h1, y, hy, hkey, .inl rfl⟩
      · exact ⟨h2, y, hy, hkey, .inr rfl⟩
    have hfrom (b : ℕ) (x : Node)
        (hx : x ∈ Function.update (Function.update s.queues h1 r.1) h2 r.2 b) :
        ∃ b' y, y ∈ s.queues b' ∧ key y = key x ∧ ((b = h1 ∨ b = h2) ∧ (b' = h1 ∨ b' = h2) ∨ b' = b) := by
      rcases hin b x hx with ⟨hb, hx₁⟩ | ⟨hb, hx₂⟩ | ⟨-, -, hx⟩
      · obtain ⟨b', y, hy, hkey, hb'⟩ := hold' x (List.mem_append_left _ hx₁)
        exact ⟨b', y, hy, hkey, .inl ⟨.inl hb, hb'⟩⟩
      · obtain ⟨b', y, hy, hkey, hb'⟩ := hold' x (List.mem_append_right _ hx₂)
        exact ⟨b', y, hy, hkey, .inl ⟨.inr hb, hb'⟩⟩
      · exact ⟨b, x, hx, rfl, .inr rfl⟩
    refine h.rearrange (fun b => ?_) (fun b b' x y hx hy heq => ?_) (fun b x hx => ?_) (fun b x hx => ?_)
      fun b x hx => ?_
    · by_cases hb2 : b = h2
      · rw [hb2, hat2]
        exact hboth.2.1
      · by_cases hb1 : b = h1
        · rw [hb1, hat1]
          exact hboth.1
        · rw [update_of_ne hb2, update_of_ne hb1]
          exact h.nodup b
    · obtain ⟨c, x', hx', hkx, hc⟩ := hfrom b x hx
      obtain ⟨c', y', hy', hky, hc'⟩ := hfrom b' y hy
      have hcc : c = c' := h.one c c' x' y' hx' hy' (by rw [(Prod.mk.inj hkx).1, (Prod.mk.inj hky).1, heq])
      have hne {x y : Node} (hx : x ∈ r.1) (hy : y ∈ r.2) : x.address ≠ y.address :=
        hboth.2.2 _ (List.mem_map_of_mem hx) _ (List.mem_map_of_mem hy)
      rcases hin b x hx with ⟨hb, hx₁⟩ | ⟨hb, hx₂⟩ | ⟨hb1, hb2, -⟩
      · rcases hin b' y hy with ⟨hb', -⟩ | ⟨hb', hy₂⟩ | ⟨hb1', hb2', -⟩
        · exact hb.trans hb'.symm
        · exact absurd heq (hne hx₁ hy₂)
        · omega
      · rcases hin b' y hy with ⟨hb', hy₁⟩ | ⟨hb', -⟩ | ⟨hb1', hb2', -⟩
        · exact absurd heq.symm (hne hy₁ hx₂)
        · exact hb.trans hb'.symm
        · omega
      · omega
    · rcases hin b x hx with ⟨hb, hx₁⟩ | ⟨hb, hx₂⟩ | ⟨-, -, hx⟩
      · exact hb ▸ h.place h1 x (hold x hx₁)
      · rcases hnew x hx₂ with hx₂ | hx₂
        · exact hb ▸ h.place h2 x hx₂
        · rw [hx₂, hb]
          exact hh2
      · exact h.place b x hx
    · obtain ⟨b', y, hy, hkey, -⟩ := hfrom b x hx
      exact ⟨b', y, hy, hkey⟩
    · by_cases hb : b = h1 ∨ b = h2
      · have hx' : x ∈ s.queues h1 ++ s.queues h2 := by
          rcases hb with rfl | rfl
          · exact List.mem_append_left _ hx
          · exact List.mem_append_right _ hx
        obtain ⟨y, hy, hkey⟩ := hmem hperm.symm hx'
        rcases List.mem_append.mp hy with hy | hy
        · exact ⟨h1, y, hat1.symm ▸ hy, hkey⟩
        · exact ⟨h2, y, hat2.symm ▸ hy, hkey⟩
      · obtain ⟨hb1, hb2⟩ := not_or.mp hb
        refine ⟨b, x, ?_, rfl⟩
        rwa [update_of_ne hb2, update_of_ne hb1]

theorem inv_enqueue (h : Inv s) {p u val : ℕ} (hpc : (s.procs p).pc = .compared u val)
    (hfair : (s.procs p).missed = false) (alloc : Bool) : Inv (enqueue p u val alloc s) := by
  have hnot (b : ℕ) (x : Node) (hx : x ∈ s.queues b) : x.pid ≠ p := by
    rintro rfl
    obtain ⟨-, u', val', b', hpc'⟩ := h.owner b x hx
    rw [hpc] at hpc'
    exact nomatch hpc'
  cases alloc with
  | false =>
    refine @Inv.procs s h _ s.words (fun p' u' val' w b => ?_) (fun p' hp' => ?_) fun p' u' val' hp' => ?_
    · by_cases heq : p' = p
      · subst heq
        simp [hpc]
      · simp [heq]
    · by_cases heq : p' = p
      · subst heq
        simpa using hp'
      · simpa [heq] using hp'
    · by_cases heq : p' = p
      · subst heq
        simp at hp'
      · exact h.running p' u' val' (by simpa [heq] using hp')
  | true =>
    have hin (b : ℕ) (x : Node) (hx : x ∈ Function.update s.queues (futexHash u)
        (⟨s.nextAddress, p, u⟩ :: s.queues (futexHash u)) b) :
        (b = futexHash u ∧ x = ⟨s.nextAddress, p, u⟩) ∨ x ∈ s.queues b := by
      by_cases hb : b = futexHash u
      · subst hb
        rw [update_self] at hx
        exact (List.mem_cons.mp hx).imp (fun h => ⟨rfl, h⟩) id
      · rw [update_of_ne hb] at hx
        exact .inr hx
    have hout (b : ℕ) (x : Node) (hx : x ∈ s.queues b) : x ∈ Function.update s.queues (futexHash u)
        (⟨s.nextAddress, p, u⟩ :: s.queues (futexHash u)) b := by
      by_cases hb : b = futexHash u
      · subst hb
        rw [update_self]
        exact List.mem_cons_of_mem _ hx
      · rwa [update_of_ne hb]
    have hself : ⟨s.nextAddress, p, u⟩ ∈ Function.update s.queues (futexHash u)
        (⟨s.nextAddress, p, u⟩ :: s.queues (futexHash u)) (futexHash u) := by
      rw [update_self]
      exact List.mem_cons_self
    refine ⟨fun b => ?_, fun b b' x y hx hy heq => ?_, fun b x hx => ?_, fun b x hx => ?_,
      fun p' u' val' w b hp' => ?_, fun p' hp' => ?_, h.freedOnce, fun b x hx => ?_, ⟨fun b x hx => ?_, ?_⟩,
      fun p' hp' => ?_, fun p' u' val' hp' => ?_⟩
    · by_cases hb : b = futexHash u
      · subst hb
        simp only [enqueue, if_true, update_self, List.map_cons, List.nodup_cons]
        refine ⟨fun hmem => ?_, h.nodup _⟩
        obtain ⟨y, hy, haddr⟩ := List.mem_map.mp hmem
        exact absurd haddr (Nat.ne_of_lt (h.fresh.1 _ y hy))
      · simp only [enqueue, if_true, update_of_ne hb]
        exact h.nodup b
    · rcases hin b x hx with ⟨hb, rfl⟩ | hx'
      · rcases hin b' y hy with ⟨hb', -⟩ | hy'
        · exact hb.trans hb'.symm
        · exact absurd heq.symm (Nat.ne_of_lt (h.fresh.1 _ y hy'))
      · rcases hin b' y hy with ⟨-, rfl⟩ | hy'
        · exact absurd heq (Nat.ne_of_lt (h.fresh.1 _ x hx'))
        · exact h.one b b' x y hx' hy' heq
    · rcases hin b x hx with ⟨hb, rfl⟩ | hx'
      · exact hb.symm
      · exact h.place b x hx'
    · rcases hin b x hx with ⟨-, rfl⟩ | hx'
      · exact ⟨h.running p u val hpc, u, val, futexHash u, by simp [enqueue]⟩
      · simpa [enqueue, hnot b x hx'] using h.owner b x hx'
    · by_cases heq : p' = p
      · subst heq
        simp only [enqueue, if_true, update_self, Pc.asleep.injEq] at hp'
        obtain ⟨-, -, rfl, -⟩ := hp'
        exact .inl ⟨_, _, hself, rfl, rfl⟩
      · rcases h.linked p' u' val' w b (by simpa [enqueue, heq] using hp') with ⟨c, x, hx, hxw, hxp⟩ | hw
        · exact .inl ⟨c, x, hout c x hx, hxw, hxp⟩
        · exact .inr hw
    · by_cases heq : p' = p
      · subst heq
        exact ⟨_, _, u, val, futexHash u, hself, rfl, by simp [enqueue]⟩
      · obtain ⟨b, x, u', val', c, hx, hxp, hpc'⟩ := h.sleeping p' (by simpa [enqueue, heq] using hp')
        exact ⟨b, x, u', val', c, hout b x hx, hxp, by simpa [enqueue, heq] using hpc'⟩
    · rcases hin b x hx with ⟨-, rfl⟩ | hx'
      · exact fun hfreed => absurd (h.fresh.2 _ hfreed) (Nat.lt_irrefl _)
      · exact h.unreachable b x hx'
    · rcases hin b x hx with ⟨-, rfl⟩ | hx'
      · exact Nat.lt_succ_self _
      · exact Nat.lt_succ_of_lt (h.fresh.1 b x hx')
    · exact fun w hw => Nat.lt_succ_of_lt (h.fresh.2 w hw)
    · by_cases heq : p' = p
      · subst heq
        simpa [enqueue] using hfair
      · have := h.woken p' (by simpa [enqueue, heq] using hp')
        simpa [enqueue, heq] using this
    · by_cases heq : p' = p
      · subst heq
        simp [enqueue] at hp'
      · exact h.running p' u' val' (by simpa [enqueue, heq] using hp')

theorem mem_unlink {waiter : ℕ} (hq : (q.map fun x => x.address).Nodup) {x : Node} :
    x ∈ unlink waiter q ↔ x ∈ q ∧ x.address ≠ waiter := by
  induction q with
  | nil => simp [unlink]
  | cons y q ih =>
    obtain ⟨hy, hq⟩ := List.nodup_cons.mp hq
    unfold unlink at ih ⊢
    by_cases heq : y.address = waiter
    · subst heq
      rw [List.eraseP_cons_of_pos (by simp)]
      constructor
      · intro hx
        exact ⟨List.mem_cons_of_mem _ hx, fun heq => hy (List.mem_map.mpr ⟨x, hx, heq⟩)⟩
      · rintro ⟨hx, hne⟩
        rcases List.mem_cons.mp hx with rfl | hx
        · exact absurd rfl hne
        · exact hx
    · rw [List.eraseP_cons_of_neg (by simpa using heq), List.mem_cons, List.mem_cons, ih hq]
      constructor
      · rintro (rfl | ⟨hx, hne⟩)
        · exact ⟨.inl rfl, heq⟩
        · exact ⟨.inr hx, hne⟩
      · rintro ⟨rfl | hx, hne⟩
        · exact .inl rfl
        · exact .inr ⟨hx, hne⟩

theorem inv_resume (h : Inv s) {p u val waiter b₀ : ℕ} (hpc : (s.procs p).pc = .asleep u val waiter b₀)
    (hawake : (s.procs p).state = .awake) (hfair : ∃ x ∈ s.queues b₀, x.address = waiter) :
    Inv (resume p waiter b₀ s) := by
  obtain ⟨x₀, hx₀, haddr₀⟩ := hfair
  have hnot : waiter ∉ s.freed := haddr₀ ▸ h.unreachable b₀ x₀ hx₀
  have hpid₀ : x₀.pid = p := by
    rcases h.linked p u val waiter b₀ hpc with ⟨c, x, hx, hxw, hxp⟩ | hw
    · exact h.eq_of_address hx hx₀ (hxw.trans haddr₀.symm) ▸ hxp
    · exact absurd hw hnot
  have hin (b : ℕ) (x : Node) : x ∈ Function.update s.queues b₀ (unlink waiter (s.queues b₀)) b ↔
      x ∈ s.queues b ∧ x.address ≠ waiter := by
    by_cases hb : b = b₀
    · subst hb
      rw [update_self]
      exact mem_unlink (h.nodup b)
    · rw [update_of_ne hb]
      refine ⟨fun hx => ⟨hx, fun heq => hb ?_⟩, fun hx => hx.1⟩
      exact h.one b b₀ x x₀ hx hx₀ (heq.trans haddr₀.symm)
  have hpid (b : ℕ) (x : Node) (hx : x ∈ s.queues b) (hne : x.address ≠ waiter) : x.pid ≠ p := by
    intro heq
    exact hne (h.eq_of_pid hx hx₀ (heq.trans hpid₀.symm) ▸ haddr₀)
  refine ⟨fun b => ?_, fun b b' x y hx hy heq => ?_, fun b x hx => ?_, fun b x hx => ?_,
    fun p' u' val' w b hp' => ?_, fun p' hp' => ?_, ?_, fun b x hx => ?_, ⟨fun b x hx => ?_, fun w hw => ?_⟩,
    fun p' hp' => ?_, fun p' u' val' hp' => ?_⟩
  · by_cases hb : b = b₀
    · subst hb
      simp only [resume, update_self]
      exact (h.nodup b).sublist (List.eraseP_sublist.map _)
    · simp only [resume, update_of_ne hb]
      exact h.nodup b
  · exact h.one b b' x y ((hin b x).mp hx).1 ((hin b' y).mp hy).1 heq
  · exact h.place b x ((hin b x).mp hx).1
  · obtain ⟨hx, hne⟩ := (hin b x).mp hx
    simpa [resume, hpid b x hx hne] using h.owner b x hx
  · by_cases heq : p' = p
    · subst heq
      simp [resume] at hp'
    · rcases h.linked p' u' val' w b (by simpa [resume, heq] using hp') with ⟨c, x, hx, hxw, hxp⟩ | hw
      · refine .inl ⟨c, x, (hin c x).mpr ⟨hx, fun heq' => heq ?_⟩, hxw, hxp⟩
        rw [← hxp, ← hpid₀, h.eq_of_address hx hx₀ (heq'.trans haddr₀.symm)]
      · exact .inr (List.mem_append_left _ hw)
  · by_cases heq : p' = p
    · subst heq
      simp [resume, hawake] at hp'
    · obtain ⟨b, x, u', val', c, hx, hxp, hpc'⟩ := h.sleeping p' (by simpa [resume, heq] using hp')
      refine ⟨b, x, u', val', c, (hin b x).mpr ⟨hx, fun heq' => heq ?_⟩, hxp, by simpa [resume, heq] using hpc'⟩
      rw [← hxp, ← hpid₀, h.eq_of_address hx hx₀ (heq'.trans haddr₀.symm)]
  · refine List.nodup_append.mpr ⟨h.freedOnce, List.nodup_singleton _, fun a ha b hb heq => hnot ?_⟩
    rw [← List.mem_singleton.mp hb, ← heq]
    exact ha
  · obtain ⟨hx, hne⟩ := (hin b x).mp hx
    intro hfreed
    rcases List.mem_append.mp hfreed with hfreed | hfreed
    · exact h.unreachable b x hx hfreed
    · exact hne (List.mem_singleton.mp hfreed)
  · exact h.fresh.1 b x ((hin b x).mp hx).1
  · rcases List.mem_append.mp hw with hw | hw
    · exact h.fresh.2 w hw
    · rw [List.mem_singleton.mp hw, ← haddr₀]
      exact h.fresh.1 b₀ x₀ hx₀
  · by_cases heq : p' = p
    · subst heq
      simp [resume, hawake] at hp'
    · have := h.woken p' (by simpa [resume, heq] using hp')
      simpa [resume, heq] using this
  · by_cases heq : p' = p
    · subst heq
      simp [resume] at hp'
    · exact h.running p' u' val' (by simpa [resume, heq] using hp')

/-- A process gets another state, but does not go to sleep. -/
theorem inv_setState (h : Inv s) (p : ℕ) {state : ProcState} (hstate : state ≠ .sleeping) :
    Inv { s with procs := Function.update s.procs p { s.procs p with state := state } } := by
  refine @Inv.procs s h _ s.words (fun p' u' val' w b => ?_) (fun p' hp' => ?_) fun p' u' val' hp' => ?_
  · by_cases heq : p' = p
    · subst heq
      simp
    · simp [heq]
  · by_cases heq : p' = p
    · subst heq
      exact absurd (by simpa using hp') hstate
    · simpa [heq] using hp'
  · by_cases heq : p' = p
    · subst heq
      exact h.running p' u' val' (by simpa using hp')
    · exact h.running p' u' val' (by simpa [heq] using hp')

theorem inv_signal (h : Inv s) (p : ℕ) (kill : Bool) : Inv (signalSend p kill s) := by
  unfold signalSend
  split_ifs
  · exact h
  · exact inv_setState h p (by decide)
  · exact inv_setState h p (by decide)
  · exact h

/-! ## Waking -/

/-- Processes of nodes that are taken off become awake; the others stay as they are. -/
theorem wakeAll_apply (xs : List Node) (procs : ℕ → Process) (p : ℕ) :
    xs.foldl (fun procs x => wakeProcess x procs) procs p =
      if (∃ x ∈ xs, x.pid = p) ∧ p < processMax ∧ (procs p).state = .sleeping then
        { procs p with state := .awake }
      else procs p := by
  induction xs generalizing procs with
  | nil => simp
  | cons x xs ih =>
    rw [List.foldl_cons, ih]
    unfold wakeProcess
    by_cases hx : x.pid = p
    · subst hx
      by_cases hwake : x.pid < processMax ∧ (procs x.pid).state = .sleeping
      · simp [hwake]
      · rw [if_neg hwake, if_neg fun h => hwake h.2, if_neg fun h => hwake h.2]
    · have hmem : (∃ y ∈ x :: xs, y.pid = p) ↔ ∃ y ∈ xs, y.pid = p := by simp [hx]
      have hproc : (if x.pid < processMax ∧ (procs x.pid).state = .sleeping then
          Function.update procs x.pid { procs x.pid with state := .awake } else procs) p = procs p := by
        split_ifs
        · exact update_of_ne (Ne.symm hx) ..
        · rfl
      simp only [hproc, hmem]

theorem markMissed_same (uaddr n : ℕ) (procs : ℕ → Process) (p : ℕ) :
    (markMissed uaddr n procs p).pc = (procs p).pc ∧ (markMissed uaddr n procs p).state = (procs p).state ∧
    (markMissed uaddr n procs p).changed = (procs p).changed := by
  unfold markMissed
  split
  · split_ifs <;> exact ⟨rfl, rfl, rfl⟩
  · exact ⟨rfl, rfl, rfl⟩

/-- The nodes that a wake takes off. -/
def taken (uaddr n : ℕ) (s : State) : List Node := (waitersOn uaddr (s.queues (futexHash uaddr))).take n

theorem mem_taken {x : Node} (hx : x ∈ taken uaddr n s) : x ∈ s.queues (futexHash uaddr) ∧ x.uaddr = uaddr := by
  have := List.mem_filter.mp (List.mem_of_mem_take hx)
  exact ⟨this.1, by simpa using this.2⟩

/-- A process after a wake. -/
theorem wake_procs (hn : n ≠ 0) (p : ℕ) : ((futexWake uaddr n s).procs p).pc = (s.procs p).pc ∧
    ((futexWake uaddr n s).procs p).missed = (markMissed uaddr n s.procs p).missed ∧
    ((futexWake uaddr n s).procs p).state =
      if (∃ x ∈ taken uaddr n s, x.pid = p) ∧ p < processMax ∧ (s.procs p).state = .sleeping then .awake
      else (s.procs p).state := by
  obtain ⟨hpc, hstate, -⟩ := markMissed_same uaddr n s.procs p
  unfold futexWake taken
  rw [if_neg hn]
  dsimp only
  rw [wakeLoop_taken, wakeAll_apply, hstate]
  split_ifs
  · exact ⟨hpc, rfl, rfl⟩
  · exact ⟨hpc, rfl, hstate⟩

/-- Fewer processes wait than `INT_MAX`. -/
theorem length_waiters (h : Inv s) : (waitersOn uaddr (s.queues (futexHash uaddr))).length ≤ processMax := by
  have hmem {x : Node} (hx : x ∈ waitersOn uaddr (s.queues (futexHash uaddr))) : x ∈ s.queues (futexHash uaddr) :=
    List.mem_of_mem_filter hx
  have hnodup : ((waitersOn uaddr (s.queues (futexHash uaddr))).map fun x => x.pid).Nodup := by
    refine List.Nodup.map_on (fun x hx y hy heq => h.eq_of_pid (hmem hx) (hmem hy) heq) ?_
    exact ((h.nodup _).of_map _).filter _
  have hsub : ((waitersOn uaddr (s.queues (futexHash uaddr))).map fun x => x.pid) ⊆ List.range processMax := by
    intro p hp
    obtain ⟨x, hx, rfl⟩ := List.mem_map.mp hp
    exact List.mem_range.mpr (h.owner _ x (hmem hx)).1
  simpa using (List.subperm_of_subset hnodup hsub).length_le

theorem inv_wake (h : Inv s) (hfair : Fair s (.wake uaddr n)) : Inv (futexWake uaddr n s) := by
  obtain ⟨-, hmoved⟩ := hfair
  by_cases hn : n = 0
  · rw [futexWake, if_pos hn]
    exact h
  have hprocs := fun p => @wake_procs s uaddr n hn p
  obtain ⟨r, hr⟩ : ∃ r, r = wakeLoop uaddr n (s.queues (futexHash uaddr)) := ⟨_, rfl⟩
  have hkept : r.1.Sublist (s.queues (futexHash uaddr)) := hr ▸ wakeLoop_kept ..
  have hperm : (r.1 ++ r.2).Perm (s.queues (futexHash uaddr)) := hr ▸ wakeLoop_perm ..
  have htaken : r.2 = taken uaddr n s := hr ▸ wakeLoop_taken ..
  have hqueues : (futexWake uaddr n s).queues = Function.update s.queues (futexHash uaddr) r.1 := by
    rw [futexWake, if_neg hn, hr]
  have hfreed : (futexWake uaddr n s).freed = s.freed ++ (taken uaddr n s).map fun x => x.address := by
    rw [futexWake, if_neg hn, ← htaken, hr]
  have hnext : (futexWake uaddr n s).nextAddress = s.nextAddress := by rw [futexWake, if_neg hn]
  have hall : ((r.1 ++ r.2).map fun x => x.address).Nodup := (hperm.map _).nodup_iff.mpr (h.nodup _)
  rw [List.map_append, List.nodup_append, htaken] at hall
  have hin (b : ℕ) (x : Node) (hx : x ∈ (futexWake uaddr n s).queues b) : x ∈ s.queues b := by
    rw [hqueues] at hx
    by_cases hb : b = futexHash uaddr
    · subst hb
      rw [update_self] at hx
      exact hkept.subset hx
    · rwa [update_of_ne hb] at hx
  have hout (b : ℕ) (x : Node) (hx : x ∈ s.queues b) :
      x ∈ (futexWake uaddr n s).queues b ∨ x ∈ taken uaddr n s := by
    rw [hqueues]
    by_cases hb : b = futexHash uaddr
    · subst hb
      rw [update_self, ← htaken]
      exact List.mem_append.mp (hperm.mem_iff.mpr hx)
    · rw [update_of_ne hb]
      exact .inl hx
  -- a process that still sleeps slept before, and its node was not taken
  have hsleeps (p : ℕ) (hp : ((futexWake uaddr n s).procs p).state = .sleeping) :
      (s.procs p).state = .sleeping ∧ ∀ x ∈ taken uaddr n s, x.pid ≠ p := by
    rw [(hprocs p).2.2] at hp
    split_ifs at hp with hwoken
    refine ⟨hp, fun x hx heq => hwoken ⟨⟨x, hx, heq⟩, ?_, hp⟩⟩
    exact heq ▸ (h.owner _ x (mem_taken hx).1).1
  refine ⟨fun b => ?_, fun b b' x y hx hy heq => h.one b b' x y (hin b x hx) (hin b' y hy) heq,
    fun b x hx => h.place b x (hin b x hx), fun b x hx => ?_, fun p u val w b hp => ?_, fun p hp => ?_, ?_,
    fun b x hx => ?_, ⟨fun b x hx => ?_, fun w hw => ?_⟩, fun p hp => ?_, fun p u val hp => ?_⟩
  · rw [hqueues]
    by_cases hb : b = futexHash uaddr
    · subst hb
      rw [update_self]
      exact (h.nodup _).sublist (hkept.map _)
    · rw [update_of_ne hb]
      exact h.nodup b
  · obtain ⟨hlt, u, val, c, hpc⟩ := h.owner b x (hin b x hx)
    exact ⟨hlt, u, val, c, (hprocs _).1.trans hpc⟩
  · rcases h.linked p u val w b ((hprocs p).1.symm.trans hp) with ⟨c, x, hx, hxw, hxp⟩ | hw
    · rcases hout c x hx with hx | hx
      · exact .inl ⟨c, x, hx, hxw, hxp⟩
      · rw [hfreed]
        exact .inr (List.mem_append_right _ (List.mem_map.mpr ⟨x, hx, hxw⟩))
    · rw [hfreed]
      exact .inr (List.mem_append_left _ hw)
  · obtain ⟨hslept, hnot⟩ := hsleeps p hp
    obtain ⟨b, x, u, val, c, hx, hxp, hpc⟩ := h.sleeping p hslept
    rcases hout b x hx with hx | hx
    · exact ⟨b, x, u, val, c, hx, hxp, (hprocs p).1.trans hpc⟩
    · exact absurd hxp (hnot x hx)
  · rw [hfreed]
    refine List.nodup_append.mpr ⟨h.freedOnce, hall.2.1, fun a ha b hb heq => ?_⟩
    obtain ⟨x, hx, rfl⟩ := List.mem_map.mp hb
    exact h.unreachable _ x (mem_taken hx).1 (heq ▸ ha)
  · rw [hfreed]
    intro hmem
    rcases List.mem_append.mp hmem with hmem | hmem
    · exact h.unreachable b x (hin b x hx) hmem
    · obtain ⟨y, hy, heq⟩ := List.mem_map.mp hmem
      obtain rfl := h.one _ b y x (mem_taken hy).1 (hin b x hx) heq
      rw [hqueues, update_self] at hx
      exact hall.2.2 _ (List.mem_map_of_mem hx) _ (List.mem_map_of_mem hy) heq.symm
  · rw [hnext]
    exact h.fresh.1 b x (hin b x hx)
  · rw [hnext]
    rw [hfreed] at hw
    rcases List.mem_append.mp hw with hw | hw
    · exact h.fresh.2 w hw
    · obtain ⟨x, hx, rfl⟩ := List.mem_map.mp hw
      exact h.fresh.1 _ x (mem_taken hx).1
  · obtain ⟨hslept, hnot⟩ := hsleeps p hp
    have hmissed := h.woken p hslept
    rw [(hprocs p).2.1]
    unfold markMissed
    cases hcall : (s.procs p).pc.call with
    | none => exact hmissed
    | some c =>
      dsimp only
      split_ifs with hmark
      · obtain ⟨hword, hmany, hchanged⟩ := hmark
        obtain ⟨x, hx, hxp⟩ := hmoved hmany p c.2 hslept (by rw [hcall, ← hword]) hchanged
        have hlen := @length_waiters s uaddr h
        have hlong : (waitersOn uaddr (s.queues (futexHash uaddr))).length ≤ n := by
          unfold processMax at hlen
          unfold intMax at hmany
          omega
        refine absurd hxp (hnot x ?_)
        rwa [taken, List.take_of_length_le hlong]
      · exact hmissed
  · exact h.running p u val ((hprocs p).1.symm.trans hp)

/-- What the queues promise: a sleeping process has its node on exactly one queue, once; no node is freed twice or
reached after it was freed; and no process sleeps that missed a wake of all waiters of its word. -/
structure Sound (s : State) : Prop where
  queued : ∀ p, (s.procs p).state = .sleeping → ∃ u val w b, (s.procs p).pc = .asleep u val w b ∧
    ∃ h, ((s.queues h).countP fun x => x.address = w) = 1 ∧ ∀ h' ≠ h, ∀ x ∈ s.queues h', x.address ≠ w
  freedOnce : s.freed.Nodup
  unreachable : ∀ h x, x ∈ s.queues h → x.address ∉ s.freed
  woken : ∀ p, (s.procs p).state = .sleeping → (s.procs p).missed = false

theorem Inv.sound (h : Inv s) : Sound s := by
  refine ⟨fun p hp => ?_, h.freedOnce, h.unreachable, h.woken⟩
  obtain ⟨b, x, u, val, c, hx, hxp, hpc⟩ := h.sleeping p hp
  refine ⟨u, val, x.address, c, hpc, b, ?_, fun b' hb' y hy heq => hb' ?_⟩
  · have hcount := List.count_eq_one_of_mem (h.nodup b) (List.mem_map_of_mem hx)
    rw [List.count, List.countP_map] at hcount
    exact hcount ▸ List.countP_congr fun y _ => by simp
  · exact h.one b' b y x hy hx heq

theorem inv_step {c : Call} (h : Inv s) (hfair : Fair s c) (hstep : step s c = some s') : Inv s' := by
  cases c with
  | write uaddr v =>
    obtain rfl := Option.some.inj hstep
    exact inv_write h v
  | compare p u val =>
    simp only [step] at hstep
    split at hstep
    · next hstate hpc =>
      split_ifs at hstep with hlt heq
      · obtain rfl := Option.some.inj hstep
        exact inv_compare h hlt hpc
      · exact Option.some.inj hstep ▸ h
    · exact nomatch hstep
  | enqueue p alloc =>
    simp only [step] at hstep
    split at hstep
    · next hstate hpc =>
      obtain rfl := Option.some.inj hstep
      exact inv_enqueue h hpc hfair alloc
    · exact nomatch hstep
  | resume p =>
    simp only [step] at hstep
    split at hstep
    · next hstate hpc =>
      obtain rfl := Option.some.inj hstep
      exact inv_resume h hpc hstate (hfair _ _ _ _ hpc)
    · exact nomatch hstep
  | wake uaddr n =>
    obtain rfl := Option.some.inj hstep
    exact inv_wake h hfair
  | requeue uaddr uaddr2 n =>
    obtain rfl := Option.some.inj hstep
    exact inv_requeue h uaddr uaddr2 n
  | signal p kill =>
    obtain rfl := Option.some.inj hstep
    exact inv_signal h p kill

/-- How many sleeping processes a step woke. -/
def wokenCount (s s' : State) : ℕ :=
  (List.range processMax).countP fun p => (s.procs p).state = .sleeping ∧ (s'.procs p).state = .awake

theorem countP_range {ps : List ℕ} (hps : ps.Nodup) {k : ℕ} (hlt : ∀ p ∈ ps, p < k) :
    ((List.range k).countP fun p => p ∈ ps) = ps.length := by
  rw [List.countP_eq_length_filter]
  refine ((List.perm_ext_iff_of_nodup (List.nodup_range.filter _) hps).mpr fun p => ?_).length_eq
  simp only [List.mem_filter, List.mem_range, decide_eq_true_eq]
  exact ⟨fun h => h.2, fun h => ⟨hlt p h, h⟩⟩

theorem wake_count (h : Inv s) (hfair : Fair s (.wake uaddr n)) :
    wokenCount s (futexWake uaddr n s) = min n (waitersOn uaddr (s.queues (futexHash uaddr))).length := by
  by_cases hn : n = 0
  · subst hn
    rw [futexWake, if_pos rfl, Nat.zero_min, wokenCount, List.countP_eq_zero]
    intro p _ hp
    simp only [decide_eq_true_eq] at hp
    rw [hp.1] at hp
    exact nomatch hp.2
  · have hpids : ((taken uaddr n s).map fun x => x.pid).Nodup := by
      refine List.Nodup.map_on (fun x hx y hy heq => h.eq_of_pid (mem_taken hx).1 (mem_taken hy).1 heq) ?_
      exact (((h.nodup _).of_map _).filter _).sublist (List.take_sublist ..)
    have hlt : ∀ p ∈ (taken uaddr n s).map fun x => x.pid, p < processMax := by
      intro p hp
      obtain ⟨x, hx, rfl⟩ := List.mem_map.mp hp
      exact (h.owner _ x (mem_taken hx).1).1
    have hwoken (p : ℕ) : ((s.procs p).state = .sleeping ∧ ((futexWake uaddr n s).procs p).state = .awake) ↔
        p ∈ (taken uaddr n s).map fun x => x.pid := by
      rw [(wake_procs hn p).2.2, List.mem_map]
      constructor
      · rintro ⟨hslept, hawake⟩
        split_ifs at hawake with hmem
        · exact hmem.1
        · rw [hslept] at hawake
          exact nomatch hawake
      · rintro ⟨x, hx, rfl⟩
        have hslept := hfair.1 x hx
        refine ⟨hslept, if_pos ⟨⟨x, hx, rfl⟩, hlt _ (List.mem_map_of_mem hx), hslept⟩⟩
    have hcount : wokenCount s (futexWake uaddr n s) = (taken uaddr n s).length := by
      unfold wokenCount
      simp only [hwoken]
      rw [countP_range hpids hlt, List.length_map]
    rw [hcount, taken, List.length_take]

end Ipc.Futex
