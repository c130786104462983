import Kenux.Lib.Run

/-!
# Threads and locks

Threads run code over shared data, one instruction of one thread at a time. An instruction takes a lock, releases one,
or touches data that locks protect. A thread's place in the code says which locks it should hold; `LockInv` says that it
holds exactly these, and every run whose steps are `Fine` keeps it.
-/

open Function (update_self update_of_ne)

namespace Threads

open Run

variable {L σ ι π : Type*}

/-- What a thread does next. An `act` touches data that the locks `guards` protect; `none` is one that cannot go on. -/
inductive Instr (L σ ι π : Type*) where
  | acquire (l : L) (k : π)
  | release (l : L) (k : π)
  | act (guards : List L) (f : ι → σ → Option (σ × π))

/-- The data, which thread holds which lock, and where the threads are. -/
structure State (L σ π : Type*) where
  shared : σ
  owner : L → Option ℕ
  pc : ℕ → π

/-- A thread that is in no call begins one, or a thread goes on; `i` is what its environment gives it. -/
inductive Input (ι κ : Type*) where
  | call (t : ℕ) (c : κ)
  | go (t : ℕ) (i : ι)

/-- The code of the threads: the instruction at a place, where a call begins, and where a thread is in no call. -/
structure Code (L σ ι π κ : Type*) where
  instr : ℕ → π → Instr L σ ι π
  entry : κ → π
  idle : π → Bool

variable {κ : Type*}

/-- Thread `t` goes on; not while another thread holds the lock that it wants. -/
def go [DecidableEq L] (code : Code L σ ι π κ) (t : ℕ) (i : ι) (s : State L σ π) : Option (State L σ π) :=
  match code.instr t (s.pc t) with
  | .acquire l k =>
    match s.owner l with
    | some _ => none
    | none => some ⟨s.shared, Function.update s.owner l (some t), Function.update s.pc t k⟩
  | .release l k => some ⟨s.shared, Function.update s.owner l none, Function.update s.pc t k⟩
  | .act _ f => (f i s.shared).map fun r => ⟨r.1, s.owner, Function.update s.pc t r.2⟩

def step [DecidableEq L] (code : Code L σ ι π κ) (s : State L σ π) : Input ι κ → Option (State L σ π)
  | .call t c => if code.idle (s.pc t) then some ⟨s.shared, s.owner, Function.update s.pc t (code.entry c)⟩ else none
  | .go t i => if code.idle (s.pc t) then none else go code t i s

/-- The next instruction of thread `t` touches only what its locks protect, and releases only a lock that it holds. -/
def Disciplined (code : Code L σ ι π κ) (s : State L σ π) (t : ℕ) : Prop :=
  match code.instr t (s.pc t) with
  | .acquire _ _ => True
  | .release l _ => s.owner l = some t
  | .act guards _ => ∀ l ∈ guards, s.owner l = some t

/-- The same as `Disciplined`, said of the locks that the thread should hold at its place. -/
def Fine (code : Code L σ ι π κ) (held : π → List L) (t : ℕ) (c : π) : Prop :=
  match code.instr t c with
  | .acquire _ _ => True
  | .release l _ => l ∈ held c
  | .act guards _ => ∀ l ∈ guards, l ∈ held c

/-- The places agree with the code about the locks: one instruction after the other, and no call begins with any. -/
structure Typed [DecidableEq L] (code : Code L σ ι π κ) (held : π → List L) : Prop where
  acquire : ∀ t c l k, code.instr t c = .acquire l k → (held k).Perm (l :: held c)
  release : ∀ t c l k, code.instr t c = .release l k → l ∈ held c → (held k).Perm ((held c).erase l)
  act : ∀ t c guards f i x y k, code.instr t c = .act guards f → (∀ l ∈ guards, l ∈ held c) →
    f i x = some (y, k) → held k = held c
  entry : ∀ c, held (code.entry c) = []
  idle : ∀ c, code.idle c = true → held c = []

/-- Every thread holds exactly the locks that go with its place. -/
structure LockInv (held : π → List L) (s : State L σ π) : Prop where
  nodup : ∀ t, (held (s.pc t)).Nodup
  owner : ∀ l t, s.owner l = some t ↔ l ∈ held (s.pc t)

section

variable {code : Code L σ ι π κ} {held : π → List L} {s s' : State L σ π} {t u : ℕ} {i : ι} {l : L}

/-- A lock is held by one thread. -/
theorem LockInv.one (h : LockInv held s) (ht : l ∈ held (s.pc t)) (hu : l ∈ held (s.pc u)) : t = u := by
  rw [← h.owner] at ht hu
  exact Option.some.inj (ht.symm.trans hu)

theorem LockInv.disciplined_iff (h : LockInv held s) : Disciplined code s t ↔ Fine code held t (s.pc t) := by
  unfold Disciplined Fine
  cases code.instr t (s.pc t) with
  | acquire l k => exact Iff.rfl
  | release l k => exact h.owner l t
  | act guards f => exact forall_congr' fun l => imp_congr_right fun _ => h.owner l t

/-- Thread `t` moves to place `k`, and the locks change as its places say. -/
theorem LockInv.move (h : LockInv held s) {owner : L → Option ℕ} {k : π} {shared : σ} (hnodup : (held k).Nodup)
    (ht : ∀ l, owner l = some t ↔ l ∈ held k) (hu : ∀ l u, u ≠ t → (owner l = some u ↔ s.owner l = some u)) :
    LockInv held ⟨shared, owner, Function.update s.pc t k⟩ := by
  refine ⟨fun u => ?_, fun l u => ?_⟩
  · dsimp only
    by_cases hut : u = t
    · rw [hut, update_self]
      exact hnodup
    · rw [update_of_ne hut]
      exact h.nodup u
  · dsimp only
    by_cases hut : u = t
    · subst hut
      rw [update_self]
      exact ht l
    · rw [update_of_ne hut, hu l u hut]
      exact h.owner l u

variable [DecidableEq L]

theorem LockInv.go (h : LockInv held s) (htyped : Typed code held) (hfine : Fine code held t (s.pc t))
    (hgo : go code t i s = some s') : LockInv held s' := by
  unfold Threads.go at hgo
  unfold Fine at hfine
  cases hinstr : code.instr t (s.pc t) with
  | acquire l k =>
    rw [hinstr] at hgo
    dsimp only at hgo
    have hperm := htyped.acquire t _ l k hinstr
    cases howner : s.owner l with
    | some u =>
      rw [howner] at hgo
      exact nomatch hgo
    | none =>
      rw [howner] at hgo
      obtain rfl := Option.some.inj hgo
      have hnot : l ∉ held (s.pc t) := by
        rw [← h.owner, howner]
        exact nofun
      refine h.move (hperm.nodup_iff.mpr (List.nodup_cons.mpr ⟨hnot, h.nodup t⟩)) (fun x => ?_) fun x u hu => ?_
      · rw [hperm.mem_iff, List.mem_cons, ← h.owner x t]
        by_cases hx : x = l
        · rw [hx, update_self]
          exact iff_of_true rfl (.inl rfl)
        · rw [update_of_ne hx]
          exact (or_iff_right hx).symm
      · by_cases hx : x = l
        · rw [hx, update_self, howner]
          exact iff_of_false (fun heq => hu (Option.some.inj heq).symm) nofun
        · rw [update_of_ne hx]
  | release l k =>
    rw [hinstr] at hgo hfine
    obtain rfl := Option.some.inj hgo
    have hperm := htyped.release t _ l k hinstr hfine
    have howner : s.owner l = some t := (h.owner l t).mpr hfine
    refine h.move (hperm.nodup_iff.mpr ((h.nodup t).erase l)) (fun x => ?_) fun x u hu => ?_
    · rw [hperm.mem_iff, (h.nodup t).mem_erase_iff, ← h.owner x t]
      by_cases hx : x = l
      · rw [hx, update_self]
        exact iff_of_false nofun fun hand => hand.1 rfl
      · rw [update_of_ne hx]
        exact (and_iff_right hx).symm
    · by_cases hx : x = l
      · rw [hx, update_self, howner]
        exact iff_of_false nofun fun heq => hu (Option.some.inj heq).symm
      · rw [update_of_ne hx]
  | act guards f =>
    rw [hinstr] at hgo hfine
    obtain ⟨⟨y, k⟩, hf, rfl⟩ := Option.map_eq_some_iff.mp hgo
    have hheld := htyped.act t _ guards f i _ y k hinstr hfine hf
    refine h.move (hheld ▸ h.nodup t) (fun x => ?_) fun _ _ _ => Iff.rfl
    rw [hheld]
    exact h.owner x t

/-- The condition on a step: a thread that goes on does what the locks of its place allow. -/
def FineStep (code : Code L σ ι π κ) (held : π → List L) (s : State L σ π) : Input ι κ → Prop
  | .call _ _ => True
  | .go t _ => Fine code held t (s.pc t)

theorem LockInv.step (h : LockInv held s) (htyped : Typed code held) {x : Input ι κ}
    (hfine : FineStep code held s x) (hstep : step code s x = some s') : LockInv held s' := by
  cases x with
  | call t c =>
    simp only [Threads.step] at hstep
    by_cases hidle : code.idle (s.pc t) = true
    · rw [if_pos hidle] at hstep
      obtain rfl := Option.some.inj hstep
      refine h.move ?_ (fun l => ?_) fun _ _ _ => Iff.rfl
      · rw [htyped.entry]
        exact List.nodup_nil
      · rw [h.owner l t, htyped.entry, htyped.idle _ hidle]
    · rw [if_neg hidle] at hstep
      exact nomatch hstep
  | go t i =>
    simp only [Threads.step] at hstep
    by_cases hidle : code.idle (s.pc t) = true
    · rw [if_pos hidle] at hstep
      exact nomatch hstep
    · rw [if_neg hidle] at hstep
      exact h.go htyped hfine hstep

end

end Threads

/-!
## Programs that may fault or hang

A program reads and changes a state. It returns, follows a bad pointer, or waits for ever for something that only it
could do. `wp` says that it returns and what holds then, with a rule for each way of putting programs together.
-/

namespace Programs

inductive Outcome (α : Type*) where
  | ok (a : α)
  | hang
  | fault

def Program (σ : Type*) (α : Type) := σ → Outcome (α × σ)

variable {σ : Type*} {α β : Type}

def Program.bind (m : Program σ α) (f : α → Program σ β) : Program σ β := fun s =>
  match m s with
  | .ok (a, t) => f a t
  | .hang => .hang
  | .fault => .fault

instance : Monad (Program σ) where
  pure a := fun s => .ok (a, s)
  bind := Program.bind

/-- The state after a program that returns. -/
def Outcome.state : Outcome (α × σ) → Option σ
  | .ok r => some r.2
  | .hang => none
  | .fault => none

/-- The program returns from `s`, and what it returns and the state then meet `Q`. -/
def wp (m : Program σ α) (Q : α → σ → Prop) (s : σ) : Prop := ∃ a t, m s = .ok (a, t) ∧ Q a t

variable {m : Program σ α} {f : α → Program σ β} {P Q : α → σ → Prop} {R : β → σ → Prop} {s t : σ} {a : α}

theorem wp_pure (h : Q a s) : wp (pure a) Q s := ⟨a, s, rfl, h⟩

theorem wp_bind (h : wp m (fun a => wp (f a) R) s) : wp (m >>= f) R s := by
  obtain ⟨a, t, hm, b, u, hf, hR⟩ := h
  refine ⟨b, u, ?_, hR⟩
  change Program.bind m f s = _
  unfold Program.bind
  rw [hm]
  exact hf

theorem wp_mono (h : wp m P s) (himp : ∀ a t, P a t → Q a t) : wp m Q s := by
  obtain ⟨a, t, hm, hP⟩ := h
  exact ⟨a, t, hm, himp a t hP⟩

theorem wp_ok (hm : m s = .ok (a, t)) (h : Q a t) : wp m Q s := ⟨a, t, hm, h⟩

/-- A program that returns and goes on with one that hangs. -/
theorem hang_bind (h : wp m (fun a t => f a t = .hang) s) : (m >>= f) s = .hang := by
  obtain ⟨a, t, hm, hf⟩ := h
  change Program.bind m f s = _
  unfold Program.bind
  rw [hm]
  exact hf

theorem bind_hang (h : m s = .hang) : (m >>= f) s = .hang := by
  change Program.bind m f s = _
  unfold Program.bind
  rw [h]

end Programs
