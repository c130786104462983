import Kenux.Timer.Proofs.Wheel

/-!
# Ticks, and adding, changing and deleting timers
-/

namespace Timer

open DList TailList

variable {s s' : State} {B : ℕ → ℕ → List ℕ} {out : List ℕ} {t : ℕ}

/-- Whether the tick moves a list down to level 0, and which list. -/
def Carries (now l i : ℕ) : Prop := now % 256 = 0 ∧ l = 1 ∧ i = now / 256 % 256

/-- The lists that a tick takes from the wheel. -/
def Taken (now l i : ℕ) : Prop := (l = 0 ∧ i = now % 256) ∨ Carries now l i

instance (now l i : ℕ) : Decidable (Carries now l i) := inferInstanceAs (Decidable (_ ∧ _))

instance (now l i : ℕ) : Decidable (Taken now l i) := inferInstanceAs (Decidable (_ ∨ _))

/-- On the list of level 0 that a tick takes are the timers of this tick. -/
theorem expires_of_placed {now e : ℕ} (h : Placed now e 0 ((now + 1) % 256)) : e = now + 1 := by
  rcases h with ⟨-, hidx, hlo, hhi⟩ | ⟨hl, -⟩
  · omega
  · exact absurd hl (by decide)

theorem placed_of_expires {now e l i : ℕ} (h : Placed now e l i) (he : e = now + 1) :
    l = 0 ∧ i = (now + 1) % 256 := by
  rcases h with ⟨rfl, hidx, hlo, hhi⟩ | ⟨rfl, hidx, hcarry, hlo, hhi⟩
  · exact ⟨rfl, by rw [← hidx, he]⟩
  · omega

/-- On the list of level 1 that a tick moves down are timers of the 255 ticks after it. -/
theorem placed_of_carries {now e l i : ℕ} (h : Placed now e l i) (hc : Carries (now + 1) l i) :
    now + 1 < e ∧ e < now + 1 + 256 := by
  obtain ⟨hcarry, rfl, rfl⟩ := hc
  rcases h with ⟨hl, -⟩ | ⟨-, hidx, hlow, hlo, hhi⟩
  · exact absurd hl (by decide)
  · omega

theorem placed_step {now e l i : ℕ} (h : Placed now e l i) (hnot : ¬ Taken (now + 1) l i) : Placed (now + 1) e l i := by
  rcases h with ⟨rfl, hidx, hlo, hhi⟩ | ⟨rfl, hidx, hcarry, hlo, hhi⟩
  · have hne : e ≠ now + 1 := fun heq => hnot (.inl ⟨rfl, by rw [← hidx, heq]⟩)
    exact .inl ⟨rfl, hidx, by omega, by omega⟩
  · by_cases hmod : (now + 1) % 256 = 0
    · have hne : e / 256 ≠ (now + 1) / 256 := fun heq => hnot (.inr ⟨hmod, rfl, by rw [← hidx, heq]⟩)
      exact .inr ⟨rfl, hidx, hcarry, by omega, by omega⟩
    · exact .inr ⟨rfl, hidx, hcarry, by omega, by omega⟩

/-- What is left when the lists of a tick are taken and its timers are expired. -/
theorem Repr.taken (h : Repr s B []) (hmem : ∀ y, y ∉ B 0 ((s.jiffies + 1) % 256) → s'.mem y = s.mem y)
    (hexpired : ∀ y ∈ B 0 ((s.jiffies + 1) % 256), (s'.mem y).state = .expired)
    (hcleared : ∀ l i, Taken (s.jiffies + 1) l i → s'.lists l i = none)
    (hlists : ∀ l i, ¬ Taken (s.jiffies + 1) l i → s'.lists l i = s.lists l i)
    (hjiffies : s'.jiffies = s.jiffies + 1) (hknown : s'.known = s.known) :
    Repr s' (fun l i => if Taken (s.jiffies + 1) l i then [] else B l i)
      (if (s.jiffies + 1) % 256 = 0 then B 1 ((s.jiffies + 1) / 256 % 256) else []) := by
  have hkept {l i y : ℕ} (hy : y ∈ if Taken (s.jiffies + 1) l i then [] else B l i) :
      y ∈ B l i ∧ ¬ Taken (s.jiffies + 1) l i := by
    split_ifs at hy with htaken
    · exact absurd hy List.not_mem_nil
    · exact ⟨hy, htaken⟩
  have hsame {l i y : ℕ} (hy : y ∈ B l i) (hnot : ¬ Taken (s.jiffies + 1) l i) : s'.mem y = s.mem y :=
    hmem y fun hy' => hnot (.inl (h.one l i 0 ((s.jiffies + 1) % 256) y hy hy'))
  refine ⟨fun l i => ?_, fun l i y hy => ?_, fun l i y hy => ?_, fun l i y hy => ?_, fun l i l' i' y hy hy' => ?_,
    fun l i y hy hyout => ?_, fun y hy hyout => ?_⟩
  · split_ifs with htaken
    · rw [hcleared l i htaken]
      exact .nil
    · rw [hlists l i htaken]
      exact (h.list l i).congr (fun y hy => by rw [hsame hy htaken]) fun y hy => by rw [hsame hy htaken]
  · obtain ⟨hy, hnot⟩ := hkept hy
    rw [hsame hy hnot]
    exact h.active l i y hy
  · obtain ⟨hy, hnot⟩ := hkept hy
    rw [hsame hy hnot, hjiffies]
    exact placed_step (h.placed l i y hy) hnot
  · rw [hknown]
    exact h.known l i y (hkept hy).1
  · exact h.one l i l' i' y (hkept hy).1 (hkept hy').1
  · obtain ⟨hy, hnot⟩ := hkept hy
    split_ifs at hyout with hcarry
    · obtain ⟨hl, hi⟩ := h.one l i 1 ((s.jiffies + 1) / 256 % 256) y hy hyout
      exact hnot (.inr ⟨hcarry, hl, hi⟩)
    · exact absurd hyout List.not_mem_nil
  · have hfresh : y ∉ B 0 ((s.jiffies + 1) % 256) := by
      intro hmem'
      rw [hexpired y hmem'] at hy
      exact absurd hy (by decide)
    rw [hmem y hfresh] at hy
    obtain ⟨l, i, hli⟩ := h.linked y hy List.not_mem_nil
    refine ⟨l, i, ?_⟩
    rw [if_neg]
    · exact hli
    · rintro (⟨rfl, rfl⟩ | ⟨hcarry, rfl, rfl⟩)
      · exact hfresh hli
      · rw [if_pos hcarry] at hyout
        exact hyout hli

theorem Repr.length_le {l i : ℕ} (h : Repr s B out) : (B l i).length ≤ s.known.length :=
  ((h.list l i).nodup.subperm (h.known l i)).length_le

/-- What a tick does. -/
structure Ticks (s s' : State) (ran : List ℕ) : Prop where
  nodup : ran.Nodup
  due : ∀ t, t ∈ ran ↔ (s.mem t).state = .active ∧ (s.mem t).expires = s.jiffies + 1
  others : ∀ y, y ∉ ran → (s'.mem y).expires = (s.mem y).expires ∧ (s'.mem y).state = (s.mem y).state ∧
    (s'.mem y).oneshot = (s.mem y).oneshot
  expired : ∀ y ∈ ran, (s'.mem y).state = .expired
  jiffies : s'.jiffies = s.jiffies + 1
  events : s'.events = s.events ++ [.tick ran]

theorem expireLevel0_eq {s₁ s₂ : State} {ran : List ℕ}
    (hloop : expireLoop s.known.length (s.lists 0 (s.jiffies % wheelSize))
      (s.setList 0 (s.jiffies % wheelSize) none) = some (ran, s₁))
    (hcascade : (if s.jiffies % wheelSize = 0 then cascade 0 s₁ else some s₁) = some s₂) :
    expireLevel0 s = some (ran, s₂) := by
  unfold expireLevel0
  dsimp only
  rw [hloop, Option.bind_some]
  by_cases hcarry : s.jiffies % wheelSize = 0
  · rw [if_pos hcarry] at hcascade ⊢
    rw [hcascade]
    rfl
  · rw [if_neg hcarry] at hcascade ⊢
    rw [← Option.some.inj hcascade]

/-- The timers of this tick are taken from level 0 and expire. -/
theorem expire_spec (h : Repr s B []) (hone : ∀ t, (s.mem t).state = .active → (s.mem t).oneshot = true) (i : ℕ) :
    ∃ s₁, expireLoop s.known.length (s.lists 0 i)
        (({ s with jiffies := s.jiffies + 1 } : State).setList 0 i none) = some (B 0 i, s₁) ∧
      (∀ y, y ∉ B 0 i → s₁.mem y = s.mem y) ∧ (∀ y ∈ B 0 i, (s₁.mem y).state = .expired) ∧
      (∀ l' i', s₁.lists l' i' = if l' = 0 ∧ i' = i then none else s.lists l' i') ∧
      s₁.jiffies = s.jiffies + 1 ∧ s₁.known = s.known ∧ s₁.events = s.events := by
  have hlist := h.list 0 i
  obtain ⟨s₁, hs₁, hmem, hexp, hlists, hjiffies, hknown, hevents⟩ := expireLoop_spec
    (s := ({ s with jiffies := s.jiffies + 1 } : State).setList 0 i none) hlist.chained h.length_le hlist.nodup
    fun t ht => hone t (h.active 0 i t ht)
  refine ⟨s₁, hs₁, hmem, hexp, fun l' i' => ?_, hjiffies, hknown, hevents⟩
  rw [hlists]
  rfl

/-- The list of level 1 whose time has come is moved down. -/
theorem cascade_spec (hrepr : Repr (s.setList 1 (s.jiffies / 256 % 256) none) B out)
    (hlist : IsTailList (fun t => (s.mem t).next) (fun t => (s.mem t).prev) (s.lists 1 (s.jiffies / 256 % 256)) out)
    (hknown : ∀ t ∈ out, t ∈ s.known) (hactive : ∀ t ∈ out, (s.mem t).state = .active)
    (hnear : ∀ t ∈ out, s.jiffies < (s.mem t).expires ∧ (s.mem t).expires < s.jiffies + 256) :
    ∃ s' B', cascade 0 s = some s' ∧ Same s s' ∧ Repr s' B' [] := by
  obtain ⟨s', B', hs', hsame, hrepr'⟩ := cascadeLoop_spec hrepr hlist.chained
    (hlist.nodup.subperm hknown).length_le hlist.nodup hknown hactive fun t ht => by
      obtain ⟨hlo, hhi⟩ := hnear t ht
      exact placed_calcIndex hlo (show (s.mem t).expires < s.jiffies + 65536 by omega)
        fun hfar => absurd hfar (show ¬ s.jiffies + 256 ≤ (s.mem t).expires by omega)
  exact ⟨s', B', hs', ⟨hsame.fields, hsame.jiffies, hsame.known, hsame.events⟩, hrepr'⟩

/-- A tick returns, and runs the callbacks of exactly the timers that expire with it. -/
theorem timerTick_spec (h : Repr s B []) (hone : ∀ t, (s.mem t).state = .active → (s.mem t).oneshot = true) :
    ∃ s' ran B', timerTick s = some s' ∧ Ticks s s' ran ∧ Repr s' B' [] := by
  obtain ⟨s₁, hs₁, hmem₁, hexp₁, hlists₁, hj₁, hk₁, he₁⟩ := expire_spec h hone ((s.jiffies + 1) % 256)
  have hran (t : ℕ) : t ∈ B 0 ((s.jiffies + 1) % 256) ↔
      (s.mem t).state = .active ∧ (s.mem t).expires = s.jiffies + 1 := by
    constructor
    · exact fun ht => ⟨h.active _ _ t ht, expires_of_placed (h.placed _ _ t ht)⟩
    · rintro ⟨hact, hexp⟩
      obtain ⟨l, i, hli⟩ := h.linked t hact List.not_mem_nil
      obtain ⟨rfl, rfl⟩ := placed_of_expires (h.placed l i t hli) hexp
      exact hli
  -- what the cascade leaves, if there is one
  obtain ⟨s₂, B', hs₂, hsame, hrepr⟩ : ∃ s₂ B', (if (s.jiffies + 1) % 256 = 0 then cascade 0 s₁ else some s₁) =
      some s₂ ∧ Same s₁ s₂ ∧ Repr s₂ B' [] := by
    by_cases hcarry : (s.jiffies + 1) % 256 = 0
    · obtain ⟨i, hi⟩ : ∃ i, i = (s.jiffies + 1) / 256 % 256 := ⟨_, rfl⟩
      have hsame {y : ℕ} (hy : y ∈ B 1 i) : s₁.mem y = s.mem y :=
        hmem₁ y fun hy' => absurd (h.one _ _ _ _ y hy hy').1 (by decide)
      have hhead : s₁.lists 1 i = s.lists 1 i := by
        rw [hlists₁, if_neg]
        exact fun heq => absurd heq.1 (by decide)
      have htaken := @Repr.taken _ (s₁.setList 1 i none) _ h hmem₁ hexp₁
        (fun l' i' htaken => by
          change (if l' = 1 ∧ i' = i then none else s₁.lists l' i') = none
          rcases htaken with htaken | ⟨-, rfl, rfl⟩
          · rw [hlists₁, if_pos htaken, ite_self]
          · exact if_pos ⟨rfl, hi.symm⟩)
        (fun l' i' hnot => by
          change (if l' = 1 ∧ i' = i then none else s₁.lists l' i') = _
          rw [if_neg fun heq => hnot (.inr ⟨hcarry, heq.1, heq.2.trans hi⟩), hlists₁, if_neg fun heq => hnot (.inl heq)])
        hj₁ hk₁
      rw [if_pos hcarry, ← hi] at htaken
      rw [if_pos hcarry]
      refine cascade_spec (by rw [hj₁, ← hi]; exact htaken) ?_ (fun t ht => hk₁ ▸ h.known 1 i t ht) (fun t ht => ?_)
        fun t ht => ?_
      · rw [hj₁, ← hi, hhead]
        exact (h.list 1 i).congr (fun y hy => by rw [hsame hy]) fun y hy => by rw [hsame hy]
      · rw [hsame ht]
        exact h.active 1 i t ht
      · rw [hsame ht, hj₁]
        exact placed_of_carries (h.placed 1 i t ht) ⟨hcarry, rfl, hi⟩
    · have htaken := h.taken hmem₁ hexp₁
        (fun l' i' htaken => by
          rw [hlists₁, if_pos]
          exact htaken.resolve_right fun heq => hcarry heq.1)
        (fun l' i' hnot => by rw [hlists₁, if_neg fun heq => hnot (.inl heq)]) hj₁ hk₁
      rw [if_neg hcarry] at htaken
      exact ⟨s₁, _, if_neg hcarry, ⟨fun y => ⟨rfl, rfl, rfl⟩, rfl, rfl, rfl⟩, htaken⟩
  have hlevel := expireLevel0_eq (s := { s with jiffies := s.jiffies + 1 }) hs₁ hs₂
  have htick : timerTick s =
      some { s₂ with events := s₂.events ++ [.tick (B 0 ((s.jiffies + 1) % 256))] } := by
    rw [timerTick, hlevel]
    rfl
  refine ⟨_, _, B', htick, ⟨(h.list _ _).nodup, hran, fun y hy => ?_, fun y hy => ?_, ?_, ?_⟩,
    hrepr.of_out (fun y _ => rfl) rfl rfl fun y hy => hy⟩
  · have hfields := hsame.fields y
    rw [hmem₁ y hy] at hfields
    exact hfields
  · exact (hsame.fields y).2.1.trans (hexp₁ y hy)
  · exact hsame.jiffies.trans hj₁
  · change s₂.events ++ _ = _
    rw [hsame.events, he₁]

/-! ## Adding, changing and deleting -/

/-- Making a timer one of those that run once keeps the lists. -/
theorem Repr.oneshot (h : Repr s B out) {f : Bool}
    (hmem : ∀ y, s'.mem y = if y = t then { s.mem t with oneshot := f } else s.mem y) (hlists : s'.lists = s.lists)
    (hjiffies : s'.jiffies = s.jiffies) (hknown : s'.known = s.known) : Repr s' B out := by
  have hlinks (y : ℕ) : (s'.mem y).next = (s.mem y).next ∧ (s'.mem y).prev = (s.mem y).prev ∧
      (s'.mem y).expires = (s.mem y).expires ∧ (s'.mem y).state = (s.mem y).state := by
    rw [hmem]
    split_ifs with hy
    · subst hy
      exact ⟨rfl, rfl, rfl, rfl⟩
    · exact ⟨rfl, rfl, rfl, rfl⟩
  refine ⟨fun l i => ?_, fun l i y hy => ?_, fun l i y hy => ?_, fun l i y hy => ?_, h.one, h.apart, fun y hy hyout => ?_⟩
  · rw [hlists]
    exact (h.list l i).congr (fun y _ => (hlinks y).1) fun y _ => (hlinks y).2.1
  · rw [(hlinks y).2.2.2]
    exact h.active l i y hy
  · rw [(hlinks y).2.2.1, hjiffies]
    exact h.placed l i y hy
  · rw [hknown]
    exact h.known l i y hy
  · rw [(hlinks y).2.2.2] at hy
    exact h.linked y hy hyout

/-- A delay that level 0 or level 1 can hold, and that level 1 brings down in time. -/
def Near (now ticks : ℕ) : Prop := ticks < 65536 ∧ (256 ≤ ticks → (now + ticks) % 256 ≠ 0)

theorem placed_of_near {now ticks : ℕ} (h : Near now ticks) (hpos : 0 < ticks) :
    Placed now (now + ticks) (calcIndex (now + ticks) now).1 (calcIndex (now + ticks) now).2 :=
  placed_calcIndex (by omega) (Nat.add_lt_add_left h.1 now) fun hfar => h.2 (by omega)

theorem msToJiffies_pos (ms : ℕ) : 0 < msToJiffies ms := by
  unfold msToJiffies
  split_ifs <;> omega

/-- What putting a timer on the wheel, with a new expiry, changes. -/
structure Puts (s s' : State) (t ticks : ℕ) : Prop where
  others : ∀ y, y ≠ t → (s'.mem y).expires = (s.mem y).expires ∧ (s'.mem y).state = (s.mem y).state ∧
    (s'.mem y).oneshot = (s.mem y).oneshot
  expires : (s'.mem t).expires = s.jiffies + ticks
  active : (s'.mem t).state = .active
  jiffies : s'.jiffies = s.jiffies

theorem timerAddOneshot_spec (h : Repr s B []) {ms : ℕ} (ht : (s.mem t).state ≠ .active)
    (hnear : Near s.jiffies (msToJiffies ms)) :
    ∃ s' B', timerAddOneshot t ms s = some s' ∧ Puts s s' t (msToJiffies ms) ∧ (s'.mem t).oneshot = true ∧
      s'.events = s.events ++ [.add t (msToJiffies ms)] ∧ Repr s' B' [] := by
  obtain ⟨s₁, hs₁⟩ : ∃ s₁ : State, s₁ = { s.setTimer t ⟨none, none, s.jiffies + msToJiffies ms, .inactive, false⟩ with
      known := t :: s.known } := ⟨_, rfl⟩
  have hmem (y : ℕ) : s₁.mem y =
      if y = t then ⟨none, none, s.jiffies + msToJiffies ms, .inactive, false⟩ else s.mem y := by
    rw [hs₁]
    exact Function.update_apply ..
  have hother {y : ℕ} (hy : y ≠ t) : s₁.mem y = s.mem y := (hmem y).trans (if_neg hy)
  have hexp : (s₁.mem t).expires = s.jiffies + msToJiffies ms := by rw [hmem, if_pos rfl]
  have hj : s₁.jiffies = s.jiffies := by rw [hs₁]; rfl
  have hrepr : Repr s₁ B [t] :=
    (h.take ht).of_out (fun y hy => hother fun heq => hy (List.mem_singleton.mpr heq)) (by rw [hs₁]; rfl) hj
      fun y hy => by rw [hs₁]; exact List.mem_cons_of_mem t hy
  obtain ⟨s₂, hs₂, ho, hact, hrepr₂, -⟩ := enqueue_spec hrepr List.not_mem_nil (by rw [hs₁]; exact List.mem_cons_self)
    (by
      rw [hexp, hj]
      exact placed_of_near hnear (msToJiffies_pos ms))
  obtain ⟨s₃, hs₃⟩ : ∃ s₃ : State, s₃ = { s₂.setTimer t { s₂.mem t with oneshot := true } with
      events := s₂.events ++ [.add t (msToJiffies ms)] } := ⟨_, rfl⟩
  have hmem₃ (y : ℕ) : s₃.mem y = if y = t then { s₂.mem t with oneshot := true } else s₂.mem y := by
    rw [hs₃]
    exact Function.update_apply ..
  refine ⟨s₃, _, ?_, ⟨fun y hy => ?_, ?_, ?_, ?_⟩, ?_, ?_, hrepr₂.oneshot hmem₃ (by rw [hs₃]; rfl) (by rw [hs₃]; rfl)
    (by rw [hs₃]; rfl)⟩
  · have hadd : timerAdd t ms s = some s₂ := by
      rw [← hs₂, hs₁]
      rfl
    rw [timerAddOneshot, hadd, hs₃]
    rfl
  · rw [hmem₃, if_neg hy, ← hother hy]
    exact ho.fields y hy
  · rw [hmem₃, if_pos rfl]
    exact ho.expires.trans hexp
  · rw [hmem₃, if_pos rfl]
    exact hact
  · rw [hs₃]
    exact ho.jiffies.trans hj
  · rw [hmem₃, if_pos rfl]
  · rw [hs₃]
    change s₂.events ++ _ = _
    rw [ho.events, hs₁]
    rfl

theorem timerMod_spec (h : Repr s B []) {ms : ℕ} (ht : (s.mem t).state = .active) (hin : Inside s t)
    (hnear : Near s.jiffies (msToJiffies ms)) :
    ∃ s' B', timerMod t ms s = some s' ∧ Puts s s' t (msToJiffies ms) ∧ (s'.mem t).oneshot = (s.mem t).oneshot ∧
      s'.events = s.events ++ [.mod t (msToJiffies ms)] ∧ Repr s' B' [] := by
  obtain ⟨s₁, hs₁, ho₁, hst₁, hrepr₁⟩ := dequeue_spec h ht hin
  obtain ⟨s₂, hs₂⟩ : ∃ s₂, s₂ = s₁.setTimer t { s₁.mem t with expires := s₁.jiffies + msToJiffies ms } := ⟨_, rfl⟩
  have hmem (y : ℕ) : s₂.mem y = if y = t then { s₁.mem t with expires := s₁.jiffies + msToJiffies ms }
      else s₁.mem y := by
    rw [hs₂]
    exact Function.update_apply ..
  have hother {y : ℕ} (hy : y ≠ t) : s₂.mem y = s₁.mem y := (hmem y).trans (if_neg hy)
  have hexp : (s₂.mem t).expires = s.jiffies + msToJiffies ms := by
    rw [hmem, if_pos rfl]
    change s₁.jiffies + _ = _
    rw [ho₁.jiffies]
  have hj : s₂.jiffies = s.jiffies := by
    rw [hs₂]
    exact ho₁.jiffies
  have hrepr₂ : Repr s₂ (without B t) [t] :=
    hrepr₁.of_out (fun y hy => hother fun heq => hy (List.mem_singleton.mpr heq)) (by rw [hs₂]; rfl)
      (hj.trans ho₁.jiffies.symm) fun y hy => by rw [hs₂]; exact hy
  obtain ⟨l, i, hli⟩ := h.linked t ht List.not_mem_nil
  obtain ⟨s₃, hs₃, ho, hact, hrepr₃, -⟩ := enqueue_spec hrepr₂ List.not_mem_nil
    (by
      rw [hs₂]
      exact ho₁.known ▸ h.known l i t hli)
    (by
      rw [hexp, hj]
      exact placed_of_near hnear (msToJiffies_pos ms))
  refine ⟨{ s₃ with events := s₃.events ++ [.mod t (msToJiffies ms)] }, _, ?_, ⟨fun y hy => ?_,
    ho.expires.trans hexp, hact, ho.jiffies.trans hj⟩, ?_, ?_, hrepr₃.of_out (fun y _ => rfl) rfl rfl fun y hy => hy⟩
  · unfold timerMod
    rw [if_neg (not_not.mpr ht), hs₁, Option.bind_some]
    dsimp only
    rw [← hs₂, hs₃]
    rfl
  · have hfields := ho.fields y hy
    rw [hother hy] at hfields
    obtain ⟨he, hs, hos⟩ := ho₁.fields y hy
    exact ⟨hfields.1.trans he, hfields.2.1.trans hs, hfields.2.2.trans hos⟩
  · refine ho.oneshot.trans ?_
    rw [hmem, if_pos rfl]
    exact ho₁.oneshot
  · change s₃.events ++ _ = _
    rw [ho.events, hs₂]
    change s₁.events ++ _ = _
    rw [ho₁.events]

theorem timerDel_spec (h : Repr s B []) (ht : (s.mem t).state = .active) (hin : Inside s t) :
    ∃ s', timerDel t s = some s' ∧ Others t s { s' with events := s.events } ∧ (s'.mem t).state = .inactive ∧
      s'.events = s.events ++ [.del t] ∧ Repr s' (without B t) [] := by
  obtain ⟨s₁, hs₁, ho, hst, hrepr⟩ := dequeue_spec h ht hin
  refine ⟨{ s₁ with events := s₁.events ++ [.del t] }, ?_, ⟨ho.fields, ho.expires, ho.oneshot, ho.jiffies, ho.known, rfl⟩,
    hst, ?_, ?_⟩
  · unfold timerDel
    rw [if_neg (not_not.mpr ht), hs₁]
    rfl
  · change s₁.events ++ _ = _
    rw [ho.events]
  · refine (hrepr.forget ?_).of_out (fun y _ => rfl) rfl rfl fun y hy => hy
    rw [hst]
    decide

end Timer

/-!
## Runs of the wheel
-/

namespace Timer

open Run DList

variable {s s' : State} {t : ℕ}

/-- The condition on a call: a timer that is changed or deleted has one before it and one behind it on its list,
and a new expiry is near and is not the first tick that level 1 comes down with. -/
def Fine (s : State) : Call → Prop
  | .add _ ms => Near s.jiffies (msToJiffies ms)
  | .mod t ms => (s.mem t).state = .active → Inside s t ∧ Near s.jiffies (msToJiffies ms)
  | .del t => (s.mem t).state = .active → Inside s t
  | .tick => True

/-- The timers that wait. -/
def State.pending (s : State) (t : ℕ) : Option ℕ := if (s.mem t).state = .active then some (s.mem t).expires else none

theorem pending_eq_some {e : ℕ} : s.pending t = some e ↔ (s.mem t).state = .active ∧ (s.mem t).expires = e := by
  unfold State.pending
  split_ifs with h
  · simp [h]
  · simp [h]

theorem pending_eq_none : s.pending t = none ↔ (s.mem t).state ≠ .active := by
  unfold State.pending
  split_ifs with h
  · simp [h]
  · simp [h]

theorem pending_congr (he : (s'.mem t).expires = (s.mem t).expires) (hs : (s'.mem t).state = (s.mem t).state) :
    s'.pending t = s.pending t := by
  unfold State.pending
  rw [he, hs]

theorem Puts.pending {ticks : ℕ} (h : Puts s s' t ticks) :
    s'.pending = Function.update s.pending t (some (s.jiffies + ticks)) := by
  funext y
  by_cases hy : y = t
  · subst hy
    rw [Function.update_self]
    exact pending_eq_some.mpr ⟨h.active, h.expires⟩
  · rw [Function.update_of_ne hy]
    obtain ⟨he, hs, -⟩ := h.others y hy
    exact pending_congr he hs

theorem Ticks.pending {ran : List ℕ} (h : Ticks s s' ran) :
    s'.pending = fun t => if t ∈ ran then none else s.pending t := by
  funext y
  by_cases hy : y ∈ ran
  · rw [if_pos hy, pending_eq_none, h.expired y hy]
    decide
  · rw [if_neg hy]
    obtain ⟨he, hs, -⟩ := h.others y hy
    exact pending_congr he hs

/-- What every run keeps. -/
structure Inv (s : State) : Prop where
  lists : ∃ B, Repr s B []
  oneshot : ∀ t, (s.mem t).state = .active → (s.mem t).oneshot = true
  history : History s.events s.pending s.jiffies

theorem inv_start {mem : ℕ → TimerEntry} (h : ∀ t, (mem t).state ≠ .active) : Inv (start mem) := by
  have hpending : (start mem).pending = fun _ => none := funext fun t => pending_eq_none.mpr (h t)
  refine ⟨⟨fun _ _ => [], ⟨fun _ _ => .nil, ?_, ?_, ?_, ?_, ?_, ?_⟩⟩, fun t ht => absurd ht (h t), ?_⟩
  · exact fun _ _ _ hmem => absurd hmem List.not_mem_nil
  · exact fun _ _ _ hmem => absurd hmem List.not_mem_nil
  · exact fun _ _ _ hmem => absurd hmem List.not_mem_nil
  · exact fun _ _ _ _ _ hmem _ => absurd hmem List.not_mem_nil
  · exact fun _ _ _ hmem => absurd hmem List.not_mem_nil
  · exact fun t ht => absurd ht (h t)
  · rw [hpending]
    exact .start

/-- A call that meets the condition returns and keeps the invariant. -/
theorem step_spec (h : Inv s) (c : Call) (hadd : ∀ t ms, c = .add t ms → (s.mem t).state ≠ .active) (hc : Fine s c) :
    ∃ s', step s c = some s' ∧ Inv s' := by
  obtain ⟨⟨B, hB⟩, hone, hhist⟩ := h
  cases c with
  | add t ms =>
    have ht := hadd t ms rfl
    obtain ⟨s', B', hs', hputs, hos, hev, hrepr⟩ := timerAddOneshot_spec hB ht hc
    refine ⟨s', (if_neg ht).trans hs', ⟨B', hrepr⟩, fun y hy => ?_, ?_⟩
    · by_cases hyt : y = t
      · rw [hyt]
        exact hos
      · obtain ⟨-, hst, ho⟩ := hputs.others y hyt
        exact ho.trans (hone y (hst ▸ hy))
    · rw [hev, hputs.pending, hputs.jiffies]
      exact hhist.snoc (.add t _ (pending_eq_none.mpr ht))
  | mod t ms =>
    by_cases ht : (s.mem t).state = .active
    · obtain ⟨hin, hnear⟩ := hc ht
      obtain ⟨s', B', hs', hputs, hos, hev, hrepr⟩ := timerMod_spec hB ht hin hnear
      refine ⟨s', hs', ⟨B', hrepr⟩, fun y hy => ?_, ?_⟩
      · by_cases hyt : y = t
        · rw [hyt]
          exact hos.trans (hone t ht)
        · obtain ⟨-, hst, ho⟩ := hputs.others y hyt
          exact ho.trans (hone y (hst ▸ hy))
      · rw [hev, hputs.pending, hputs.jiffies]
        exact hhist.snoc (.mod t _ fun hnone => pending_eq_none.mp hnone ht)
    · exact ⟨s, if_pos ht, ⟨B, hB⟩, hone, hhist⟩
  | del t =>
    by_cases ht : (s.mem t).state = .active
    · obtain ⟨s', hs', ho, hst, hev, hrepr⟩ := timerDel_spec hB ht (hc ht)
      have hpending : s'.pending = Function.update s.pending t none := by
        funext y
        by_cases hyt : y = t
        · subst hyt
          rw [Function.update_self, pending_eq_none, hst]
          decide
        · rw [Function.update_of_ne hyt]
          obtain ⟨he, hs, -⟩ := ho.fields y hyt
          exact pending_congr he hs
      refine ⟨s', hs', ⟨_, hrepr⟩, fun y hy => ?_, ?_⟩
      · by_cases hyt : y = t
        · rw [hyt, hst] at hy
          exact absurd hy (by decide)
        · obtain ⟨-, hsame, hos⟩ := ho.fields y hyt
          exact hos.trans (hone y (hsame ▸ hy))
      · have hj : s'.jiffies = s.jiffies := ho.jiffies
        rw [hev, hpending, hj]
        exact hhist.snoc (.del t fun hnone => pending_eq_none.mp hnone ht)
    · exact ⟨s, if_pos ht, ⟨B, hB⟩, hone, hhist⟩
  | tick =>
    obtain ⟨s', ran, B', hs', hticks, hrepr⟩ := timerTick_spec hB hone
    refine ⟨s', hs', ⟨B', hrepr⟩, fun y hy => ?_, ?_⟩
    · by_cases hyran : y ∈ ran
      · rw [hticks.expired y hyran] at hy
        exact absurd hy (by decide)
      · obtain ⟨-, hst, hos⟩ := hticks.others y hyran
        exact hos.trans (hone y (hst ▸ hy))
    · rw [hticks.events, hticks.pending, hticks.jiffies]
      exact hhist.snoc (.tick ran hticks.nodup fun t => (hticks.due t).trans pending_eq_some.symm)

/-- From a wheel without timers, in every run of calls that meet the condition: the callbacks run by the schedule,
every active timer is linked in exactly one list, and the next call that meets the condition returns. -/
theorem timer_wheel (mem : ℕ → TimerEntry) (hmem : ∀ t, (mem t).state ≠ .active) (s : State)
    (hrun : Reach step Fine (start mem) s) :
    History s.events s.pending s.jiffies ∧
    (∀ t, (s.mem t).state = .active → ∃! list : ℕ × ℕ,
      Reaches (fun t => (s.mem t).next) (s.lists list.1 list.2) t) ∧
    ∀ c, (∀ t ms, c = .add t ms → (s.mem t).state ≠ .active) → Fine s c → ∃ s', step s c = some s' := by
  have hinv : Inv s := by
    refine hrun.invariant (inv_start hmem) fun s c s' hs hc hstep => ?_
    obtain ⟨s₁, hs₁, hinv⟩ := step_spec hs c (fun t ms heq ht => by
      subst heq
      simp [step, ht] at hstep) hc
    rw [hs₁] at hstep
    exact Option.some.inj hstep ▸ hinv
  obtain ⟨B, hB⟩ := hinv.lists
  refine ⟨hinv.history, fun t ht => ?_, fun c hadd hc => ?_⟩
  · obtain ⟨l, i, hli⟩ := hB.linked t ht List.not_mem_nil
    refine ⟨(l, i), (hB.list l i).reaches_iff.mpr hli, ?_⟩
    rintro ⟨l', i'⟩ hr
    obtain ⟨hl, hi⟩ := hB.one l' i' l i t ((hB.list l' i').reaches_iff.mp hr) hli
    exact Prod.ext hl hi
  · obtain ⟨s', hs', -⟩ := step_spec hinv c hadd hc
    exact ⟨s', hs'⟩

/-- Timers that were never used. -/
def blank : ℕ → TimerEntry := fun _ => ⟨none, none, 0, .inactive, false⟩

theorem timer_wheel_three : ∃ s, run step (start blank) [.add 1 5, .add 2 5, .add 3 5] = some s ∧
    History s.events s.pending s.jiffies := by
  obtain ⟨s₁, hs₁⟩ : ∃ s₁, step (start blank) (.add 1 5) = some s₁ := ⟨_, rfl⟩
  obtain ⟨s₂, hs₂⟩ : ∃ s₂, step s₁ (.add 2 5) = some s₂ := by
    obtain rfl := Option.some.inj hs₁
    exact ⟨_, rfl⟩
  obtain ⟨s₃, hs₃⟩ : ∃ s₃, step s₂ (.add 3 5) = some s₃ := by
    obtain rfl := Option.some.inj hs₁
    obtain rfl := Option.some.inj hs₂
    exact ⟨_, rfl⟩
  have hfine (s : State) (t : ℕ) : Fine s (.add t 5) := ⟨by decide, fun h => absurd h (by decide)⟩
  refine ⟨s₃, ?_, (timer_wheel blank (fun t => nofun) s₃
    (.step (.add 3 5) (.step (.add 2 5) (.step (.add 1 5) .start (hfine _ _) hs₁) (hfine _ _) hs₂)
      (hfine _ _) hs₃)).1⟩
  rw [run_cons hs₁, run_cons hs₂, run_cons hs₃, run_nil]

/-- A timer alone on its list is active and cannot be deleted: a null link is followed. -/
theorem timerDel_faults : ∃ s, run step (start blank) [.add 1 5] = some s ∧ (s.mem 1).state = .active ∧
    step s (.del 1) = none := ⟨_, rfl, rfl, rfl⟩

end Timer
