import Kenux.Ipc.Model

/-!
# When the ring is a mailbox
-/

namespace Ipc

open Memory Run

variable {r : Ring} {current source i n : ℕ}

/-- The messages from the head on. -/
def contents (r : Ring) : List Message := (List.range r.count).map r.at

@[simp] theorem length_contents : (contents r).length = r.count := by simp [contents]

theorem getElem_contents (h : i < (contents r).length) : (contents r)[i] = r.at i := by simp [contents]

/-! ## The search -/

theorem search_some {k : ℕ} (h : search current source r i n = some k) :
    i ≤ k ∧ k < i + n ∧ Matches current source (r.at k) ∧ ∀ l, i ≤ l → l < k → ¬ Matches current source (r.at l) := by
  induction n generalizing i with
  | zero => exact nomatch h
  | succ n ih =>
    unfold search at h
    split_ifs at h with hm
    · obtain rfl := Option.some.inj h
      exact ⟨le_refl i, by omega, hm, fun l hl hlt => absurd hlt (by omega)⟩
    · obtain ⟨hle, hlt, hk, hfirst⟩ := ih h
      refine ⟨by omega, by omega, hk, fun l hl hlk => ?_⟩
      by_cases hil : l = i
      · exact hil ▸ hm
      · exact hfirst l (by omega) hlk

theorem search_none (h : search current source r i n = none) :
    ∀ l, i ≤ l → l < i + n → ¬ Matches current source (r.at l) := by
  induction n generalizing i with
  | zero => exact fun l hl hlt => absurd hlt (by omega)
  | succ n ih =>
    unfold search at h
    split_ifs at h with hm
    intro l hl hlt
    by_cases hil : l = i
    · exact hil ▸ hm
    · exact ih h l (by omega) (by omega)

/-! ## What the calls do to the contents -/

/-- The entry behind the last one is where a send puts the message. -/
theorem contents_send {msg : Message} (hcount : r.count < ipcMaxMessages)
    (htail : r.tail = (r.head + r.count) % ipcMaxMessages) :
    contents { r with
      buffer := Function.update r.buffer r.tail msg
      tail := (r.tail + 1) % ipcMaxMessages
      count := r.count + 1 } = contents r ++ [msg] := by
  unfold contents
  rw [List.range_succ, List.map_append]
  congr 1
  · apply List.map_congr_left
    intro i hi
    have hi := List.mem_range.mp hi
    dsimp only [Ring.at]
    apply Function.update_of_ne
    rw [htail]
    unfold ipcMaxMessages at hcount ⊢
    omega
  · dsimp only [List.map_singleton, Ring.at]
    rw [htail, Function.update_self]

/-- The last message is put where the message was that is received. -/
theorem contents_receive (hi : i < r.count) (hcount : r.count ≤ ipcMaxMessages) :
    contents { r with
      buffer :=
        if (r.head + i) % ipcMaxMessages ≠ (r.head + r.count - 1) % ipcMaxMessages then
          Function.update r.buffer ((r.head + i) % ipcMaxMessages)
            (r.buffer ((r.head + r.count - 1) % ipcMaxMessages))
        else r.buffer
      count := r.count - 1 } = ((contents r).set i (r.at (r.count - 1))).dropLast := by
  apply List.ext_getElem
  · simp
  · intro k hk hk'
    rw [getElem_contents, List.getElem_dropLast, List.getElem_set, getElem_contents]
    rw [length_contents] at hk
    dsimp only at hk
    unfold Ring.at ipcMaxMessages at *
    dsimp only
    have hlast : r.head + (r.count - 1) = r.head + r.count - 1 := by omega
    rw [hlast]
    split_ifs with hne hik hik
    · exact hik ▸ Function.update_self ..
    · exact Function.update_of_ne (by omega) ..
    · exact absurd hik (by omega)
    · rfl

theorem set_dropLast {α : Type*} {c₁ c₂ : List α} {m l : α} :
    ((c₁ ++ m :: c₂ ++ [l]).set c₁.length l).dropLast = c₁ ++ l :: c₂ := by
  rw [List.append_assoc, List.set_append_right _ _ (le_refl _), Nat.sub_self, List.cons_append, List.set_cons_zero,
    ← List.cons_append, ← List.append_assoc, List.dropLast_concat]

/-! ## The invariant -/

/-- The calls that the ring serves as a mailbox. An accepted message is put behind the last entry, and when a message
is received, no entry between it and the last one has the source and the destination of the last one. -/
def Serves (s : State) : Call → Prop
  | .send _ _ _ _ size => size ≤ ipcMaxSize → s.ring.count < ipcMaxMessages →
      s.ring.tail = (s.ring.head + s.ring.count) % ipcMaxMessages
  | .receive current source _ => ∀ i k, Matches current source (s.ring.at i) → i < k → k + 1 < s.ring.count →
      ¬ SamePair (s.ring.at k) (s.ring.at (s.ring.count - 1))

/-- The entries are the messages of the mailbox, those of one source and destination in the same order. -/
structure SameMessages (q c : List Message) : Prop where
  perm : q.Perm c
  order : ∀ m, q.filter (fun m' => SamePair m' m) = c.filter fun m' => SamePair m' m

theorem SameMessages.append {q c : List Message} (h : SameMessages q c) (m : Message) :
    SameMessages (q ++ [m]) (c ++ [m]) :=
  ⟨h.perm.append_right _, fun m' => by rw [List.filter_append, List.filter_append, h.order]⟩

/-- The message that stands first among those of its pair is the first of its pair in the mailbox. -/
theorem SameMessages.split {q c₁ c₂ : List Message} {m : Message} (h : SameMessages q (c₁ ++ m :: c₂))
    (hfirst : ∀ m' ∈ c₁, ¬ SamePair m' m) : ∃ l₁ l₂, q = l₁ ++ m :: l₂ ∧ (∀ m' ∈ l₁, ¬ SamePair m' m) ∧
      SameMessages (l₁ ++ l₂) (c₁ ++ c₂) := by
  have hpair : SamePair m m := ⟨rfl, rfl⟩
  have hnil : c₁.filter (fun m' => SamePair m' m) = [] :=
    List.filter_eq_nil_iff.mpr fun m' hm' => by simpa using hfirst m' hm'
  have horder := h.order m
  rw [List.filter_append, hnil, List.nil_append, List.filter_cons_of_pos (by simpa using hpair)] at horder
  obtain ⟨l₁, l₂, rfl, hl₁, -, hl₂⟩ := List.filter_eq_cons_iff.mp horder
  have hl₁' : ∀ m' ∈ l₁, ¬ SamePair m' m := fun m' hm' => by simpa using hl₁ m' hm'
  refine ⟨l₁, l₂, rfl, hl₁', ?_, fun m' => ?_⟩
  · have hperm := (List.perm_middle.symm.trans h.perm).trans List.perm_middle
    exact hperm.cons_inv
  · by_cases hm' : SamePair m m'
    · have hsame : (fun x => decide (SamePair x m')) = fun x => decide (SamePair x m) := by
        funext x
        exact decide_eq_decide.mpr (by rw [SamePair, SamePair, hm'.1, hm'.2])
      rw [hsame, List.filter_append, List.filter_append, hl₂, hnil,
        List.filter_eq_nil_iff.mpr fun x hx => by simpa using hl₁' x hx]
    · have := h.order m'
      simpa [List.filter_append, List.filter_cons, hm'] using this

/-- An entry may be moved before entries of other pairs. -/
theorem SameMessages.move {q c₁ c₂ : List Message} {l : Message} (h : SameMessages q (c₁ ++ (c₂ ++ [l])))
    (hpair : ∀ m ∈ c₂, ¬ SamePair m l) : SameMessages q (c₁ ++ l :: c₂) := by
  refine ⟨h.perm.trans ((List.perm_append_singleton l c₂).append_left c₁), fun m => ?_⟩
  rw [h.order, List.filter_append, List.filter_append, List.filter_append]
  congr 1
  by_cases hl : SamePair l m
  · have hnil : c₂.filter (fun m' => SamePair m' m) = [] := by
      refine List.filter_eq_nil_iff.mpr fun m' hm' heq => hpair m' hm' ?_
      have heq : SamePair m' m := by simpa using heq
      exact ⟨heq.1.trans hl.1.symm, heq.2.trans hl.2.symm⟩
    simp [hnil, hl]
  · simp [hl]

/-- The ring is a mailbox that has seen the history. -/
def Serving (s : State) : Prop :=
  s.ring.count ≤ ipcMaxMessages ∧ ∃ q, History s.events q ∧ SameMessages q (contents s.ring)

theorem serving_send {s : State} (h : Serving s) (current destination type : ℕ) (data : Option Mem) (size : ℕ)
    (hok : Serves s (.send current destination type data size)) :
    Serving ⟨(ipcSend current destination type data size s.ring).2,
      s.events ++ [.send current destination type data size (ipcSend current destination type data size s.ring).1]⟩ := by
  obtain ⟨hcount, q, hq, hsame⟩ := h
  have hlen : q.length = s.ring.count := hsame.perm.length_eq.trans length_contents
  unfold ipcSend
  split_ifs with hsize hfull
  · exact ⟨hcount, q, hq.snoc (.refuse (.inl hsize)), hsame⟩
  · exact ⟨hcount, q, hq.snoc (.refuse (.inr (by omega))), hsame⟩
  · have htail := hok (by omega) (by omega)
    refine ⟨by dsimp only; omega, _, hq.snoc (.accept (copyIn (s.ring.buffer s.ring.tail).data data size) (by omega)
      (by omega) fun d hd o ho => ?_), ?_⟩
    · subst hd
      exact if_pos ho
    · dsimp only
      rw [contents_send (by omega) htail]
      exact hsame.append _

theorem serving_receive {s : State} (h : Serving s) (current source : ℕ) (p : Pointers)
    (hok : Serves s (.receive current source p)) :
    Serving ⟨(ipcReceive current source p s.ring).2,
      s.events ++ [.receive current source p (ipcReceive current source p s.ring).1]⟩ := by
  obtain ⟨hcount, q, hq, hsame⟩ := h
  unfold ipcReceive
  cases hsearch : search current source s.ring 0 s.ring.count with
  | none =>
    refine ⟨hcount, q, hq.snoc (.nothing fun m hm => ?_), hsame⟩
    obtain ⟨i, hi, rfl⟩ := List.mem_map.mp (hsame.perm.mem_iff.mp hm)
    have hi := List.mem_range.mp hi
    exact search_none hsearch i (by omega) (by omega)
  | some i =>
    obtain ⟨-, hi, hm, hfirst⟩ := search_some hsearch
    rw [Nat.zero_add] at hi
    have hlen : i < (contents s.ring).length := by rwa [length_contents]
    obtain ⟨c₁, hc₁⟩ : ∃ c₁, c₁ = (contents s.ring).take i := ⟨_, rfl⟩
    obtain ⟨c₂, hc₂⟩ : ∃ c₂, c₂ = (contents s.ring).drop (i + 1) := ⟨_, rfl⟩
    have hcontents : contents s.ring = c₁ ++ s.ring.at i :: c₂ := by
      rw [hc₁, hc₂, ← getElem_contents hlen, List.getElem_cons_drop, List.take_append_drop]
    have hlen₁ : c₁.length = i := by
      rw [hc₁, List.length_take]
      omega
    rw [hcontents] at hsame
    obtain ⟨l₁, l₂, rfl, hl₁, hrest⟩ := hsame.split (by
      intro m' hm' hpair
      rw [hc₁] at hm'
      obtain ⟨k, hk, rfl⟩ := List.mem_iff_getElem.mp hm'
      rw [List.length_take] at hk
      rw [List.getElem_take, getElem_contents] at hpair
      refine hfirst k (by omega) (by omega) ⟨hpair.2.trans hm.1, hm.2.imp id fun h => hpair.1.trans h⟩)
    refine ⟨by dsimp only; omega, l₁ ++ l₂, hq.snoc (.deliver hm hl₁), ?_⟩
    dsimp only
    rw [contents_receive hi hcount, hcontents]
    rcases List.eq_nil_or_concat c₂ with rfl | ⟨c₃, l, rfl⟩
    · rw [← hlen₁]
      rw [List.append_nil] at hrest
      simpa using hrest
    · rw [List.concat_eq_append] at hcontents hrest ⊢
      have hget (n : ℕ) (hn : n < s.ring.count) :
          (c₁ ++ s.ring.at i :: (c₃ ++ [l]))[n]? = some (s.ring.at n) := by
        have hn' : n < (contents s.ring).length := by rwa [length_contents]
        rw [← hcontents, List.getElem?_eq_getElem hn', getElem_contents]
      have hcount' : s.ring.count = i + 1 + c₃.length + 1 := by
        rw [← length_contents, hcontents]
        simp [hlen₁]
        omega
      have hlast : s.ring.at (s.ring.count - 1) = l := by
        have h := hget (i + 1 + c₃.length) (by omega)
        rw [List.getElem?_append_right (by omega), hlen₁, show i + 1 + c₃.length - i = c₃.length + 1 by omega,
          List.getElem?_cons_succ, List.getElem?_append_right (le_refl _), Nat.sub_self] at h
        rw [hcount']
        exact (Option.some.inj h).symm
      have hpair : ∀ m' ∈ c₃, ¬ SamePair m' l := by
        intro m' hm'
        obtain ⟨k, hk, rfl⟩ := List.mem_iff_getElem.mp hm'
        have h := hget (i + 1 + k) (by omega)
        rw [List.getElem?_append_right (by omega), hlen₁, show i + 1 + k - i = k + 1 by omega,
          List.getElem?_cons_succ, List.getElem?_append_left hk, List.getElem?_eq_getElem hk] at h
        rw [Option.some.inj h, ← hlast]
        exact hok i (i + 1 + k) hm (by omega) (by omega)
      rw [hlast, ← hlen₁, ← List.cons_append, ← List.append_assoc, set_dropLast]
      exact hrest.move hpair

/-- From the empty ring, in every run of calls that the ring serves as a mailbox, what the calls returned is the
history of a mailbox whose undelivered messages are the entries of the ring. -/
theorem ipc_mailbox (s : State) (hrun : Reach step Serves ⟨ipcInit, []⟩ s) :
    ∃ q, History s.events q ∧ q.Perm (contents s.ring) := by
  have hstart : Serving ⟨ipcInit, []⟩ := ⟨by decide, [], .nil, ⟨.refl _, fun _ => rfl⟩⟩
  have hserving : Serving s := by
    refine hrun.invariant hstart fun s c s' hs hc hstep => ?_
    cases c with
    | send current destination type data size =>
      obtain rfl := Option.some.inj hstep
      exact serving_send hs current destination type data size hc
    | receive current source p =>
      obtain rfl := Option.some.inj hstep
      exact serving_receive hs current source p hc
  obtain ⟨-, q, hq, hsame⟩ := hserving
  exact ⟨q, hq, hsame.perm⟩

/-- A process reads the type of its next message. -/
def readType (current : ℕ) : Call := .receive current anySource ⟨true, false, none⟩

theorem ipc_mailbox_one : ∃ s, run step ⟨ipcInit, []⟩ [.send 1 2 7 none 0, readType 2] = some s ∧
    ∃ q, History s.events q ∧ q.Perm (contents s.ring) := by
  obtain ⟨s₁, hs₁⟩ : ∃ s₁, step ⟨ipcInit, []⟩ (.send 1 2 7 none 0) = some s₁ := ⟨_, rfl⟩
  obtain ⟨s₂, hs₂⟩ : ∃ s₂, step s₁ (readType 2) = some s₂ := ⟨_, rfl⟩
  have hrun : Reach step Serves ⟨ipcInit, []⟩ s₁ := .step (.send 1 2 7 none 0) .start (fun _ _ => rfl) hs₁
  have hserves : Serves s₁ (readType 2) := by
    obtain rfl := Option.some.inj hs₁
    intro i k _ hik hk
    exact absurd hk (Nat.not_lt.mpr (Nat.le_add_left ..))
  refine ⟨s₂, ?_, ipc_mailbox s₂ (.step _ hrun hserves hs₂)⟩
  rw [run_cons hs₁, run_cons hs₂, run_nil]

theorem History.snoc_inv {events : List Event} {e : Event} {q : List Message} (h : History (events ++ [e]) q) :
    ∃ p, History events p ∧ Mailbox p e q := by
  generalize hes : events ++ [e] = es at h
  cases h with
  | nil => simp at hes
  | snoc h he =>
    obtain ⟨rfl, heq⟩ := List.append_inj' hes rfl
    obtain rfl := List.singleton_inj.mp heq
    exact ⟨_, h, he⟩

theorem History.nil_inv {q : List Message} (h : History [] q) : q = [] := by
  generalize hes : [] = es at h
  cases h with
  | nil => rfl
  | snoc => simp at hes

theorem Mailbox.accept_inv {q q' : List Message} {current destination type size : ℕ} {data : Option Mem}
    (h : Mailbox q (.send current destination type data size true) q') :
    ∃ bytes, q' = q ++ [⟨current, destination, type, size, bytes⟩] := by
  cases h with
  | accept bytes => exact ⟨bytes, rfl⟩

theorem Mailbox.deliver_inv {q q' : List Message} {current source : ℕ} {p : Pointers} {reply : Reply}
    (h : Mailbox q (.receive current source p (some reply)) q') :
    ∃ l₁ m l₂, q = l₁ ++ m :: l₂ ∧ q' = l₁ ++ l₂ ∧ reply = replyOf m p := by
  cases h with
  | deliver => exact ⟨_, _, _, rfl, rfl, rfl⟩

/-- After a message was received, the next one is put behind a gap: the receiver gets the first one again. -/
theorem ipc_mailbox_stale : ∃ s, run step ⟨ipcInit, []⟩
      [.send 1 2 7 none 0, readType 2, .send 1 2 8 none 0, readType 2] = some s ∧
    s.events.getLast? = some (.receive 2 anySource ⟨true, false, none⟩ (some ⟨some 7, none, none⟩)) ∧
    ¬ ∃ q, History s.events q := by
  refine ⟨_, rfl, rfl, ?_⟩
  rintro ⟨q₄, h₄⟩
  obtain ⟨q₃, h₃, he₄⟩ := History.snoc_inv h₄
  obtain ⟨q₂, h₂, he₃⟩ := History.snoc_inv h₃
  obtain ⟨q₁, h₁, he₂⟩ := History.snoc_inv h₂
  obtain ⟨q₀, h₀, he₁⟩ := @History.snoc_inv [] _ _ h₁
  obtain rfl := History.nil_inv h₀
  obtain ⟨bytes, rfl⟩ := he₁.accept_inv
  obtain ⟨l₁, m, l₂, hl, rfl, -⟩ := he₂.deliver_inv
  obtain ⟨bytes', hq₃⟩ := he₃.accept_inv
  obtain ⟨k₁, m', k₂, hk, -, hreply⟩ := he₄.deliver_inv
  have hempty : l₁ ++ l₂ = [] := by
    have hlen := congrArg List.length hl
    simp only [List.length_append, List.length_cons, List.length_nil] at hlen
    exact List.eq_nil_of_length_eq_zero (by rw [List.length_append]; omega)
  rw [hempty, List.nil_append] at hq₃
  have hmem : m' ∈ q₃ := hk ▸ List.mem_append_right _ List.mem_cons_self
  rw [hq₃] at hmem
  rw [List.mem_singleton.mp hmem] at hreply
  have htype : 7 = 8 := Option.some.inj (congrArg Reply.type hreply)
  exact absurd htype (by decide)

end Ipc
