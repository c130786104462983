import Kenux.Dns.Proofs.Names

/-!
# Walks along names

A round of the decoder is a step of the walk. Pointers that never come back to where they were run out of positions,
and labels run out of room, so a walk in order ends.
-/

namespace Dns

open Memory Reads Relation

variable {buf : Mem} {len fuel offset p q n : ℕ} {z : Prop} {d d' : Decoding} {name : Mem}

section Loops

theorem loop_mono {r : Decoded} (h : (decodeLoop buf len nameSize fuel d).value = some r) (m : ℕ) :
    (decodeLoop buf len nameSize (fuel + m) d).value = some r := by
  induction fuel generalizing d with
  | zero => cases h
  | succ fuel ih =>
    rw [Nat.add_right_comm]
    by_cases hpos : d.pos < len
    · rw [loop_round hpos] at h ⊢
      cases hround : (decodeRound buf len nameSize d).value with
      | again d' =>
        rw [hround] at h
        exact ih h
      | last d' =>
        rw [hround] at h
        exact h
      | error =>
        rw [hround] at h
        exact h
    · rw [loop_past (Nat.not_lt.mp hpos)] at h ⊢
      exact h

theorem loop_unique {m : ℕ} {r : Decoded} {o : Option Decoded}
    (h : (decodeLoop buf len nameSize fuel d).value = some r)
    (ho : ∀ k, (decodeLoop buf len nameSize (m + k) d).value = o) : o = some r := by
  have hmore := loop_mono h m
  rw [Nat.add_comm, ho fuel] at hmore
  exact hmore

theorem loop_jump (h : Points buf len d.pos q) :
    (decodeLoop buf len nameSize (fuel + 1) d).value = (decodeLoop buf len nameSize fuel (d.jump q)).value := by
  obtain ⟨hlow, hpointer, rfl⟩ := h
  rw [loop_round (by omega), round_pointer hpointer, if_neg (Nat.not_le.mpr hlow)]

/-- The label at a position. -/
def labelAt (buf : Mem) (p : ℕ) : List UInt8 := (List.range (buf p).toNat).map fun i => buf (p + 1 + i)

theorem labelAt_length (buf : Mem) (p : ℕ) : (labelAt buf p).length = (buf p).toNat := by
  unfold labelAt
  rw [List.length_map, List.length_range]

theorem loop_copy (h₀ : buf d.pos ≠ 0) (h : ¬isPointer (buf d.pos)) (hend : d.pos + 1 + (buf d.pos).toNat ≤ len)
    (hroom : d.namePos + (buf d.pos).toNat + 1 < nameSize) :
    (decodeLoop buf len nameSize (fuel + 1) d).value =
      (decodeLoop buf len nameSize fuel (d.copy (labelAt buf d.pos))).value := by
  rw [loop_round (by omega), round_label h₀ h, if_neg (by omega)]
  rfl

/-- Pointers that lead back to where they are are followed forever. -/
theorem loop_stuck (h : TransGen (Points buf len) d.pos d.pos) : (decodeLoop buf len nameSize fuel d).value = none := by
  induction fuel generalizing d with
  | zero => rfl
  | succ fuel ih =>
    obtain ⟨q, hq, hback⟩ := TransGen.head'_iff.mp h
    rw [loop_jump hq]
    exact ih (TransGen.tail' hback hq)

end Loops

section Walks

/-- The decoder is where the walk is. -/
structure At (d : Decoding) (p n : ℕ) : Prop where
  pos : d.pos = p
  namePos : d.namePos = n

theorem write_nonzero {m : Mem} {l : List UInt8} (hl : ∀ x ∈ l, x ≠ 0) (hm : ∀ i, m i ≠ 0) (i : ℕ) :
    write m n l i ≠ 0 := by
  induction l generalizing m n with
  | nil => exact hm i
  | cons x xs ih =>
    refine ih (fun y hy => hl y (List.mem_cons_of_mem x hy)) fun j => ?_
    by_cases hj : j = n
    · rw [hj, Function.update_self]
      exact hl x List.mem_cons_self
    · rw [Function.update_of_ne hj]
      exact hm j

/-- Following a walk from a name; a buffer without zeros gets one only from a label. -/
theorem walk_follow (hwalk : ReflTransGen (Walk buf len) (offset, 0, False) (p, n, z)) :
    ∃ k d, At d p n ∧ (¬z → ∀ i, d.name i ≠ 0) ∧ ∀ fuel,
      (dnsDecodeName buf len nameSize (k + fuel) offset fun _ => 1).value =
        (decodeLoop buf len nameSize fuel d).value := by
  obtain ⟨w, hw⟩ : ∃ w, w = (p, n, z) := ⟨_, rfl⟩
  rw [← hw] at hwalk
  induction hwalk generalizing p n z with
  | refl =>
    obtain ⟨rfl, rfl, rfl⟩ := hw
    exact ⟨0, _, ⟨rfl, rfl⟩, fun _ _ => (by decide : (1 : UInt8) ≠ 0), fun fuel => by rw [Nat.zero_add]; rfl⟩
  | tail hwalk hstep ih =>
    subst hw
    cases hstep with
    | pointer hpoints =>
      obtain ⟨k, d, hat, hname, hloop⟩ := ih rfl
      refine ⟨k + 1, d.jump p, ⟨rfl, hat.namePos⟩, hname, fun fuel => ?_⟩
      rw [Nat.add_right_comm, Nat.add_assoc, hloop, loop_jump (hat.pos ▸ hpoints)]
    | @label p n z h₀ h hend hroom =>
      obtain ⟨k, d, hat, hname, hloop⟩ := ih rfl
      obtain ⟨hpos, hnamePos⟩ := hat
      subst hpos hnamePos
      refine ⟨k + 1, d.copy (labelAt buf d.pos), ⟨?_, ?_⟩, fun hno i => ?_, fun fuel => ?_⟩
      · unfold Decoding.copy
        rw [labelAt_length]
      · unfold Decoding.copy
        rw [labelAt_length]
      · obtain ⟨hnz, hnolabel⟩ := not_or.mp hno
        refine write_nonzero (fun x hx => ?_) (hname hnz) i
        rcases List.mem_append.mp hx with hx | hx
        · obtain ⟨j, hj, rfl⟩ := List.mem_map.mp hx
          exact fun hzero => hnolabel ⟨j, List.mem_range.mp hj, hzero⟩
        · rw [List.mem_singleton.mp hx]
          decide
      · rw [Nat.add_right_comm, Nat.add_assoc, hloop, loop_copy h₀ h hend hroom]

/-- The decoder ends well where a walk that is in order has led it: with labels there is less room for more, and
pointers have led through different positions `S` since the last label. -/
theorem loop_ends (hok : WalkOk buf len offset) {S : Finset ℕ} (hS : S ⊆ Finset.range len)
    (hback : ∀ s ∈ S, TransGen (Points buf len) s d.pos)
    (hwalk : ReflTransGen (Walk buf len) (offset, 0, False) (d.pos, d.namePos, z))
    (hz : z → ∃ i < d.namePos, d.name i = 0) (hroom : d.namePos < nameSize)
    (hfuel : (nameSize - d.namePos) * (len + 1) + (len - S.card) < fuel) :
    ∃ r, (decodeLoop buf len nameSize fuel d).value = some r ∧
      ∀ ret name', r = .name ret name' → ∃ i < nameSize, name' i = 0 := by
  induction fuel generalizing d S z with
  | zero => exact absurd hfuel (Nat.not_lt_zero _)
  | succ fuel ih =>
    obtain ⟨hin, hnoloop⟩ := hok _ _ _ hwalk
    by_cases hpos : d.pos < len
    · by_cases hzero : buf d.pos = 0
      · refine ⟨_, by rw [loop_round hpos, round_zero hzero], fun ret name' heq => ?_⟩
        obtain ⟨-, rfl⟩ := Decoded.name.inj heq
        unfold Decoding.terminate
        split_ifs with hand
        · exact ⟨d.namePos - 1, by omega, Function.update_self _ _ _⟩
        · exact ⟨0, Nat.succ_pos _, Function.update_self 0 (0 : UInt8) d.name⟩
      · by_cases hpointer : isPointer (buf d.pos)
        · by_cases hcut : d.pos + 1 ≥ len
          · refine ⟨_, by rw [loop_round hpos, round_pointer hpointer, if_pos hcut], fun ret name' heq => ?_⟩
            cases heq
          · have hpoints : Points buf len d.pos (pointerTarget (buf d.pos) (buf (d.pos + 1))) :=
              ⟨Nat.not_le.mp hcut, hpointer, rfl⟩
            have hnew : d.pos ∉ S := fun hmem => hnoloop (hback _ hmem)
            have hS' : insert d.pos S ⊆ Finset.range len :=
              Finset.insert_subset (Finset.mem_range.mpr hpos) hS
            have hcard := Finset.card_insert_of_notMem hnew
            have hle := Finset.card_le_card hS'
            rw [Finset.card_range, hcard] at hle
            rw [loop_jump hpoints]
            refine ih hS' (fun s hs => ?_) (hwalk.tail (Walk.pointer hpoints)) hz hroom ?_
            · rcases Finset.mem_insert.mp hs with rfl | hs
              · exact TransGen.single hpoints
              · exact (hback s hs).tail hpoints
            · rw [hcard]
              unfold Decoding.jump
              dsimp only
              omega
        · by_cases hfits : d.pos + 1 + (buf d.pos).toNat > len ∨ d.namePos + (buf d.pos).toNat + 1 ≥ nameSize
          · refine ⟨_, by rw [loop_round hpos, round_label hzero hpointer, if_pos hfits], fun ret name' heq => ?_⟩
            cases heq
          · obtain ⟨hend, hlong⟩ := not_or.mp hfits
            have hend := Nat.not_lt.mp hend
            have hlong := Nat.not_le.mp hlong
            have hstep := Walk.label (z := z) hzero hpointer hend hlong
            have hlength := labelAt_length buf d.pos
            rw [loop_copy hzero hpointer hend hlong]
            refine ih (z := z ∨ ∃ i < (buf d.pos).toNat, buf (d.pos + 1 + i) = 0) (Finset.empty_subset _)
              (fun s hs => absurd hs (Finset.notMem_empty s)) ?_ ?_ ?_ ?_
            · unfold Decoding.copy
              rw [hlength]
              exact hwalk.tail hstep
            · unfold Decoding.copy
              dsimp only
              rintro (hyes | ⟨i, hi, hbyte⟩)
              · obtain ⟨i, hi, hname⟩ := hz hyes
                exact ⟨i, by omega, (write_other (Or.inl hi)).trans hname⟩
              · refine ⟨d.namePos + i, by omega, ?_⟩
                have hi' : i < (labelAt buf d.pos ++ [dot]).length := by
                  rw [List.length_append]
                  omega
                rw [write_get hi', List.getElem_append_left (by omega)]
                unfold labelAt
                rw [List.getElem_map, List.getElem_range]
                exact hbyte
            · unfold Decoding.copy
              dsimp only
              omega
            · have hmul : (nameSize - (d.namePos + (buf d.pos).toNat + 1)) * (len + 1) + (len + 1) ≤
                  (nameSize - d.namePos) * (len + 1) := by
                rw [← Nat.succ_mul]
                exact Nat.mul_le_mul_right _ (by omega)
              unfold Decoding.copy
              dsimp only
              rw [hlength, Finset.card_empty, Nat.sub_zero]
              omega
    · obtain ⟨i, hi, hname⟩ := hz (hin.resolve_left hpos)
      refine ⟨_, loop_past (Nat.not_lt.mp hpos), fun ret name' heq => ?_⟩
      obtain ⟨-, rfl⟩ := Decoded.name.inj heq
      exact ⟨i, hi.trans hroom, hname⟩

/-- With this much fuel every walk that is in order ends. -/
def enough (len : ℕ) : ℕ := nameSize * (len + 1) + len + 1

theorem decode_ends (hok : WalkOk buf len offset) (hfuel : enough len ≤ fuel) (name : Mem) :
    ∃ r, (dnsDecodeName buf len nameSize fuel offset name).value = some r ∧
      ∀ ret name', r = .name ret name' → ∃ i < nameSize, name' i = 0 := by
  refine loop_ends hok (Finset.empty_subset _) (fun s hs => absurd hs (Finset.notMem_empty s)) ReflTransGen.refl
    (fun hno => hno.elim) (Nat.succ_pos _) ?_
  rw [Finset.card_empty]
  exact hfuel

/-- A call is all right with every content of its buffer exactly if its walk is in order. -/
theorem callOk_iff : CallOk buf len offset ↔ WalkOk buf len offset := by
  constructor
  · intro hcalls p n z hwalk
    obtain ⟨fuel, r, hr, hzero⟩ := hcalls fun _ => 1
    obtain ⟨k, d, ⟨rfl, rfl⟩, hname, hloop⟩ := walk_follow hwalk
    refine ⟨?_, fun hback => ?_⟩
    · by_contra hno
      obtain ⟨hout, hnz⟩ := not_or.mp hno
      have hend : ∀ m, (dnsDecodeName buf len nameSize (k + 1 + m) offset fun _ => 1).value = some d.finish := by
        intro m
        rw [Nat.add_assoc, Nat.add_comm 1, hloop, loop_past (Nat.not_lt.mp hout)]
      obtain rfl := Option.some.inj (loop_unique hr hend)
      obtain ⟨i, -, hi⟩ := hzero _ _ rfl
      exact hname hnz i hi
    · have hstuck : ∀ m, (dnsDecodeName buf len nameSize (k + m) offset fun _ => 1).value = none := by
        intro m
        rw [hloop, loop_stuck hback]
      cases loop_unique hr hstuck
  · intro hok name
    obtain ⟨r, hr, hzero⟩ := decode_ends hok (Nat.le_refl _) name
    exact ⟨_, r, hr, hzero⟩

end Walks

section Parsing

variable {x : Reading Parsed} {k : ℕ → Reading Parsed} {pos : ℕ}

theorem decodeAt_within (hx : Within len x) (hk : ∀ pos, Within len (k pos)) :
    Within len (decodeAt fuel buf len name pos x k) := by
  unfold decodeAt
  refine within_bind.mpr ⟨loop_within _, ?_⟩
  cases (dnsDecodeName buf len nameSize fuel pos name).value with
  | none => exact within_pure _
  | some r =>
    cases r with
    | error => exact within_bind.mpr ⟨hx, within_pure _⟩
    | name ret name' => exact within_bind.mpr ⟨hk _, within_pure _⟩

theorem questions_within (hk : ∀ pos, Within len (k pos)) (i pos : ℕ) :
    Within len (questions fuel buf len name k i pos) := by
  induction i generalizing pos with
  | zero => exact hk pos
  | succ i ih =>
    unfold questions
    split_ifs
    · refine decodeAt_within (within_pure _) fun pos => ?_
      split_ifs
      · exact within_pure _
      · exact ih _
    · exact hk pos

theorem answers_within (i pos : ℕ) : Within len (answers fuel buf len name i pos) := by
  induction i generalizing pos with
  | zero => exact within_pure _
  | succ i ih =>
    unfold answers
    split_ifs
    · refine decodeAt_within (within_pure _) fun pos => ?_
      split_ifs with hcut
      · exact within_pure _
      · refine within_bind.mpr ⟨within_number.mpr (by omega), within_bind.mpr ⟨within_number.mpr (by omega),
          within_bind.mpr ⟨within_number.mpr (by omega), within_bind.mpr ⟨within_number.mpr (by omega), ?_⟩⟩⟩⟩
        split_ifs with haddress hcname
        · exact within_bind.mpr ⟨within_number.mpr (by omega), within_pure _⟩
        · exact decodeAt_within (ih _) fun _ => ih _
        · exact ih _
    · exact within_pure _

theorem parse_within (len : UInt16) : Within len.toNat (dnsParseResponse fuel buf len name) := by
  unfold dnsParseResponse
  split_ifs with hshort
  · exact within_pure _
  · have hheader : 12 ≤ len.toNat := Nat.not_lt.mp hshort
    refine within_bind.mpr ⟨within_number.mpr (by omega), ?_⟩
    split_ifs
    · exact within_pure _
    · exact within_bind.mpr ⟨within_number.mpr (by omega), within_bind.mpr ⟨within_number.mpr (by omega),
        questions_within (answers_within _) _ _⟩⟩

/-- If the walks of all names that are decoded are in order, the parser returns. -/
def Returns (buf : Mem) (len : ℕ) (x : Reading Parsed) : Prop :=
  (∀ offset ∈ x.value.calls, WalkOk buf len offset) → x.value.outcome.isSome

theorem returns_fail : Returns buf len fail := fun _ => rfl

theorem decodeAt_returns (hfuel : enough len ≤ fuel) (hx : Returns buf len x) (hk : ∀ pos, Returns buf len (k pos)) :
    Returns buf len (decodeAt fuel buf len name pos x k) := by
  unfold Returns decodeAt
  rw [value_bind]
  cases hdecode : (dnsDecodeName buf len nameSize fuel pos name).value with
  | none =>
    intro hall
    obtain ⟨r, hr, -⟩ := decode_ends (hall pos List.mem_cons_self) hfuel name
    rw [hdecode] at hr
    cases hr
  | some r =>
    cases r with
    | error => exact fun hall => hx fun offset hmem => hall offset (List.mem_cons_of_mem pos hmem)
    | name ret name' => exact fun hall => hk _ fun offset hmem => hall offset (List.mem_cons_of_mem pos hmem)

theorem questions_returns (hfuel : enough len ≤ fuel) (hk : ∀ pos, Returns buf len (k pos)) (i pos : ℕ) :
    Returns buf len (questions fuel buf len name k i pos) := by
  induction i generalizing pos with
  | zero => exact hk pos
  | succ i ih =>
    unfold questions
    split_ifs
    · refine decodeAt_returns hfuel returns_fail fun pos => ?_
      split_ifs
      · exact returns_fail
      · exact ih _
    · exact hk pos

theorem answers_returns (hfuel : enough len ≤ fuel) (i pos : ℕ) :
    Returns buf len (answers fuel buf len name i pos) := by
  induction i generalizing pos with
  | zero => exact returns_fail
  | succ i ih =>
    unfold answers
    split_ifs
    · refine decodeAt_returns hfuel returns_fail fun pos => ?_
      split_ifs with hcut
      · exact returns_fail
      · unfold Returns
        simp only [value_bind]
        split_ifs with haddress hcname
        · exact fun _ => rfl
        · exact decodeAt_returns hfuel (ih _) fun _ => ih _
        · exact ih _
    · exact returns_fail

theorem parse_returns {len : UInt16} (hfuel : enough len.toNat ≤ fuel) :
    Returns buf len.toNat (dnsParseResponse fuel buf len name) := by
  unfold dnsParseResponse
  split_ifs
  · exact returns_fail
  · unfold Returns
    simp only [value_bind]
    split_ifs
    · exact returns_fail
    · simp only [value_bind]
      exact questions_returns hfuel (answers_returns hfuel _) _ _

/-- Parsing keeps its promise exactly if the walk of every name that it decodes stays inside the response, unless a
label has a zero byte, and never comes to pointers that lead in a circle. -/
theorem dns_parse_response_iff (buf : Mem) (len : UInt16) :
    ParseOk buf len ↔ ∀ fuel name, ∀ offset ∈ (dnsParseResponse fuel buf len name).value.calls,
      WalkOk buf len.toNat offset := by
  constructor
  · intro hok fuel name offset hcall
    exact callOk_iff.mp (((hok name).2 fuel).2 offset hcall)
  · intro hwalks name
    refine ⟨⟨enough len.toNat, parse_returns (Nat.le_refl _) (hwalks _ name)⟩, fun fuel => ⟨parse_within len, ?_⟩⟩
    intro offset hcall
    exact callOk_iff.mpr (hwalks fuel name offset hcall)

/-- A question whose name is a pointer to itself. -/
def selfPointer : Mem := memOf [0, 1, 0, 0, 0, 1, 0, 0, 0, 0, 0, 0, 0xc0, 0x0c, 0, 1, 0, 1]

/-- The decoder follows the pointer to itself and never returns. -/
theorem self_pointer_followed : ¬∀ (buf : Mem) (len : UInt16), ParseOk buf len := by
  intro hall
  obtain ⟨fuel, hsome⟩ := (hall selfPointer 18 fun _ => 0).1
  have hself : Points selfPointer 18 12 12 := ⟨by decide, by decide, by decide⟩
  have hdecode : (dnsDecodeName selfPointer 18 nameSize fuel 12 fun _ => 0).value = none :=
    loop_stuck (TransGen.single hself)
  have hquestion : (questions fuel selfPointer 18 (fun _ => 0) (answers fuel selfPointer 18 (fun _ => 0) 0) 1 12).value =
      ⟨[12], none⟩ := by
    unfold questions decodeAt
    rw [if_pos (by decide), value_bind, hdecode]
    rfl
  have hvalue : (dnsParseResponse fuel selfPointer 18 fun _ => 0).value = ⟨[12], none⟩ := by
    unfold dnsParseResponse
    rw [if_neg (by decide), value_bind, if_neg (by decide)]
    exact hquestion
  rw [hvalue] at hsome
  cases hsome

end Parsing

end Dns
