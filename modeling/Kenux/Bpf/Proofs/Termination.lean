import Kenux.Bpf.Spec

/-!
# Termination

When all jumps go forward and no path leads past the last instruction, the program counter grows with
every round and the run ends at an instruction.
-/

namespace Bpf

variable {prog : List Insn} {insn : Insn} {env : Env} {c c' c₀ : Ctx} {pc pc' : ℕ}

section Step

theorem not_isJmp {cls : Class} (h : classOf insn.code = cls) (h₁ : cls ≠ .jmp) (h₂ : cls ≠ .jmp32) :
    ¬isJmp insn := fun hj => hj.elim (fun h' => h₁ (h ▸ h')) fun h' => h₂ (h ▸ h')

/-- Where a round goes on at an instruction. -/
def GoesOn (prog : List Insn) (insn : Insn) (c c' : Ctx) : Prop :=
  ¬Ends insn ∧ (Jumps insn ∧ c'.pc = jmpTarget c.pc insn.off ∨
    ¬IsJa insn ∧ c'.pc.toNat = c.pc.toNat + width prog c.pc.toNat insn)

theorem toNat_add_one {a : UInt32} (h : a.toNat + 2 < 2 ^ 32) : (a + 1).toNat = a.toNat + 1 := by
  rw [UInt32.toNat_add]
  show (a.toNat + 1) % 2 ^ 32 = _
  omega

theorem width_of_class {cls : Class} (h : classOf insn.code = cls) (hld : cls ≠ .ld) :
    width prog pc insn = 1 := if_neg fun hw => hld (h ▸ hw.1)

/-- An instruction that is neither a jump nor unknown goes to the next one. -/
theorem goesOn_next {cls : Class} (hcls : classOf insn.code = cls) (h₁ : cls ≠ .jmp) (h₂ : cls ≠ .jmp32)
    (h₃ : cls ≠ .ld) (halu : cls = .alu ∨ cls = .alu64 → aluOps.lookup (opOf insn.code) ≠ none)
    (hlt : c.pc.toNat + 2 < 2 ^ 32) (hpc : c'.pc = c.pc + 1) : GoesOn prog insn c c' := by
  have hj := not_isJmp hcls h₁ h₂
  refine ⟨?_, .inr ⟨fun h => hj h.1, ?_⟩⟩
  · rintro (⟨h, hnone⟩ | ⟨h, -⟩)
    · exact halu (hcls ▸ h) hnone
    · exact hj h
  · rw [hpc, toNat_add_one hlt, width_of_class hcls h₃]

theorem stepAlu_next (hcls : classOf insn.code = .alu ∨ classOf insn.code = .alu64)
    (hlt : c.pc.toNat + 2 < 2 ^ 32) (h : stepAlu insn c = .next c') : GoesOn prog insn c c' := by
  unfold stepAlu at h
  split at h
  · cases h
  · rename_i op hop
    split at h
    · cases h
    · cases h
      rcases hcls with hcls | hcls
      · exact goesOn_next hcls (by decide) (by decide) (by decide) (fun _ h => by simp [hop] at h) hlt rfl
      · exact goesOn_next hcls (by decide) (by decide) (by decide) (fun _ h => by simp [hop] at h) hlt rfl

theorem stepJmp_next (hj : isJmp insn) (hlt : c.pc.toNat + 2 < 2 ^ 32)
    (h : stepJmp env insn c = .next c') : GoesOn prog insn c c' := by
  have hnld : classOf insn.code ≠ .ld := by rcases hj with h | h <;> rw [h] <;> decide
  have hw : width prog c.pc.toNat insn = 1 := if_neg fun h => hnld h.1
  have hne {op : JmpOp} (hop : jmpOps.lookup (opOf insn.code) = some op) (hexit : op ≠ .exit) :
      ¬Ends insn := by
    rintro (⟨hc, -⟩ | ⟨-, hnone | hex⟩)
    · rcases hj with h | h <;> rw [h] at hc <;> simp at hc
    · rw [hop] at hnone
      cases hnone
    · rw [hop] at hex
      exact hexit (Option.some.inj hex)
  unfold stepJmp at h
  split at h
  · cases h
  · rename_i hop
    cases h
    exact ⟨hne hop (by decide), .inl ⟨⟨hj, _, hop, by decide, by decide⟩, rfl⟩⟩
  · rename_i hop
    cases h
    refine ⟨hne hop (by decide), .inr ⟨fun hja => ?_, ?_⟩⟩
    · rw [hja.2] at hop
      cases hop
    · rw [hw]
      exact toNat_add_one hlt
  · cases h
  · rename_i op hja hcall hexit hop
    refine ⟨hne hop fun h => hexit h, ?_⟩
    dsimp only at h
    by_cases hcond : jmpCond (classOf insn.code) op (getReg c.regs insn.dstReg)
        (if srcOf insn.code = .k then immOf insn.imm else getReg c.regs insn.srcReg) = true
    · rw [if_pos hcond] at h
      cases h
      exact .inl ⟨⟨hj, op, hop, fun h => hcall h, fun h => hexit h⟩, rfl⟩
    · rw [if_neg hcond] at h
      cases h
      refine .inr ⟨fun h => ?_, ?_⟩
      · exact hja (Option.some.inj (hop.symm.trans h.2))
      · rw [hw]
        exact toNat_add_one hlt

theorem stepLd_next (hcls : classOf insn.code = .ld) (hlt : c.pc.toNat + 2 < 2 ^ 32)
    (h : stepLd env prog insn c = .next c') : GoesOn prog insn c c' := by
  have hj := not_isJmp hcls (by decide) (by decide)
  have hends : ¬Ends insn := by
    rintro (⟨h | h, -⟩ | ⟨h, -⟩)
    · rw [hcls] at h
      cases h
    · rw [hcls] at h
      cases h
    · exact hj h
  refine ⟨hends, .inr ⟨fun h => hj h.1, ?_⟩⟩
  unfold stepLd at h
  unfold width
  rw [toNat_add_one hlt] at h
  have h2 : (c.pc + 1 + 1).toNat = c.pc.toNat + 2 := by
    rw [UInt32.toNat_add, toNat_add_one hlt]
    exact Nat.mod_eq_of_lt hlt
  dsimp only at h
  split_ifs at h with hmode
  · split at h
    · rename_i next hnext
      split_ifs at h with hcode
      · cases h
        rw [if_pos ⟨hcls, hmode, by rw [hnext]; simpa using hcode⟩]
        exact h2
      · cases h
        rw [if_neg (fun hw => hcode (by simpa [hnext] using hw.2.2))]
        exact toNat_add_one hlt
    · rename_i hnone
      cases h
      rw [if_neg (fun hw => by simp [hnone] at hw)]
      exact toNat_add_one hlt
  all_goals
    cases h
    rw [if_neg (fun hw => hmode hw.2.1)]
    exact toNat_add_one hlt

/-- One round goes along an edge of the control flow graph. -/
theorem step_next (hpc : prog[c.pc.toNat]? = some insn) (hlt : c.pc.toNat + 2 < 2 ^ 32)
    (h : step env prog c = .next c') : GoesOn prog insn c c' := by
  unfold step at h
  rw [hpc] at h
  dsimp only at h
  unfold stepInsn at h
  cases hcls : classOf insn.code with
  | alu =>
    rw [hcls] at h
    exact stepAlu_next (.inl hcls) hlt h
  | alu64 =>
    rw [hcls] at h
    exact stepAlu_next (.inr hcls) hlt h
  | jmp =>
    rw [hcls] at h
    exact stepJmp_next (.inl hcls) hlt h
  | jmp32 =>
    rw [hcls] at h
    exact stepJmp_next (.inr hcls) hlt h
  | ldx =>
    rw [hcls] at h
    cases h
    exact goesOn_next hcls (by decide) (by decide) (by decide) (by simp) hlt rfl
  | st =>
    rw [hcls] at h
    cases h
    exact goesOn_next hcls (by decide) (by decide) (by decide) (by simp) hlt rfl
  | stx =>
    rw [hcls] at h
    cases h
    exact goesOn_next hcls (by decide) (by decide) (by decide) (by simp) hlt rfl
  | ld =>
    rw [hcls] at h
    exact stepLd_next hcls hlt h

end Step

section Graph

variable (hlen : prog.length ≤ maxInsns) (hoff : OffsetsOk prog)

include hoff in
theorem jumpsForward : JumpsForward prog := by
  intro pc insn hpc hj
  obtain ⟨h₁, h₂⟩ := hoff pc insn hpc hj
  unfold target
  omega

variable (prog) in
theorem width_le (pc : ℕ) (insn : Insn) : 1 ≤ width prog pc insn ∧ width prog pc insn ≤ 2 := by
  unfold width
  split_ifs <;> omega

include hoff in
/-- Edges go forward. -/
theorem Flows.lt (h : Flows prog pc pc') : pc < pc' := by
  obtain ⟨insn, hpc, -, ⟨hj, ht⟩ | ⟨-, heq⟩⟩ := h
  · have := (jumpsForward hoff pc insn hpc hj).1
    omega
  · have := (width_le prog pc insn).1
    omega

include hoff in
/-- An instruction that does not end the run is followed by another place. -/
theorem exists_flows (hpc : prog[pc]? = some insn) (hends : ¬Ends insn) : ∃ pc', Flows prog pc pc' := by
  by_cases hja : IsJa insn
  · have hj : Jumps insn := ⟨hja.1, _, hja.2, by decide, by decide⟩
    have := (jumpsForward hoff pc insn hpc hj).1
    exact ⟨(target pc insn).toNat, insn, hpc, hends, .inl ⟨hj, by omega⟩⟩
  · exact ⟨_, insn, hpc, hends, .inr ⟨hja, rfl⟩⟩

include hoff in
theorem lastEnds_of_not_runsOff (h : ¬RunsOff prog) : LastEnds prog := by
  intro pc insn hr hpc hlast
  by_contra hends
  obtain ⟨pc', hf⟩ := exists_flows hoff hpc hends
  have hr' : CfgReach prog pc' := hr.tail hf
  have hin : pc' < prog.length := by
    by_contra hge
    exact h ⟨pc', by omega, hr'⟩
  have := hlast pc' hr' hin
  have := hf.lt hoff
  omega

/-- The second half of a 64-bit immediate does not end a run. -/
theorem not_ends_of_code (h : insn.code = 0) : ¬Ends insn := by
  have hcls : classOf insn.code = .ld := by
    rw [h]
    decide
  rintro (⟨h | h, -⟩ | ⟨h | h, -⟩) <;> rw [hcls] at h <;> cases h

include hoff in
theorem not_runsOff_of_lastEnds (hpos : 0 < prog.length) (h : LastEnds prog) : ¬RunsOff prog := by
  rintro ⟨pc, hge, hr⟩
  -- the edge that leaves the program
  have hedge : ∃ p q, CfgReach prog p ∧ p < prog.length ∧ prog.length ≤ q ∧ Flows prog p q := by
    induction hr with
    | refl => omega
    | @tail p q hp hf ih =>
      by_cases hin : prog.length ≤ p
      · exact ih hin
      · exact ⟨p, q, hp, by omega, hge, hf⟩
  obtain ⟨p, q, hp, hlt, hge, insn, hpc, hends, ⟨hj, ht⟩ | ⟨-, heq⟩⟩ := hedge
  · have := (jumpsForward hoff p insn hpc hj).2
    omega
  · by_cases hlast : ∀ pc', CfgReach prog pc' → pc' < prog.length → pc' ≤ p
    · exact hends (h p insn hp hpc hlast)
    · -- only the second half of a 64-bit immediate comes after `p`, and it would end the run
      push Not at hlast
      obtain ⟨p', hp', hlt', hne⟩ := hlast
      have hw := width_le prog p insn
      have hp2 : p' = p + 1 := by omega
      have h2 : width prog p insn = 2 := by omega
      have hcode : (prog[p + 1]?.map fun next => decide (next.code = 0)) = some true := by
        unfold width at h2
        by_contra hno
        rw [if_neg fun hw => hno hw.2.2] at h2
        omega
      obtain ⟨next, hnext, hzero⟩ := Option.map_eq_some_iff.mp hcode
      refine not_ends_of_code (of_decide_eq_true hzero) (h p' next hp' (hp2 ▸ hnext) ?_)
      intro pc' _ hlt''
      omega

end Graph

section Runs

variable (hlen : prog.length ≤ maxInsns) (hoff : OffsetsOk prog) (hend : ¬RunsOff prog)

theorem jmpTarget_toNat (pc : UInt32) (off : Int16) :
    ((jmpTarget pc off).toNat : ℤ) = (pc.toNat + off.toInt + 1) % 2 ^ 32 := by
  have hcond := BitVec.toInt_eq_toNat_cond off.toInt32.toBitVec
  rw [Int32.toInt_toBitVec, Int16.toInt_toInt32, Int32.toNat_toBitVec] at hcond
  have hsum : (jmpTarget pc off).toNat = (pc.toNat + off.toInt32.toUInt32.toNat + 1) % 2 ^ 32 := by
    unfold jmpTarget
    rw [UInt32.toNat_add, UInt32.toNat_add, Nat.mod_add_mod]
    rfl
  rw [hsum]
  split_ifs at hcond <;> omega

theorem pc_lt (hlen : prog.length ≤ maxInsns) (hlt : pc < prog.length) : pc + 2 < 2 ^ 32 := by
  unfold maxInsns at hlen
  omega

include hlen hoff hend

/-- A run stays on the edges of the control flow graph. -/
theorem step_flows (hr : CfgReach prog c.pc.toNat) (h : step env prog c = .next c') :
    Flows prog c.pc.toNat c'.pc.toNat := by
  have hin : c.pc.toNat < prog.length := by
    by_contra hge
    exact hend ⟨_, by omega, hr⟩
  have hpc : prog[c.pc.toNat]? = some prog[c.pc.toNat] := List.getElem?_eq_getElem hin
  obtain ⟨hends, hcase⟩ := step_next hpc (pc_lt hlen hin) h
  refine ⟨_, hpc, hends, ?_⟩
  rcases hcase with ⟨hj, heq⟩ | ⟨hja, heq⟩
  · refine .inl ⟨hj, ?_⟩
    obtain ⟨h₁, h₂⟩ := hoff _ _ hpc hj
    have := pc_lt hlen hin
    unfold maxInsns at hlen
    rw [heq, jmpTarget_toNat]
    unfold target
    omega
  · exact .inr ⟨hja, heq⟩

theorem runFuel_isSome {fuel : ℕ} (hr : CfgReach prog c.pc.toNat)
    (hf : prog.length ≤ c.pc.toNat + fuel) : (runFuel env prog fuel c).isSome := by
  induction fuel generalizing c with
  | zero => exact absurd ⟨_, hf, hr⟩ hend
  | succ fuel ih =>
    unfold runFuel
    cases hs : step env prog c with
    | next c' =>
      have hflow := step_flows hlen hoff hend hr hs
      have := hflow.lt hoff
      exact ih (hr.tail hflow) (by omega)
    | exit c' => rfl
    | abort c' => rfl

theorem visits_reach (h₀ : CfgReach prog c₀.pc.toNat) (h : Visits env prog c₀ c) :
    CfgReach prog c.pc.toNat := by
  refine Run.Reach.invariant (I := fun c => CfgReach prog c.pc.toNat) h₀ (fun c _ c' hr _ hst => ?_) h
  cases hs : step env prog c with
  | next d =>
    rw [hs] at hst
    cases hst
    exact hr.tail (step_flows hlen hoff hend hr hs)
  | exit d =>
    rw [hs] at hst
    cases hst
  | abort d =>
    rw [hs] at hst
    cases hst

theorem runOk (hc : c₀.pc = 0) : RunOk env prog c₀ := by
  have h₀ : CfgReach prog c₀.pc.toNat := by
    rw [hc]
    exact .refl
  refine ⟨runFuel_isSome hlen hoff hend h₀ (by omega), fun c hv => ?_, ?_⟩
  · by_contra hge
    exact hend ⟨_, Nat.not_lt.mp hge, visits_reach hlen hoff hend h₀ hv⟩
  · intro c hv insn hpc hj c' _
    have := jumpsForward hoff _ insn hpc hj
    exact .inr (by omega)

end Runs

theorem offsetsOk_of_forward (h : JumpsForward prog) : OffsetsOk prog := by
  intro pc insn hpc hj
  have := h pc insn hpc hj
  unfold target at this
  omega

theorem bpfProgAlloc_eq_some {insns : List Insn} {zalloc : Bool}
    (h : bpfProgAlloc insns zalloc = some prog) :
    prog = insns ∧ bpfVerifier prog zalloc = 0 ∧ 0 < prog.length ∧ prog.length ≤ maxInsns := by
  unfold bpfProgAlloc at h
  by_cases hlen : insns.length = 0 ∨ insns.length > maxInsns
  · rw [if_pos hlen] at h
    cases h
  rw [if_neg hlen] at h
  split_ifs at h with hz hver
  cases h
  rw [not_or] at hlen
  exact ⟨rfl, Decidable.not_not.mp hver, Nat.pos_of_ne_zero hlen.1, Nat.not_lt.mp hlen.2⟩

end Bpf
