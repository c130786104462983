import Kenux.Bpf.Spec

/-!
# The arithmetic instructions
-/

namespace Bpf

section Words

variable (a b : UInt64)

theorem low32_eq : low32 a = a.toUInt32.toUInt64 := by
  apply UInt64.toNat_inj.mp
  unfold low32
  rw [UInt64.toNat_and, UInt32.toNat_toUInt64, UInt64.toNat_toUInt32]
  exact Nat.and_two_pow_sub_one_eq_mod _ 32

theorem toUInt32_toUInt64_inj {a b : UInt32} (h : a.toUInt64 = b.toUInt64) : a = b := by
  have h' := congrArg UInt64.toNat h
  rw [UInt32.toNat_toUInt64, UInt32.toNat_toUInt64] at h'
  exact UInt32.toNat_inj.mp h'

theorem low32_toUInt32 : (low32 a).toUInt32 = a.toUInt32 := by
  rw [low32_eq, UInt32.toUInt32_toUInt64]

theorem immOf_toUInt32 (imm : Int32) : (immOf imm).toUInt32 = imm.toUInt32 := by
  apply UInt32.toBitVec_inj.mp
  unfold immOf
  rw [UInt64.toBitVec_toUInt32]
  show (imm.toBitVec.signExtend 64).setWidth 32 = imm.toBitVec
  refine BitVec.eq_of_getLsbD_eq fun i hi => ?_
  rw [BitVec.getLsbD_setWidth, BitVec.getLsbD_signExtend]
  simp [hi, show i < 64 by omega]

/-- An immediate operand is determined by its lower half. -/
theorem immOf_inj {imm imm' : Int32} (h : (immOf imm).toUInt32 = (immOf imm').toUInt32) :
    imm = imm' := by
  rw [immOf_toUInt32, immOf_toUInt32] at h
  cases imm
  cases imm'
  simp_all

end Words

section Values

variable {cls : Class} {op : AluOp} {src : Src} {imm e : Int32} {a b : UInt64}

/-- The value computed from two register values is the one of the instruction set. -/
def ValueOk (cls : Class) (op : AluOp) (src : Src) (imm : Int32) (a b : UInt64) : Prop :=
  aluResult cls op src imm a b =
    some (isaValue cls op a (if src = .k then immOf imm else b))

theorem valueOk_reg64 (hdiv : op ≠ .div) (hmod : op ≠ .mod) (hswap : op ≠ .bswap) :
    ValueOk .alu64 op .x imm a b := by
  cases op <;> first | rfl | contradiction

theorem valueOk_reg32 (h : op ∈ [AluOp.add, .sub, .mul, .and, .or, .xor, .mov]) :
    ValueOk .alu op .x imm a b := by
  simp only [List.mem_cons, List.not_mem_nil, or_false] at h
  rcases h with rfl | rfl | rfl | rfl | rfl | rfl | rfl
  all_goals
    show some (low32 _) = some (isaAlu32 _ a.toUInt32 b.toUInt32).toUInt64
    rw [low32_eq]
    unfold isaAlu32
  · rw [UInt64.toUInt32_add]
  · rw [UInt64.toUInt32_sub]
  · rw [UInt64.toUInt32_mul]
  · rw [UInt64.toUInt32_and]
  · rw [UInt64.toUInt32_or]
  · rw [UInt64.toUInt32_xor]
  · rfl

theorem valueOk_mov_imm (hcls : cls = .alu ∨ cls = .alu64) : ValueOk cls .mov .k imm a b := by
  rcases hcls with rfl | rfl
  · show some (low32 _) = some (immOf imm).toUInt32.toUInt64
    rw [low32_eq]
    rfl
  · rfl

theorem valueOk_neg64 : ValueOk .alu64 .neg src imm a b := by cases src <;> rfl

/-- The upper half is not cleared. -/
theorem not_valueOk_neg32 (src : Src) : ¬ValueOk .alu .neg src imm 1 1 := by
  intro h
  have h : (0xFFFFFFFFFFFFFFFF : UInt64) = 0xFFFFFFFF := by
    cases src <;> exact Option.some.inj h
  exact absurd h (by decide)

/-- Both computations of a 32-bit operation give the same lower half. -/
theorem ValueOk.eq32 (h : ValueOk .alu op src imm a b) {v : UInt32}
    (hv : aluResult .alu op src imm a b = some v.toUInt64) :
    v = isaAlu32 op a.toUInt32 (if src = .k then immOf imm else b).toUInt32 :=
  toUInt32_toUInt64_inj (Option.some.inj (hv.symm.trans h))

theorem ValueOk.eq32_reg (h : ValueOk .alu op .x imm a b) {v : UInt32}
    (hv : aluResult .alu op .x imm a b = some v.toUInt64) : v = isaAlu32 op a.toUInt32 b.toUInt32 :=
  h.eq32 hv

/-- A shift by 32 or more, or bits that come from the upper half. -/
theorem not_valueOk_shift32_reg (h : op ∈ [AluOp.lsh, .rsh, .arsh]) :
    ¬∀ c, ValueOk .alu op .x imm c c := by
  intro hall
  simp only [List.mem_cons, List.not_mem_nil, or_false] at h
  rcases h with rfl | rfl | rfl
  · have h : 0 = isaAlu32 .lsh 33 33 := (hall 33).eq32_reg rfl
    exact absurd h (by decide)
  · have h : 0x80000000 = isaAlu32 .rsh 1 1 := (hall 0x100000001).eq32_reg rfl
    exact absurd h (by decide)
  · have h : 0x80000000 = isaAlu32 .arsh 1 1 := (hall 0x100000001).eq32_reg rfl
    exact absurd h (by decide)

theorem and_63_cases (b : UInt64) : ∃ k : Fin 64, b &&& 63 = UInt64.ofNat k := by
  refine ⟨⟨b.toNat % 64, Nat.mod_lt _ (by omega)⟩, UInt64.toNat_inj.mp ?_⟩
  have hand : (b &&& 63).toNat = b.toNat % 64 := by
    rw [UInt64.toNat_and]
    exact Nat.and_two_pow_sub_one_eq_mod _ 6
  rw [hand, UInt64.toNat_ofNat_of_lt' (show b.toNat % 64 < 2 ^ 64 by omega)]

theorem and_31_cases (b : UInt32) : ∃ k : Fin 32, b &&& 31 = UInt32.ofNat k := by
  refine ⟨⟨b.toNat % 32, Nat.mod_lt _ (by omega)⟩, UInt32.toNat_inj.mp ?_⟩
  have hand : (b &&& 31).toNat = b.toNat % 32 := by
    rw [UInt32.toNat_and]
    exact Nat.and_two_pow_sub_one_eq_mod _ 5
  rw [hand, UInt32.toNat_ofNat_of_lt' (show b.toNat % 32 < 2 ^ 32 by omega)]

/-- The source register is used in place of the immediate operand. -/
theorem not_valueOk_imm64 (h : op ∈ [AluOp.add, .sub, .mul, .xor, .lsh, .rsh, .arsh]) :
    ¬∀ c, ValueOk .alu64 op .k imm c c := by
  intro hall
  have hval : ∀ c, aluResult .alu64 op .k imm c c = some (isaAlu64 op c (immOf imm)) := hall
  generalize immOf imm = b at hval
  obtain ⟨k, hk⟩ := and_63_cases b
  simp only [List.mem_cons, List.not_mem_nil, or_false] at h
  rcases h with rfl | rfl | rfl | rfl | rfl | rfl | rfl
  · have h₀ : (0 + 0 : UInt64) = 0 + b := Option.some.inj (hval 0)
    have h₁ : (1 + 1 : UInt64) = 1 + b := Option.some.inj (hval 1)
    grind
  · have h₀ : (0 - 0 : UInt64) = 0 - b := Option.some.inj (hval 0)
    have h₁ : (1 - 1 : UInt64) = 1 - b := Option.some.inj (hval 1)
    grind
  · have h₁ : (1 * 1 : UInt64) = 1 * b := Option.some.inj (hval 1)
    have h₂ : (2 * 2 : UInt64) = 2 * b := Option.some.inj (hval 2)
    grind
  · have h₀ : (0 : UInt64) = 0 ^^^ b := Option.some.inj (hval 0)
    have h₁ : (0 : UInt64) = 1 ^^^ b := Option.some.inj (hval 1)
    rw [UInt64.zero_xor] at h₀
    rw [← h₀] at h₁
    exact absurd h₁ (by decide)
  · have h₁ : (2 : UInt64) = 1 <<< (b &&& 63) := Option.some.inj (hval 1)
    have h₂ : (8 : UInt64) = 2 <<< (b &&& 63) := Option.some.inj (hval 2)
    rw [hk] at h₁ h₂
    clear hk
    revert k
    decide +kernel
  · have h₁ : (0x8000000000000000 : UInt64) = 0x8000000000000000 >>> (b &&& 63) :=
      Option.some.inj (hval 0x8000000000000000)
    have h₂ : (0x4000000000000000 : UInt64) = 0x8000000000000001 >>> (b &&& 63) :=
      Option.some.inj (hval 0x8000000000000001)
    rw [hk] at h₁ h₂
    clear hk
    revert k
    decide +kernel
  · have h₁ : (0x8000000000000000 : UInt64) =
        (UInt64.toInt64 0x8000000000000000 >>> (b &&& 63).toInt64).toUInt64 :=
      Option.some.inj (hval 0x8000000000000000)
    have h₂ : (0xC000000000000000 : UInt64) =
        (UInt64.toInt64 0x8000000000000001 >>> (b &&& 63).toInt64).toUInt64 :=
      Option.some.inj (hval 0x8000000000000001)
    rw [hk] at h₁ h₂
    clear hk
    revert k
    decide +kernel

theorem not_valueOk_imm32 (h : op ∈ [AluOp.add, .sub, .mul, .xor, .lsh, .rsh, .arsh]) :
    ¬∀ c, ValueOk .alu op .k imm c c := by
  intro hall
  have heq (c : UInt64) {v : UInt32} (hv : aluResult .alu op .k imm c c = some v.toUInt64) :
      v = isaAlu32 op c.toUInt32 (immOf imm).toUInt32 := (hall c).eq32 hv
  generalize (immOf imm).toUInt32 = b at heq
  obtain ⟨k, hk⟩ := and_31_cases b
  simp only [List.mem_cons, List.not_mem_nil, or_false] at h
  rcases h with rfl | rfl | rfl | rfl | rfl | rfl | rfl
  · have h₀ : 0 = isaAlu32 .add 0 b := heq 0 rfl
    have h₁ : 2 = isaAlu32 .add 1 b := heq 1 rfl
    unfold isaAlu32 at h₀ h₁
    grind
  · have h₀ : 0 = isaAlu32 .sub 0 b := heq 0 rfl
    have h₁ : 0 = isaAlu32 .sub 1 b := heq 1 rfl
    unfold isaAlu32 at h₀ h₁
    grind
  · have h₁ : 1 = isaAlu32 .mul 1 b := heq 1 rfl
    have h₂ : 4 = isaAlu32 .mul 2 b := heq 2 rfl
    unfold isaAlu32 at h₁ h₂
    grind
  · have h₀ : 0 = isaAlu32 .xor 0 b := heq 0 rfl
    have h₁ : 0 = isaAlu32 .xor 1 b := heq 1 rfl
    unfold isaAlu32 at h₀ h₁
    dsimp only at h₀ h₁
    rw [UInt32.zero_xor] at h₀
    rw [← h₀] at h₁
    exact absurd h₁ (by decide)
  all_goals
    unfold isaAlu32 at heq
    dsimp only at heq
    rw [hk] at heq
    clear hk
  · have h₁ : (0 : UInt32) = 33 <<< UInt32.ofNat k := heq 33 rfl
    clear heq
    revert k
    decide +kernel
  · have h₁ : (0x80000000 : UInt32) = 1 >>> UInt32.ofNat k := heq 0x100000001 rfl
    clear heq
    revert k
    decide +kernel
  · have h₁ : (0x80000000 : UInt32) = ((1 : UInt32).toInt32 >>> (UInt32.ofNat k).toInt32).toUInt32 :=
      heq 0x100000001 rfl
    clear heq
    revert k
    decide +kernel

/-- `AND` and `OR` with an immediate operand are right only when nothing changes: the operand is the
neutral one, and the register used in its place is the destination. -/
theorem valueOk_imm_iff (hop : op = .and ∧ e = -1 ∨ op = .or ∧ e = 0) (hcls : cls = .alu ∨ cls = .alu64)
    (same : Prop) :
    (∀ a b, (same → b = a) → ValueOk cls op .k imm a b) ↔ same ∧ imm = e := by
  -- the lower halves of both sides
  have hlow {a b : UInt64} (h : ValueOk cls op .k imm a b) :
      (if op = .and then a &&& b else a ||| b).toUInt32 =
        (if op = .and then a &&& immOf imm else a ||| immOf imm).toUInt32 := by
    have hval := congrArg (Option.map UInt64.toUInt32) h
    rcases hop with ⟨rfl, -⟩ | ⟨rfl, -⟩ <;> rcases hcls with rfl | rfl
    · have hval : (low32 (a &&& b)).toUInt32 = (a.toUInt32 &&& (immOf imm).toUInt32).toUInt64.toUInt32 :=
        Option.some.inj hval
      rw [low32_toUInt32, UInt32.toUInt32_toUInt64] at hval
      simpa using hval
    · exact Option.some.inj hval
    · have hval : (low32 (a ||| b)).toUInt32 = (a.toUInt32 ||| (immOf imm).toUInt32).toUInt64.toUInt32 :=
        Option.some.inj hval
      rw [low32_toUInt32, UInt32.toUInt32_toUInt64] at hval
      simpa using hval
    · exact Option.some.inj hval
  constructor
  · intro hall
    constructor
    · by_contra hne
      have h₀ := hlow (hall (immOf e) 0 fun h => absurd h hne)
      have h₁ := hlow (hall (immOf e) 1 fun h => absurd h hne)
      rw [← h₁] at h₀
      rcases hop with ⟨rfl, rfl⟩ | ⟨rfl, rfl⟩ <;> exact absurd h₀ (by decide)
    · have h := hlow (hall (immOf e) (immOf e) fun _ => rfl)
      refine immOf_inj ?_
      rcases hop with ⟨rfl, rfl⟩ | ⟨rfl, rfl⟩
      · simpa [show immOf (-1) = -1 by decide] using h.symm
      · simpa [show immOf 0 = 0 by decide] using h.symm
  · rintro ⟨hs, rfl⟩ a b hb
    rw [hb hs]
    unfold ValueOk
    rcases hop with ⟨rfl, rfl⟩ | ⟨rfl, rfl⟩ <;> rcases hcls with rfl | rfl
    · show some (low32 (a &&& a)) = some (a.toUInt32 &&& (immOf (-1)).toUInt32).toUInt64
      rw [UInt64.and_self, low32_eq, show (immOf (-1)).toUInt32 = -1 by decide, UInt32.and_neg_one]
    · show some (a &&& a) = some (a &&& -1)
      rw [UInt64.and_self, UInt64.and_neg_one]
    · show some (low32 (a ||| a)) = some (a.toUInt32 ||| 0).toUInt64
      rw [UInt64.or_self, low32_eq, UInt32.or_zero]
    · show some (a ||| a) = some (a ||| 0)
      rw [UInt64.or_self, UInt64.or_zero]

end Values

section Kept

variable {op : AluOp} {imm : Int32} {same : Prop}

theorem immOf_eq {e : Int32} (h : immOf imm = immOf e) : imm = e := immOf_inj (h ▸ rfl)

/-- With a constant operand the destination keeps every value only if the operand is neutral. -/
theorem isaAlu64_imm_keeps_iff (hdiv : op ≠ .div) (hmod : op ≠ .mod) (hswap : op ≠ .bswap) :
    (∀ a, isaAlu64 op a (immOf imm) = a) ↔ KeepsValue op .k imm same := by
  obtain ⟨k, hk⟩ := and_63_cases (immOf imm)
  constructor
  · intro hall
    cases op with
    | add => exact immOf_eq (show immOf imm = 0 by simpa [isaAlu64] using hall 0)
    | sub =>
      have h₀ : 0 - immOf imm = 0 := hall 0
      exact immOf_eq (show immOf imm = 0 by grind)
    | or => exact immOf_eq (show immOf imm = 0 by simpa [isaAlu64] using hall 0)
    | xor => exact immOf_eq (show immOf imm = 0 by simpa [isaAlu64] using hall 0)
    | mul => exact immOf_eq (show immOf imm = 1 by simpa [isaAlu64] using hall 1)
    | and => exact immOf_eq (show immOf imm = -1 by simpa [isaAlu64] using hall (-1))
    | lsh =>
      have h₁ : 1 <<< (immOf imm &&& 63) = (1 : UInt64) := hall 1
      show immOf imm &&& 63 = 0
      rw [hk] at h₁ ⊢
      clear hk
      revert k
      decide +kernel
    | rsh =>
      have h₁ : 0x8000000000000000 >>> (immOf imm &&& 63) = (0x8000000000000000 : UInt64) := hall _
      show immOf imm &&& 63 = 0
      rw [hk] at h₁ ⊢
      clear hk
      revert k
      decide +kernel
    | arsh =>
      have h₁ : (UInt64.toInt64 0x4000000000000000 >>> (immOf imm &&& 63).toInt64).toUInt64 =
        0x4000000000000000 := hall _
      show immOf imm &&& 63 = 0
      rw [hk] at h₁ ⊢
      clear hk
      revert k
      decide +kernel
    | neg => exact absurd (show (-1 : UInt64) = 1 from hall 1) (by decide)
    | mov => exact absurd ((hall 0).symm.trans (hall 1)) (by decide)
    | div => exact hdiv rfl
    | mod => exact hmod rfl
    | bswap => exact hswap rfl
  · intro hcond a
    cases op with
    | add | sub | or | xor =>
      obtain rfl : imm = 0 := hcond
      simp [isaAlu64, show immOf 0 = 0 by decide]
    | mul =>
      obtain rfl : imm = 1 := hcond
      simp [isaAlu64, show immOf 1 = 1 by decide]
    | and =>
      obtain rfl : imm = -1 := hcond
      simp [isaAlu64, show immOf (-1) = -1 by decide]
    | lsh | rsh | arsh =>
      have hcond : immOf imm &&& 63 = 0 := hcond
      unfold isaAlu64
      dsimp only
      rw [hcond]
      simp
    | neg | mov | div | mod | bswap => contradiction

/-- With a register operand the destination keeps every value only if the register is the destination. -/
theorem isaAlu64_reg_keeps_iff (hdiv : op ≠ .div) (hmod : op ≠ .mod) (hswap : op ≠ .bswap) :
    (∀ a b, (same → b = a) → isaAlu64 op a b = a) ↔ KeepsValue op .x imm same := by
  constructor
  · intro hall
    have hdiag (c : UInt64) : isaAlu64 op c c = c := hall c c fun _ => rfl
    have hsame {a b : UInt64} (h : isaAlu64 op a b ≠ a) : same := by
      by_contra hne
      exact h (hall a b fun hs => absurd hs hne)
    cases op with
    | add | sub | xor | lsh | rsh | arsh | neg => exact absurd (hdiag 1) (by decide)
    | mul => exact absurd (hdiag 2) (by decide)
    | and => exact hsame (a := 1) (b := 0) (by decide)
    | or | mov => exact hsame (a := 0) (b := 1) (by decide)
    | div => exact hdiv rfl
    | mod => exact hmod rfl
    | bswap => exact hswap rfl
  · intro hcond a b hb
    cases op with
    | and | or | mov =>
      rw [hb hcond]
      simp [isaAlu64]
    | add | sub | xor | lsh | rsh | arsh | neg | mul | div | mod | bswap => contradiction

end Kept

section Step

variable {insn : Insn} {op : AluOp} {c : Ctx} {env : Env} {prog : List Insn} {numInsns pc : UInt32}

/-- The value a step computes, from the values of the two registers. -/
def InsnOk (insn : Insn) (op : AluOp) (a b : UInt64) : Prop :=
  if (insn.dstReg : ℕ) = 10 then
    (∃ v, aluResult (classOf insn.code) op (srcOf insn.code) insn.imm a b = some v) ∧
      isaValue (classOf insn.code) op a (if srcOf insn.code = .k then immOf insn.imm else b) = a
  else ValueOk (classOf insn.code) op (srcOf insn.code) insn.imm a b

theorem getReg_setReg {regs : Regs} {r d : ℕ} {v : UInt64} (hd : d < maxRegs) :
    getReg (setReg regs d v) r = if r = d ∧ d ≠ 10 then v else getReg regs r := by
  unfold getReg setReg
  rw [if_neg (show ¬d ≥ maxRegs by omega)]
  by_cases h10 : d = 10
  · rw [if_pos h10, if_neg (show ¬(r = d ∧ d ≠ 10) by tauto)]
  · rw [if_neg h10]
    by_cases hr : r = d
    · rw [if_neg (show ¬r ≥ maxRegs by omega), if_pos ⟨hr, h10⟩, hr, Function.update_self]
    · rw [if_neg (show ¬(r = d ∧ d ≠ 10) by tauto), Function.update_of_ne hr]

theorem aluStepOk_iff (hcls : classOf insn.code = .alu ∨ classOf insn.code = .alu64)
    (hop : aluOps.lookup (opOf insn.code) = some op) (hd : (insn.dstReg : ℕ) < maxRegs)
    (hpc : prog[c.pc.toNat]? = some insn) :
    AluStepOk env prog insn op c ↔
      InsnOk insn op (getReg c.regs insn.dstReg) (getReg c.regs insn.srcReg) := by
  have hstep : step env prog c = stepAlu insn c := by
    unfold step stepInsn
    rw [hpc]
    rcases hcls with h | h <;> simp only [h]
  unfold AluStepOk
  rw [hstep]
  unfold stepAlu InsnOk ValueOk isaOperand
  rw [hop]
  dsimp only
  cases aluResult (classOf insn.code) op (srcOf insn.code) insn.imm
      (getReg c.regs insn.dstReg) (getReg c.regs insn.srcReg) with
  | none => simp
  | some v =>
    dsimp only
    by_cases h10 : (insn.dstReg : ℕ) = 10
    · rw [if_pos h10]
      constructor
      · rintro ⟨regs', heq, hval, -⟩
        obtain rfl : setReg c.regs insn.dstReg v = regs' := congrArg Ctx.regs (Outcome.next.inj heq)
        rw [getReg_setReg hd, if_neg (by tauto)] at hval
        exact ⟨⟨v, rfl⟩, hval.symm⟩
      · rintro ⟨-, hkeep⟩
        refine ⟨_, rfl, ?_, fun r hr => ?_⟩
        · rw [getReg_setReg hd, if_neg (by tauto)]
          exact hkeep.symm
        · rw [getReg_setReg hd, if_neg (by tauto)]
    · rw [if_neg h10]
      constructor
      · rintro ⟨regs', heq, hval, -⟩
        obtain rfl : setReg c.regs insn.dstReg v = regs' := congrArg Ctx.regs (Outcome.next.inj heq)
        rw [getReg_setReg hd, if_pos ⟨rfl, h10⟩] at hval
        rw [hval]
      · intro hval
        refine ⟨_, rfl, ?_, fun r hr => ?_⟩
        · rw [getReg_setReg hd, if_pos ⟨rfl, h10⟩]
          exact Option.some.inj hval
        · rw [getReg_setReg hd, if_neg (by tauto)]

theorem verifyInsn_regs (h : verifyInsn numInsns pc insn = true) :
    (insn.dstReg : ℕ) < maxRegs ∧ (insn.srcReg : ℕ) < maxRegs := by
  unfold verifyInsn at h
  split_ifs at h with hregs
  all_goals
    rw [not_or] at hregs
    exact ⟨Nat.not_le.mp hregs.1, Nat.not_le.mp hregs.2⟩

theorem verifyFrom_get {n : ℕ} (h : verifyFrom numInsns pc prog = true) (hn : prog[n]? = some insn) :
    verifyInsn numInsns (pc + UInt32.ofNat n) insn = true := by
  induction prog generalizing pc n with
  | nil => cases hn
  | cons i rest ih =>
    rw [verifyFrom, Bool.and_eq_true] at h
    cases n with
    | zero =>
      cases hn
      rw [show UInt32.ofNat 0 = 0 by rfl, UInt32.add_zero]
      exact h.1
    | succ n =>
      have := ih h.2 hn
      rw [show UInt32.ofNat (n + 1) = 1 + UInt32.ofNat n by rw [UInt32.ofNat_add]; grind]
      rwa [← UInt32.add_assoc]

theorem bpfVerifier_eq_zero {zalloc : Bool} (h : bpfVerifier prog zalloc = 0) :
    0 < prog.length ∧ prog.length ≤ maxInsns ∧
      verifyFrom (UInt32.ofNat prog.length) 0 prog = true := by
  unfold bpfVerifier at h
  split_ifs at h with h₁ h₂ h₃
  rw [not_or] at h₁
  exact ⟨Nat.pos_of_ne_zero h₁.1, Nat.not_lt.mp h₁.2, h₃⟩

end Step

section Main

variable {cls : Class} {op : AluOp} {src : Src} {imm : Int32} {same : Prop} {insn : Insn}
  {prog : List Insn}

theorem aluResult_isSome (hdiv : op ≠ .div) (hmod : op ≠ .mod) (a b : UInt64) :
    ∃ v, aluResult cls op src imm a b = some v := by
  unfold aluResult aluValue
  cases op
  all_goals first | contradiction | exact ⟨_, rfl⟩ | skip
  split_ifs <;> exact ⟨_, rfl⟩

/-- When the value to write is the old one: never with 32 bits, which clear the upper half. -/
theorem isaValue_keeps_iff (hcls : cls = .alu ∨ cls = .alu64) (hdiv : op ≠ .div) (hmod : op ≠ .mod)
    (hswap : op ≠ .bswap) :
    (∀ a b, (same → b = a) → isaValue cls op a (if src = .k then immOf imm else b) = a) ↔
      cls = .alu64 ∧ KeepsValue op src imm same := by
  rcases hcls with rfl | rfl
  · refine ⟨fun hall => ?_, fun h => absurd h.1 (by decide)⟩
    have h := congrArg UInt64.toNat (hall 0x100000000 0x100000000 fun _ => rfl)
    have hlt := UInt32.toNat_lt (isaAlu32 op (UInt64.toUInt32 0x100000000)
      (if src = .k then immOf imm else 0x100000000).toUInt32)
    unfold isaValue at h
    rw [if_pos rfl, UInt32.toNat_toUInt64] at h
    have h' : (0x100000000 : UInt64).toNat = 2 ^ 32 := rfl
    omega
  · have h64 : ∀ a b, isaValue .alu64 op a b = isaAlu64 op a b := fun a b => if_neg (by decide)
    simp only [h64, true_and]
    cases src with
    | k =>
      rw [← isaAlu64_imm_keeps_iff hdiv hmod hswap]
      exact ⟨fun h a => h a a fun _ => rfl, fun h a _ _ => h a⟩
    | x => exact isaAlu64_reg_keeps_iff hdiv hmod hswap

/-- When the value is right for all registers. -/
theorem valueOk_iff (hcls : cls = .alu ∨ cls = .alu64) (hdiv : op ≠ .div) (hmod : op ≠ .mod)
    (hswap : op ≠ .bswap) :
    (∀ a b, (same → b = a) → ValueOk cls op src imm a b) ↔ RightValue cls op src imm same := by
  have hdiag (hall : ∀ a b, (same → b = a) → ValueOk cls op src imm a b) (c : UInt64) :
      ValueOk cls op src imm c c := hall c c fun _ => rfl
  cases src with
  | x =>
    rcases hcls with rfl | rfl
    · cases op with
      | add | sub | mul | xor => exact ⟨fun _ => rfl, fun _ a b _ => valueOk_reg32 (by decide)⟩
      | and | or => exact ⟨fun _ => .inl rfl, fun _ a b _ => valueOk_reg32 (by decide)⟩
      | mov => exact ⟨fun _ => trivial, fun _ a b _ => valueOk_reg32 (by decide)⟩
      | lsh | rsh | arsh =>
        exact ⟨fun hall => absurd (hdiag hall) (not_valueOk_shift32_reg (by decide)),
          fun h => absurd h.2 (by decide)⟩
      | neg => exact ⟨fun hall => absurd (hdiag hall 1) (not_valueOk_neg32 _), fun h => nomatch h⟩
      | div => exact absurd rfl hdiv
      | mod => exact absurd rfl hmod
      | bswap => exact absurd rfl hswap
    · refine ⟨fun _ => ?_, fun _ a b _ => valueOk_reg64 hdiv hmod hswap⟩
      unfold RightValue
      cases op <;> simp
  | k =>
    cases op with
    | mov => exact ⟨fun _ => trivial, fun _ a b _ => valueOk_mov_imm hcls⟩
    | neg =>
      rcases hcls with rfl | rfl
      · exact ⟨fun hall => absurd (hdiag hall 1) (not_valueOk_neg32 _), fun h => nomatch h⟩
      · exact ⟨fun _ => rfl, fun _ a b _ => valueOk_neg64⟩
    | and =>
      rw [valueOk_imm_iff (.inl ⟨rfl, rfl⟩) hcls same]
      exact ⟨.inr, fun h => h.resolve_left (by decide)⟩
    | or =>
      rw [valueOk_imm_iff (.inr ⟨rfl, rfl⟩) hcls same]
      exact ⟨.inr, fun h => h.resolve_left (by decide)⟩
    | add | sub | mul | xor =>
      refine ⟨fun hall => ?_, fun h => nomatch h⟩
      rcases hcls with rfl | rfl
      · exact absurd (hdiag hall) (not_valueOk_imm32 (by decide))
      · exact absurd (hdiag hall) (not_valueOk_imm64 (by decide))
    | lsh | rsh | arsh =>
      refine ⟨fun hall => ?_, fun h => nomatch h.1⟩
      rcases hcls with rfl | rfl
      · exact absurd (hdiag hall) (not_valueOk_imm32 (by decide))
      · exact absurd (hdiag hall) (not_valueOk_imm64 (by decide))
    | div => exact absurd rfl hdiv
    | mod => exact absurd rfl hmod
    | bswap => exact absurd rfl hswap

theorem insnOk_iff (hcls : classOf insn.code = .alu ∨ classOf insn.code = .alu64)
    (hswap : op ≠ .bswap) :
    (∀ a b, (insn.srcReg = insn.dstReg → b = a) → InsnOk insn op a b) ↔ AluSound insn op := by
  have hsome (h : InsnOk insn op 0 0) :
      ∃ v, aluResult (classOf insn.code) op (srcOf insn.code) insn.imm 0 0 = some v := by
    unfold InsnOk at h
    by_cases h10 : (insn.dstReg : ℕ) = 10
    · rw [if_pos h10] at h
      exact h.1
    · rw [if_neg h10] at h
      exact ⟨_, h⟩
  by_cases hop : op = .div ∨ op = .mod
  · refine ⟨fun hall => ?_, fun h => ?_⟩
    · obtain ⟨v, hv⟩ := hsome (hall 0 0 fun _ => rfl)
      rcases hop with rfl | rfl <;> cases hv
    · exact absurd hop (not_or.mpr ⟨h.1, h.2.1⟩)
  rw [not_or] at hop
  unfold AluSound InsnOk
  by_cases h10 : (insn.dstReg : ℕ) = 10
  · simp only [if_pos h10, ← isaValue_keeps_iff hcls hop.1 hop.2 hswap]
    exact ⟨fun h => ⟨hop.1, hop.2, fun a b hab => (h a b hab).2⟩,
      fun h a b hab => ⟨aluResult_isSome hop.1 hop.2 a b, h.2.2 a b hab⟩⟩
  · simp only [if_neg h10, valueOk_iff hcls hop.1 hop.2 hswap]
    exact ⟨fun h => ⟨hop.1, hop.2, h⟩, fun h => h.2.2⟩

/-- An environment without context and without helpers. -/
def bareEnv : Env := { ctxIn := 0, helper := fun _ => none, rdtsc := fun _ => 0 }

/-- In a verified program, an arithmetic instruction gives the value of the instruction set for all
register contents exactly when it is one of `AluSound`. -/
theorem alu_step_ok_iff {zalloc : Bool} (hv : bpfVerifier prog zalloc = 0) {n : ℕ}
    (hn : prog[n]? = some insn) (hcls : classOf insn.code = .alu ∨ classOf insn.code = .alu64)
    (hop : aluOps.lookup (opOf insn.code) = some op) (hswap : op ≠ .bswap) :
    (∀ env c, c.pc.toNat = n → AluStepOk env prog insn op c) ↔ AluSound insn op := by
  obtain ⟨-, hlen, hall⟩ := bpfVerifier_eq_zero hv
  obtain ⟨hd, hs⟩ := verifyInsn_regs (verifyFrom_get hall hn)
  have hlt : n < prog.length := (List.getElem?_eq_some_iff.mp hn).1
  rw [← insnOk_iff hcls hswap]
  constructor
  · intro h a b hab
    let regs : Regs := Function.update (fun _ => b) insn.dstReg a
    have hpc : (UInt32.ofNat n).toNat = n := by
      unfold maxInsns at hlen
      exact UInt32.toNat_ofNat_of_lt' (show n < 2 ^ 32 by omega)
    have hdst : getReg regs insn.dstReg = a := by
      unfold getReg
      rw [if_neg (Nat.not_le.mpr hd)]
      exact Function.update_self _ _ _
    have hsrc : getReg regs insn.srcReg = b := by
      by_cases hsame : insn.srcReg = insn.dstReg
      · rw [hsame, hdst, hab hsame]
      · unfold getReg
        rw [if_neg (Nat.not_le.mpr hs)]
        exact Function.update_of_ne (fun h => hsame (Fin.ext h)) _ _
    have hok := h bareEnv ⟨regs, UInt32.ofNat n, fun _ => 0, 0⟩ hpc
    rw [aluStepOk_iff hcls hop hd (by rw [hpc]; exact hn)] at hok
    rw [← hdst, ← hsrc]
    exact hok
  · intro h env c hc
    rw [aluStepOk_iff hcls hop hd (by rw [hc]; exact hn)]
    exact h _ _ fun hsame => by rw [hsame]

def exitInsn : Insn := ⟨0x95, 0, 0, 0, 0⟩

/-- `r0 += r1`. -/
theorem alu_step_ok_iff_add :
    (∀ env c, c.pc.toNat = 0 → AluStepOk env [⟨0x0F, 0, 1, 0, 0⟩, exitInsn] ⟨0x0F, 0, 1, 0, 0⟩ .add c) ↔
      AluSound ⟨0x0F, 0, 1, 0, 0⟩ .add :=
  alu_step_ok_iff (show bpfVerifier _ true = 0 by decide) rfl (by decide) (by decide) (by decide)

/-- `r0 += 5` adds the source register, here `r0`, which is 0. -/
theorem add_imm_uses_register : ¬ ∀ (prog : List Insn) (n : ℕ) (insn : Insn) (op : AluOp),
    bpfVerifier prog true = 0 → prog[n]? = some insn →
    (classOf insn.code = .alu ∨ classOf insn.code = .alu64) →
    aluOps.lookup (opOf insn.code) = some op → op ≠ .bswap →
    ∀ env c, c.pc.toNat = n → AluStepOk env prog insn op c := by
  intro hall
  have h := hall [⟨0x07, 0, 0, 0, 5⟩, exitInsn] 0 ⟨0x07, 0, 0, 0, 5⟩ .add (by decide) rfl (by decide)
    (by decide) (by decide) bareEnv ⟨fun _ => 0, 0, fun _ => 0, 0⟩ rfl
  rw [aluStepOk_iff (by decide) (by decide) (by decide) rfl] at h
  exact absurd (Option.some.inj h) (by decide)

end Main

end Bpf
