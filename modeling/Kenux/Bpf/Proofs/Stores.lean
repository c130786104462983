import Kenux.Bpf.Proofs.Alu
import Kenux.Bpf.Proofs.Termination

/-!
# Where stores go
-/

namespace Bpf

section Memory

variable {m : Mem} {addr val a : UInt64} {n size : ℕ}

/-- A store changes only the bytes it is for. -/
theorem storeBytes_other (h : ¬(a - addr).toNat < n) (hn : n < 2 ^ 64) :
    storeBytes m addr val n a = m a := by
  induction n generalizing m addr val with
  | zero => rfl
  | succ n ih =>
    unfold storeBytes
    have hne : a ≠ addr := by
      rintro rfl
      rw [UInt64.sub_self] at h
      exact h (Nat.succ_pos n)
    have hsub : (a - (addr + 1)).toNat = (a - addr).toNat - 1 := by
      have hpos : (1 : UInt64) ≤ a - addr := by
        rw [UInt64.le_iff_toNat_le]
        show 1 ≤ _
        omega
      rw [show a - (addr + 1) = a - addr - 1 by grind, UInt64.toNat_sub_of_le _ _ hpos]
      rfl
    rw [ih (by omega) (by omega), Function.update_of_ne hne]

theorem writeMem_other (h : ¬(a - addr).toNat < size) (hs : size < 2 ^ 64) :
    writeMem m size addr val a = m a := by
  unfold writeMem
  split_ifs
  · rfl
  · exact storeBytes_other h hs

theorem sizeOf_le (code : UInt8) : sizeOf code ≤ 8 := by
  unfold sizeOf
  split <;> omega

end Memory

variable {prog : List Insn} {insn : Insn} {env : Env} {c c' c₀ : Ctx} {top : UInt64} {a : AbsRegs}

section Abstract

variable {cls : Class} {op : AluOp} {src : Src} {imm : Int32} {x y : AbsVal} {dv sv v : UInt64}

theorem AbsVal.Weaker.describes {x y : AbsVal} (h : x.Weaker y) (hx : x.Describes top v) :
    y.Describes top v := by
  rcases h with rfl | rfl
  · exact trivial
  · exact hx

theorem describes_getD_const {r : Option UInt64} (h : ∀ w, r = some w → v = w) :
    ((r.map AbsVal.const).getD .any).Describes top v := by
  cases r with
  | none => exact trivial
  | some w => exact h w rfl

/-- The 64-bit value of an operation that is no division. -/
theorem aluResult_alu64 (hv : aluResult .alu64 op src imm dv sv = some v) :
    aluValue op src imm dv sv = some v := by
  unfold aluResult at hv
  obtain ⟨w, hw, rfl⟩ := Option.map_eq_some_iff.mp hv
  exact hw

theorem absAddr_describes (hcls : cls = .alu ∨ cls = .alu64) (hx : x.Describes top dv)
    (hy : y.Describes top sv) (hv : aluResult cls op src imm dv sv = some v) :
    (absAddr cls op src imm x y).Describes top v := by
  unfold absAddr
  split_ifs with hmov halu
  · obtain ⟨rfl, rfl⟩ := hmov
    refine describes_getD_const fun w hw => ?_
    rw [show aluResult cls .mov .k imm 0 0 = aluResult cls .mov .k imm dv sv from rfl] at hw
    exact Option.some.inj (hv.symm.trans hw)
  · exact trivial
  · obtain rfl := hcls.resolve_left halu
    have hv := aluResult_alu64 hv
    split
    · have hsrc : src ≠ .k := fun h => hmov ⟨rfl, h⟩
      have : sv = v := by
        unfold aluValue at hv
        simpa [hsrc] using hv
      exact this ▸ hy
    · have : dv + sv = v := Option.some.inj hv
      unfold AbsVal.Describes at hx hy ⊢
      grind
    · have : dv + sv = v := Option.some.inj hv
      unfold AbsVal.Describes at hx hy ⊢
      grind
    · have : dv - sv = v := Option.some.inj hv
      unfold AbsVal.Describes at hx hy ⊢
      grind
    · exact trivial

theorem absAlu_describes (hcls : cls = .alu ∨ cls = .alu64) (hx : x.Describes top dv)
    (hy : y.Describes top sv) (hv : aluResult cls op src imm dv sv = some v) :
    (absAlu cls op src imm x y).Describes top v := by
  have hother := absAddr_describes hcls hx hy hv
  cases x with
  | const xc =>
    cases y with
    | const yc =>
      obtain rfl : dv = xc := hx
      obtain rfl : sv = yc := hy
      exact describes_getD_const fun w hw => Option.some.inj (hv.symm.trans hw)
    | frame k => exact hother
    | any => exact hother
  | frame k => exact hother
  | any => exact hother

end Abstract

section Step

/-- What a round does with the registers when the instruction is no call. -/
def Writes (insn : Insn) (top : UInt64) (a : AbsRegs) (c c' : Ctx) : Prop :=
  c'.regs = c.regs ∧ absResult insn a = none ∨
    ∃ v, c'.regs = setReg c.regs insn.dstReg v ∧
      (a.Describes top c.regs → ∃ w, absResult insn a = some w ∧ w.Describes top v)

theorem stepAlu_writes (hcls : classOf insn.code = .alu ∨ classOf insn.code = .alu64)
    (h : stepAlu insn c = .next c') : c'.mem = c.mem ∧ Writes insn top a c c' := by
  unfold stepAlu at h
  split at h
  · cases h
  · rename_i op hop
    split at h
    · cases h
    · rename_i v hv
      cases h
      refine ⟨rfl, .inr ⟨v, rfl, fun ha => ⟨_, ?_, absAlu_describes hcls (ha _) (ha _) hv⟩⟩⟩
      unfold absResult
      rcases hcls with hc | hc
      · simp [hc, hop]
      · simp [hc, hop]

theorem writes_any (h : absResult insn a = some .any) {v : UInt64}
    (hc : c'.regs = setReg c.regs insn.dstReg v) : Writes insn top a c c' :=
  .inr ⟨v, hc, fun _ => ⟨_, h, trivial⟩⟩

theorem stepLd_writes (hcls : classOf insn.code = .ld) (h : stepLd env prog insn c = .next c') :
    c'.mem = c.mem ∧ Writes insn top a c c' := by
  have habs : absResult insn a = some .any := by
    unfold absResult
    rw [hcls]
  unfold stepLd at h
  dsimp only at h
  split_ifs at h
  · split at h
    · split_ifs at h
      all_goals
        cases h
        exact ⟨rfl, writes_any habs rfl⟩
    · cases h
      exact ⟨rfl, writes_any habs rfl⟩
  all_goals
    cases h
    exact ⟨rfl, writes_any habs rfl⟩

theorem stepJmp_writes (hj : isJmp insn) (hcall : ¬IsCall insn) (h : stepJmp env insn c = .next c') :
    c'.mem = c.mem ∧ Writes insn top a c c' := by
  have habs : absResult insn a = none := by
    unfold absResult
    rcases hj with hc | hc <;> rw [hc]
  unfold stepJmp at h
  split at h
  · cases h
  · cases h
    exact ⟨rfl, .inl ⟨rfl, habs⟩⟩
  · rename_i hop
    exact absurd ⟨hj, hop⟩ hcall
  · cases h
  · dsimp only at h
    generalize jmpCond _ _ _ _ = taken at h
    cases taken
    all_goals
      cases h
      exact ⟨rfl, .inl ⟨rfl, habs⟩⟩

variable (top) in
/-- What a round changes when the instruction is no call. -/
theorem stepInsn_effect (hcall : ¬IsCall insn) (h : stepInsn env prog insn c = .next c') :
    (c'.mem = c.mem ∨ IsStore insn ∧
      c'.mem = writeMem c.mem (sizeOf insn.code) (storeAddr insn c) (storeVal insn c)) ∧
    Writes insn top a c c' := by
  unfold stepInsn at h
  cases hcls : classOf insn.code with
  | alu =>
    rw [hcls] at h
    obtain ⟨hm, hw⟩ := stepAlu_writes (.inl hcls) h
    exact ⟨.inl hm, hw⟩
  | alu64 =>
    rw [hcls] at h
    obtain ⟨hm, hw⟩ := stepAlu_writes (.inr hcls) h
    exact ⟨.inl hm, hw⟩
  | jmp =>
    rw [hcls] at h
    obtain ⟨hm, hw⟩ := stepJmp_writes (.inl hcls) hcall h
    exact ⟨.inl hm, hw⟩
  | jmp32 =>
    rw [hcls] at h
    obtain ⟨hm, hw⟩ := stepJmp_writes (.inr hcls) hcall h
    exact ⟨.inl hm, hw⟩
  | ld =>
    rw [hcls] at h
    obtain ⟨hm, hw⟩ := stepLd_writes hcls h
    exact ⟨.inl hm, hw⟩
  | ldx =>
    rw [hcls] at h
    cases h
    refine ⟨.inl rfl, writes_any ?_ rfl⟩
    unfold absResult
    rw [hcls]
  | st =>
    rw [hcls] at h
    cases h
    refine ⟨.inr ⟨.inl hcls, rfl⟩, .inl ⟨rfl, ?_⟩⟩
    unfold absResult
    rw [hcls]
  | stx =>
    rw [hcls] at h
    cases h
    refine ⟨.inr ⟨.inr hcls, rfl⟩, .inl ⟨rfl, ?_⟩⟩
    unfold absResult
    rw [hcls]

/-- The knowledge after an instruction is right if the knowledge before it is. -/
theorem transfer_describes (hd : (insn.dstReg : ℕ) < maxRegs) (hw : Writes insn top a c c')
    (ha : a.Describes top c.regs) : (transfer insn a).Describes top c'.regs := by
  intro r
  unfold transfer
  rcases hw with ⟨hregs, hnone⟩ | ⟨v, hregs, hval⟩
  · rw [hregs, hnone]
    split_ifs <;> exact ha r
  · obtain ⟨w, hw, hv⟩ := hval ha
    rw [hregs, getReg_setReg hd]
    by_cases hr : r = insn.dstReg
    · by_cases h10 : r = 10
      · rw [if_neg (by tauto), if_neg (by omega)]
        exact ha r
      · rw [if_pos ⟨hr, h10⟩, if_pos ⟨hr, by omega⟩, hw]
        exact hv
    · rw [if_neg (by tauto), if_neg (by tauto)]
      exact ha r

end Step

section Runs

variable {b : ℕ → AbsRegs} {m : Mem}

theorem startRegs_describes (env : Env) (top : UInt64) (m : Mem) :
    startRegs.Describes top (initCtx env top m).regs := by
  intro r
  unfold startRegs
  split_ifs with h10 hctx
  · subst h10
    show top = top + 0
    rw [UInt64.add_zero]
  · exact trivial
  · show getReg (initCtx env top m).regs r = 0
    unfold getReg
    split_ifs
    · rfl
    · show (if r = 10 then top else if env.ctxIn ≠ 0 ∧ 1 ≤ r ∧ r ≤ 5 then _ else 0) = (0 : UInt64)
      rw [if_neg h10, if_neg (by tauto)]

/-- In the frame from the start of the store to its end. -/
theorem inFrame_of_store {k addr x : UInt64} {n : ℕ} (haddr : addr = top + k)
    (hk : (k + 512).toNat + n ≤ 512) (hx : (x - addr).toNat < n) : InFrame top x := by
  unfold InFrame
  have hsum : x - (top - 512) = (x - addr) + (k + 512) := by
    rw [haddr]
    grind
  rw [hsum, UInt64.toNat_add]
  exact Nat.lt_of_le_of_lt (Nat.mod_le _ _) (by omega)

/-- The addresses a store is for are in the frame. -/
theorem annotated_store (hb : Annotated prog b) (hdesc : (b c.pc.toNat).Describes top c.regs)
    (hpc : prog[c.pc.toNat]? = some insn) (hstore : IsStore insn) {x : UInt64}
    (hx : (x - storeAddr insn c).toNat < sizeOf insn.code) : InFrame top x := by
  obtain ⟨k, hk, hbound⟩ := hb.store _ insn hpc hstore
  have hreg := hdesc insn.dstReg
  rw [hk] at hreg
  have haddr : storeAddr insn c = top + (k + offOf insn.off) := by
    unfold storeAddr
    rw [show getReg c.regs insn.dstReg = top + k from hreg, UInt64.add_assoc]
  exact inFrame_of_store haddr hbound hx

theorem step_stepInsn (hpc : prog[c.pc.toNat]? = some insn) :
    step env prog c = stepInsn env prog insn c := by
  unfold step
  rw [hpc]

/-- Memory changes only under a store, and only in its own bytes. -/
theorem mem_ne_of_step (hcall : ¬IsCall insn) (hpc : prog[c.pc.toNat]? = some insn)
    (hs : step env prog c = .next c') {x : UInt64} (hx : c'.mem x ≠ c.mem x) :
    IsStore insn ∧ (x - storeAddr insn c).toNat < sizeOf insn.code := by
  rw [step_stepInsn hpc] at hs
  rcases (stepInsn_effect 0 (a := startRegs) hcall hs).1 with heq | ⟨hstore, heq⟩
  · rw [heq] at hx
    exact absurd rfl hx
  · refine ⟨hstore, ?_⟩
    by_contra hge
    have hsize := sizeOf_le insn.code
    rw [heq, writeMem_other hge (by omega)] at hx
    exact hx rfl

/-- One round of an annotated program: the knowledge stays right and only the frame changes. -/
theorem annotated_step (hver : verifyFrom (UInt32.ofNat prog.length) 0 prog = true)
    (hlen : prog.length ≤ maxInsns) (hb : Annotated prog b)
    (hdesc : c.pc.toNat < prog.length → (b c.pc.toNat).Describes top c.regs)
    (hquiet : ∀ insn, prog[c.pc.toNat]? = some insn → ¬IsCall insn)
    (hs : step env prog c = .next c') :
    (c'.pc.toNat < prog.length → (b c'.pc.toNat).Describes top c'.regs) ∧
      ∀ x, ¬InFrame top x → c'.mem x = c.mem x := by
  have hin : c.pc.toNat < prog.length := by
    by_contra hge
    unfold step at hs
    rw [List.getElem?_eq_none (by omega)] at hs
    cases hs
  have hpc : prog[c.pc.toNat]? = some prog[c.pc.toNat] := List.getElem?_eq_getElem hin
  generalize prog[c.pc.toNat] = insn at hpc
  have hcall := hquiet insn hpc
  have hdesc := hdesc hin
  have hd := (verifyInsn_regs (verifyFrom_get hver hpc)).1
  have hwrites := (stepInsn_effect top (a := b c.pc.toNat) hcall (step_stepInsn hpc ▸ hs)).2
  constructor
  · intro hin'
    obtain ⟨hends, hcase⟩ := step_next hpc (pc_lt hlen hin) hs
    have hflow : Flows prog c.pc.toNat c'.pc.toNat := by
      refine ⟨insn, hpc, hends, ?_⟩
      rcases hcase with ⟨hj, heq⟩ | hnext
      · refine .inl ⟨hj, ?_⟩
        -- a target in the program is not the result of a wrap
        have hto := jmpTarget_toNat c.pc insn.off
        have hlo := Int16.le_toInt insn.off
        have hhi := Int16.toInt_lt insn.off
        unfold maxInsns at hlen
        rw [heq] at hin' ⊢
        unfold target
        omega
      · exact .inr hnext
    have hafter := transfer_describes hd hwrites hdesc
    intro r
    exact (hb.flow _ insn _ hpc hcall hflow r).describes (hafter r)
  · intro x hx
    by_contra hne
    obtain ⟨hstore, hlt⟩ := mem_ne_of_step hcall hpc hs hne
    exact hx (annotated_store hb hdesc hpc hstore hlt)

/-- The instruction is a store for addresses in the frame only. -/
def StoresInFrame (top : UInt64) (insn : Insn) (c : Ctx) : Prop :=
  IsStore insn → ∀ x : UInt64, (x - storeAddr insn c).toNat < sizeOf insn.code → InFrame top x

/-- `*(u64 *)(r10 - 8) = 7; exit`. -/
def pushProg : List Insn := [⟨0x7A, 10, 0, -8, 7⟩, ⟨0x95, 0, 0, 0, 0⟩]

theorem pushProg_annotated : Annotated pushProg fun _ => startRegs := by
  refine ⟨fun r => .inr rfl, ?_, ?_⟩
  · rintro pc insn pc' hpc - ⟨insn', hpc', hends, -⟩ r
    obtain rfl : insn = insn' := Option.some.inj (hpc.symm.trans hpc')
    match pc, hpc with
    | 0, hpc =>
      obtain rfl : _ = insn := Option.some.inj hpc
      refine .inr ?_
      unfold transfer
      split_ifs <;> rfl
    | 1, hpc =>
      obtain rfl : _ = insn := Option.some.inj hpc
      exact absurd (.inr ⟨.inl rfl, .inr rfl⟩) hends
  · intro pc insn hpc hstore
    match pc, hpc with
    | 0, hpc =>
      obtain rfl : _ = insn := Option.some.inj hpc
      exact ⟨0, rfl, by decide⟩
    | 1, hpc =>
      obtain rfl : _ = insn := Option.some.inj hpc
      exact absurd hstore (by unfold IsStore; decide)

end Runs

end Bpf
