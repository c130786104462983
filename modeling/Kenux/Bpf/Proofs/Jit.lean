import Kenux.Bpf.Proofs.Alu
import Kenux.Lib.X86

/-!
# Compiled moves and additions

The bytes for a program of moves and additions decode to x86-64 code for the instructions they stand for,
unless one of them is no instruction. What the code returns is the final `r7`.
-/

/-!
## The JIT compiler

Model of `bpf_jit_compile` in `kernel/arch/x86_64/bpf.c`. The eBPF register `rN` is the x86-64 register
with the number `N`. `BPF_EXIT` moves `rdi`, which is `r7`, to `rax`, and instructions other than moves,
additions and exits emit nothing.
-/

namespace Bpf

section Emit

def bpfJitSize : ℕ := 64 * 1024

def emitByte (buf : List UInt8) (b : UInt8) : List UInt8 :=
  if buf.length < bpfJitSize then buf ++ [b] else buf

def emitDword (buf : List UInt8) (val : UInt32) : List UInt8 :=
  let buf := emitByte buf (val &&& 0xFF).toUInt8
  let buf := emitByte buf ((val >>> 8) &&& 0xFF).toUInt8
  let buf := emitByte buf ((val >>> 16) &&& 0xFF).toUInt8
  emitByte buf ((val >>> 24) &&& 0xFF).toUInt8

def emitMovReg (buf : List UInt8) (dst src : UInt8) : List UInt8 :=
  if dst = src then buf
  else
    let buf := emitByte (emitByte buf 0x48) 0x89
    emitByte buf ((0xC0 : UInt8) ||| src <<< (3 : UInt8) ||| dst)

def emitAddReg (buf : List UInt8) (dst src : UInt8) : List UInt8 :=
  let buf := emitByte (emitByte buf 0x48) 0x01
  emitByte buf ((0xC0 : UInt8) ||| src <<< (3 : UInt8) ||| dst)

def emitRet (buf : List UInt8) : List UInt8 := emitByte buf 0xC3

/-- The switch of `bpf_jit_compile` for one instruction. -/
def jitInsn (buf : List UInt8) (insn : Insn) : List UInt8 :=
  let dst := UInt8.ofNat insn.dstReg
  let sr := UInt8.ofNat insn.srcReg
  match classOf insn.code with
  | .alu64 =>
    match aluOps.lookup (opOf insn.code) with
    | some .mov =>
      if srcOf insn.code = .k then
        let buf := emitByte (emitByte buf 0x48) 0xC7
        emitDword (emitByte buf ((0xC0 : UInt8) ||| dst)) insn.imm.toUInt32
      else emitMovReg buf dst sr
    | some .add =>
      if srcOf insn.code = .k then
        let buf := emitByte (emitByte buf 0x48) 0x83
        emitByte (emitByte buf ((0xC0 : UInt8) ||| dst)) insn.imm.toUInt32.toUInt8
      else emitAddReg buf dst sr
    | _ => buf
  | .jmp =>
    if jmpOps.lookup (opOf insn.code) = some .exit then emitRet (emitMovReg buf 0 7) else buf
  | _ => buf

/-- `bpf_jit_compile`: the return value and the image; only a null program is refused. -/
def bpfJitCompile : Option (List Insn) → ℤ × List UInt8
  | none => (-1, [])
  | some prog => (0, prog.foldl jitInsn [])

end Emit

section Spec

/-- A 64-bit move or addition between `r0` to `r9`. -/
def IsMovAdd (insn : Insn) : Prop :=
  classOf insn.code = .alu64 ∧
    (aluOps.lookup (opOf insn.code) = some .mov ∨ aluOps.lookup (opOf insn.code) = some .add) ∧
    (insn.dstReg : ℕ) ≤ 9 ∧ (srcOf insn.code = .x → (insn.srcReg : ℕ) ≤ 9)

def IsExit (insn : Insn) : Prop :=
  classOf insn.code = .jmp ∧ jmpOps.lookup (opOf insn.code) = some .exit

/-- The program is `body` followed by an exit. -/
def IsMovAddProgram (prog body : List Insn) : Prop :=
  (∀ insn ∈ body, IsMovAdd insn) ∧ ∃ last, IsExit last ∧ prog = body ++ [last]

/-- A move or addition as the instruction set has it. -/
def isaStep (regs : Regs) (insn : Insn) : Regs :=
  let op := (aluOps.lookup (opOf insn.code)).getD .mov
  let b := if srcOf insn.code = .k then immOf insn.imm else regs insn.srcReg
  Function.update regs insn.dstReg (isaAlu64 op (regs insn.dstReg) b)

def isaRun (body : List Insn) (regs : Regs) : Regs := body.foldl isaStep regs

/-- Run as x86-64 code with any register contents and any stack, the image returns to the caller with the
value that the program leaves in `r0`. -/
def JitOk (image : List UInt8) (body : List Insn) : Prop :=
  ∀ (regs : Regs) (stack : UInt64 → UInt64), ∃ regs',
    X86.run stack image.length image regs = some (stack (regs 4), regs') ∧
      regs' 0 = isaRun body regs 0

def HasOtherInsn (prog : List Insn) : Prop := ∃ insn ∈ prog, ¬IsMovAdd insn ∧ ¬IsExit insn

/-- What is asked of the compiler: right code for moves and additions, no code for anything else. -/
structure JitClaim (prog : List Insn) : Prop where
  right : ∀ body, IsMovAddProgram prog body → JitOk (bpfJitCompile (some prog)).2 body
  refused : HasOtherInsn prog → (bpfJitCompile (some prog)).1 ≠ 0

/-- The three bits of a register number for which there is room. -/
def lowReg (r : Fin 16) : Fin 16 := if 8 ≤ r then r - 8 else r

/-- The instruction that the bytes for a move or an addition stand for: the bit of `dst` above its three
falls into the field for `src` or for the operation, and an addition has room for a signed byte. -/
def asEmitted (insn : Insn) : Option Insn :=
  let imm := insn.imm.toInt8.toInt32
  if srcOf insn.code = .k then
    if aluOps.lookup (opOf insn.code) = some .mov then
      if 8 ≤ insn.dstReg then none else some insn
    else if 8 ≤ insn.dstReg then
      some { insn with code := 0x47, dstReg := lowReg insn.dstReg, imm := imm }
    else some { insn with imm := imm }
  else if aluOps.lookup (opOf insn.code) = some .mov ∧ insn.dstReg = insn.srcReg then some insn
  else
    let src := insn.srcReg ||| if 8 ≤ insn.dstReg then 1 else 0
    some { insn with dstReg := lowReg insn.dstReg, srcReg := lowReg src }

/-- The instructions that the bytes stand for leave the stack pointer, `r4`, as it is, and leave in `r7`
what the program leaves in `r0`. -/
def EmittedRight (body : List Insn) : Prop :=
  ∃ emitted, body.mapM asEmitted = some emitted ∧
    ∀ regs, isaRun emitted regs 4 = regs 4 ∧ isaRun emitted regs 7 = isaRun body regs 0

end Spec

end Bpf

namespace Bpf

variable {insn e : Insn} {buf bs : List UInt8} {prog body : List Insn} {is : List X86.Instr}

section Emit

/-- Emits some bytes while there is room. -/
def emitBytes (buf bs : List UInt8) : List UInt8 := bs.foldl emitByte buf

@[simp] theorem emitBytes_nil : emitBytes buf [] = buf := rfl
@[simp] theorem emitBytes_cons (b : UInt8) :
    emitBytes buf (b :: bs) = emitBytes (emitByte buf b) bs := rfl

theorem emitBytes_eq (h : buf.length + bs.length ≤ bpfJitSize) : emitBytes buf bs = buf ++ bs := by
  induction bs generalizing buf with
  | nil => exact (List.append_nil buf).symm
  | cons b bs ih =>
    rw [List.length_cons] at h
    have hroom : emitByte buf b = buf ++ [b] := if_pos (by omega)
    show emitBytes (emitByte buf b) bs = _
    rw [hroom, ih (by rw [List.length_append, List.length_singleton]; omega), List.append_assoc]
    rfl

/-- Some x86-64 code that does not return. -/
def Straight (is : List X86.Instr) : Prop := ∀ i ∈ is, i.Plain ∧ i ≠ .ret

def bytesOf (is : List X86.Instr) : List UInt8 := (is.map X86.encode).flatten

/-- The compiler emits some instructions for an instruction. -/
structure Emits (insn : Insn) (is : List X86.Instr) (e : Insn) : Prop where
  straight : Straight is
  bytes : ∀ buf, jitInsn buf insn = emitBytes buf (bytesOf is)
  room : (bytesOf is).length ≤ 7
  exec : ∀ regs, X86.execAll is regs = isaStep regs e

/-- The compiler emits bytes that are no instruction. -/
structure EmitsBad (insn : Insn) (bs : List UInt8) : Prop where
  bytes : ∀ buf, jitInsn buf insn = emitBytes buf bs
  room : bs.length ≤ 7
  bad : ∀ rest, X86.decode (bs ++ rest) = none

theorem modrm_dst : ∀ dst : Fin 16, (dst : ℕ) ≤ 9 →
    (0xC0 : UInt8) ||| UInt8.ofNat dst = X86.modrm (if 8 ≤ dst then 1 else 0) (lowReg dst) ∧
      (lowReg dst : ℕ) < 8 := by
  decide +kernel

theorem modrm_both : ∀ dst src : Fin 16, (dst : ℕ) ≤ 9 → (src : ℕ) ≤ 9 →
    let src' := lowReg (src ||| if 8 ≤ dst then 1 else 0)
    (0xC0 : UInt8) ||| UInt8.ofNat src <<< (3 : UInt8) ||| UInt8.ofNat dst =
      X86.modrm src' (lowReg dst) ∧ (src' : ℕ) < 8 := by
  decide +kernel

theorem lowReg_of_lt {r : Fin 16} (h : ¬8 ≤ r) : lowReg r = r := if_neg h

theorem ofNat_fin_inj {a b : Fin 16} : UInt8.ofNat a = UInt8.ofNat b ↔ a = b := by
  revert a b
  decide +kernel

theorem sext8_eq (imm : Int32) : X86.sext8 imm.toUInt32.toUInt8 = immOf imm.toInt8.toInt32 := by
  have h : imm.toUInt32.toUInt8.toInt8 = imm.toInt8 :=
    Int8.toBitVec_inj.mp (BitVec.signExtend_eq_setWidth_of_le imm.toBitVec (by omega)).symm
  unfold X86.sext8 immOf
  rw [h, Int8.toInt64_toInt32]

theorem straight_singleton {i : X86.Instr} (h : i.Plain) (hret : i ≠ .ret) : Straight [i] := by
  intro j hj
  rw [List.mem_singleton.mp hj]
  exact ⟨h, hret⟩

theorem emits_mov_imm (hcls : classOf insn.code = .alu64) (hsrc : srcOf insn.code = .k)
    (hop : aluOps.lookup (opOf insn.code) = some .mov) (hd : (insn.dstReg : ℕ) ≤ 9) :
    (∃ is e, asEmitted insn = some e ∧ Emits insn is e) ∨
      asEmitted insn = none ∧ ∃ bs, EmitsBad insn bs := by
  obtain ⟨hmodrm, hlow⟩ := modrm_dst insn.dstReg hd
  have hemit : ∀ buf, jitInsn buf insn = emitBytes buf
      ([0x48, 0xC7, (0xC0 : UInt8) ||| UInt8.ofNat insn.dstReg] ++ X86.dword insn.imm.toUInt32) := by
    intro buf
    unfold jitInsn
    rw [hcls, hop, hsrc]
    simp [emitDword, X86.dword]
  unfold asEmitted
  rw [if_pos hsrc, if_pos hop]
  by_cases hhigh : 8 ≤ insn.dstReg
  · refine .inr ⟨if_pos hhigh, _, hemit, by simp [X86.dword], fun rest => ?_⟩
    rw [hmodrm, if_pos hhigh]
    obtain ⟨-, hreg, -⟩ := X86.modrm_fields 1 (by omega) _ hlow
    exact X86.decode_movImm_ext (by rw [hreg]; decide) _ _ _ _ rest
  · rw [if_neg hhigh, lowReg_of_lt hhigh] at hmodrm
    rw [lowReg_of_lt hhigh] at hlow
    refine .inl ⟨[.movImm insn.dstReg insn.imm.toUInt32], insn, if_neg hhigh,
      straight_singleton hlow (by simp), ?_, by simp [bytesOf, X86.encode, X86.dword], ?_⟩
    · intro buf
      rw [hemit, hmodrm]
      simp [bytesOf, X86.encode]
    · intro regs
      unfold isaStep
      rw [hop, if_pos hsrc]
      rfl

theorem emits_add_imm (hcls : classOf insn.code = .alu64) (hsrc : srcOf insn.code = .k)
    (hop : aluOps.lookup (opOf insn.code) = some .add) (hd : (insn.dstReg : ℕ) ≤ 9) :
    ∃ is e, asEmitted insn = some e ∧ Emits insn is e := by
  obtain ⟨hmodrm, hlow⟩ := modrm_dst insn.dstReg hd
  have hemit : ∀ buf, jitInsn buf insn = emitBytes buf
      [0x48, 0x83, (0xC0 : UInt8) ||| UInt8.ofNat insn.dstReg, insn.imm.toUInt32.toUInt8] := by
    intro buf
    unfold jitInsn
    rw [hcls, hop, hsrc]
    rfl
  unfold asEmitted
  rw [if_pos hsrc, if_neg (by rw [hop]; decide)]
  by_cases hhigh : 8 ≤ insn.dstReg
  · rw [if_pos hhigh] at hmodrm ⊢
    refine ⟨[.orImm (lowReg insn.dstReg) insn.imm.toUInt32.toUInt8], _, rfl,
      straight_singleton hlow (by simp), ?_, by simp [bytesOf, X86.encode], ?_⟩
    · intro buf
      rw [hemit, hmodrm]
      simp [bytesOf, X86.encode]
    · intro regs
      have hor : aluOps.lookup (opOf 0x47) = some .or := by decide
      have hk : srcOf 0x47 = .k := by decide
      unfold isaStep
      dsimp only
      rw [hor, if_pos hk, ← sext8_eq]
      rfl
  · rw [if_neg hhigh, lowReg_of_lt hhigh] at hmodrm
    rw [lowReg_of_lt hhigh] at hlow
    rw [if_neg hhigh]
    refine ⟨[.addImm insn.dstReg insn.imm.toUInt32.toUInt8], _, rfl,
      straight_singleton hlow (by simp), ?_, by simp [bytesOf, X86.encode], ?_⟩
    · intro buf
      rw [hemit, hmodrm]
      simp [bytesOf, X86.encode]
    · intro regs
      unfold isaStep
      dsimp only
      rw [hop, if_pos hsrc, ← sext8_eq]
      rfl

theorem emits_reg (h : IsMovAdd insn) (hsrc : srcOf insn.code = .x) :
    ∃ is e, asEmitted insn = some e ∧ Emits insn is e := by
  obtain ⟨hcls, hop, hd, hs⟩ := h
  obtain ⟨-, hdst⟩ := modrm_dst insn.dstReg hd
  obtain ⟨hmodrm, hlow⟩ := modrm_both insn.dstReg insn.srcReg hd (hs hsrc)
  have hk : srcOf insn.code ≠ .k := by
    rw [hsrc]
    decide
  unfold asEmitted
  rw [if_neg hk]
  by_cases hsame : aluOps.lookup (opOf insn.code) = some .mov ∧ insn.dstReg = insn.srcReg
  · refine ⟨[], insn, if_pos hsame, fun i hi => absurd hi List.not_mem_nil, ?_, Nat.zero_le 7, ?_⟩
    · intro buf
      unfold jitInsn
      rw [hcls, hsame.1, hsrc]
      exact if_pos (ofNat_fin_inj.mpr hsame.2)
    · intro regs
      unfold isaStep
      rw [hsame.1, if_neg hk, hsame.2]
      exact (Function.update_eq_self _ _).symm
  rw [if_neg hsame]
  rcases hop with hop | hop
  · refine ⟨[.mov (lowReg insn.dstReg) _], _, rfl, straight_singleton ⟨hdst, hlow⟩ (by simp), ?_,
      by simp [bytesOf, X86.encode], ?_⟩
    · intro buf
      have hne : UInt8.ofNat insn.dstReg ≠ UInt8.ofNat insn.srcReg :=
        fun h => hsame ⟨hop, ofNat_fin_inj.mp h⟩
      unfold jitInsn
      rw [hcls, hop, hsrc]
      simp [emitMovReg, hne, hmodrm, bytesOf, X86.encode]
    · intro regs
      unfold isaStep
      dsimp only
      rw [hop, if_neg hk]
      rfl
  · refine ⟨[.add (lowReg insn.dstReg) _], _, rfl, straight_singleton ⟨hdst, hlow⟩ (by simp), ?_,
      by simp [bytesOf, X86.encode], ?_⟩
    · intro buf
      unfold jitInsn
      rw [hcls, hop, hsrc]
      simp [emitAddReg, hmodrm, bytesOf, X86.encode]
    · intro regs
      unfold isaStep
      dsimp only
      rw [hop, if_neg hk]
      rfl

/-- What is emitted for a move or an addition is its reading, or no instruction. -/
theorem emits_cases (h : IsMovAdd insn) :
    (∃ is e, asEmitted insn = some e ∧ Emits insn is e) ∨
      asEmitted insn = none ∧ ∃ bs, EmitsBad insn bs := by
  cases hsrc : srcOf insn.code with
  | x => exact .inl (emits_reg h hsrc)
  | k =>
    obtain ⟨hcls, hop | hop, hd, -⟩ := h
    · exact emits_mov_imm hcls hsrc hop hd
    · exact .inl (emits_add_imm hcls hsrc hop hd)

theorem jitInsn_exit (h : IsExit insn) :
    jitInsn buf insn = emitBytes buf (bytesOf [.mov 0 7, .ret]) := by
  unfold jitInsn
  rw [h.1]
  dsimp only
  rw [if_pos h.2]
  simp [emitRet, emitMovReg, bytesOf, X86.encode, X86.modrm]

end Emit

section Run

theorem straight_append {is' : List X86.Instr} (h : Straight is) (h' : Straight is') :
    Straight (is ++ is') := by
  intro i hi
  rcases List.mem_append.mp hi with hi | hi
  · exact h i hi
  · exact h' i hi

theorem bytesOf_append (is is' : List X86.Instr) : bytesOf (is ++ is') = bytesOf is ++ bytesOf is' := by
  simp [bytesOf]

theorem execAll_append (is is' : List X86.Instr) (regs : Regs) :
    X86.execAll (is ++ is') regs = X86.execAll is' (X86.execAll is regs) := List.foldl_append

theorem length_le_bytesOf (is : List X86.Instr) : is.length ≤ (bytesOf is).length := by
  induction is with
  | nil => exact Nat.le_refl 0
  | cons i is ih =>
    have hi : 1 ≤ (X86.encode i).length := by cases i <;> simp [X86.encode, X86.dword]
    show is.length + 1 ≤ (X86.encode i ++ bytesOf is).length
    rw [List.length_append]
    omega

/-- The bytes of a body are those of its reading, or those of some instructions before bytes that are
no instruction. -/
def BodyBytes (body : List Insn) (is : List X86.Instr) (bs : List UInt8) : Prop :=
  (∃ emitted, body.mapM asEmitted = some emitted ∧ bs = [] ∧
    ∀ regs, X86.execAll is regs = isaRun emitted regs) ∨
  body.mapM asEmitted = none ∧ ∀ rest, X86.decode (bs ++ rest) = none

theorem BodyBytes.cons {is' : List X86.Instr} (he : asEmitted insn = some e) (hi : Emits insn is' e)
    (h : BodyBytes body is bs) : BodyBytes (insn :: body) (is' ++ is) bs := by
  rcases h with ⟨emitted, hmap, hbs, hexec⟩ | ⟨hmap, hbad⟩
  · refine .inl ⟨e :: emitted, by simp [List.mapM_cons, he, hmap], hbs, fun regs => ?_⟩
    rw [execAll_append, hi.exec, hexec]
    rfl
  · exact .inr ⟨by simp [List.mapM_cons, he, hmap], hbad⟩

variable (buf) in
theorem foldl_jitInsn (h : ∀ insn ∈ body, IsMovAdd insn)
    (hroom : buf.length + 7 * body.length ≤ bpfJitSize) :
    ∃ is bs rest, Straight is ∧ body.foldl jitInsn buf = buf ++ (bytesOf is ++ (bs ++ rest)) ∧
      (bytesOf is ++ (bs ++ rest)).length ≤ 7 * body.length ∧ BodyBytes body is bs ∧
      (bs = [] → rest = []) := by
  induction body generalizing buf with
  | nil =>
    refine ⟨[], [], [], fun i hi => absurd hi List.not_mem_nil, (List.append_nil buf).symm,
      Nat.le_refl 0, .inl ⟨[], rfl, rfl, fun _ => rfl⟩, fun _ => rfl⟩
  | cons insn body ih =>
    rw [List.length_cons] at hroom ⊢
    have hrest : ∀ i ∈ body, IsMovAdd i := fun i hi => h i (List.mem_cons_of_mem insn hi)
    rcases emits_cases (h insn List.mem_cons_self) with ⟨is', e, he, hi⟩ | ⟨hnone, bs, hb⟩
    · have hlen := hi.room
      have hstep : jitInsn buf insn = buf ++ bytesOf is' := by
        rw [hi.bytes, emitBytes_eq (by omega)]
      obtain ⟨is, bs, rest, hs, hfold, hle, hbody, hnil⟩ :=
        @ih (buf ++ bytesOf is') hrest (by rw [List.length_append]; omega)
      refine ⟨is' ++ is, bs, rest, straight_append hi.straight hs, ?_, ?_, hbody.cons he hi, hnil⟩
      · rw [List.foldl_cons, hstep, hfold, bytesOf_append]
        simp
      · rw [bytesOf_append, List.append_assoc, List.length_append]
        omega
    · have hlen := hb.room
      have hstep : jitInsn buf insn = buf ++ bs := by rw [hb.bytes, emitBytes_eq (by omega)]
      obtain ⟨is, bs', rest, -, hfold, hle, -⟩ :=
        @ih (buf ++ bs) hrest (by rw [List.length_append]; omega)
      have hne : bs ≠ [] := by
        rintro rfl
        have hbad := hb.bad (X86.encode .ret)
        cases hbad
      refine ⟨[], bs, bytesOf is ++ (bs' ++ rest), fun i hi => absurd hi List.not_mem_nil, ?_, ?_,
        .inr ⟨by simp [List.mapM_cons, hnone], hb.bad⟩, fun h => absurd h hne⟩
      · rw [List.foldl_cons, hstep, hfold, List.append_assoc]
        rfl
      · show (bs ++ _).length ≤ _
        rw [List.length_append]
        omega

/-- The image of a program of moves and additions. -/
theorem image_eq (h : IsMovAddProgram prog body) (hlen : prog.length ≤ maxInsns) :
    ∃ is bs rest, Straight is ∧ BodyBytes body is bs ∧ (bs = [] → rest = []) ∧
      (bpfJitCompile (some prog)).2 = bytesOf is ++ (bs ++ rest) ++ bytesOf [.mov 0 7, .ret] := by
  obtain ⟨hbody, last, hlast, rfl⟩ := h
  have hcount : body.length + 1 ≤ 4096 := by simpa [maxInsns] using hlen
  have hsize : bpfJitSize = 65536 := rfl
  obtain ⟨is, bs, rest, hs, hfold, hle, hbytes, hnil⟩ :=
    foldl_jitInsn [] hbody (by rw [List.length_nil]; omega)
  refine ⟨is, bs, rest, hs, hbytes, hnil, ?_⟩
  show (body ++ [last]).foldl jitInsn [] = _
  have hexit : (bytesOf [.mov 0 7, .ret]).length = 4 := rfl
  rw [List.foldl_append, hfold, List.nil_append, List.foldl_cons, List.foldl_nil, jitInsn_exit hlast,
    emitBytes_eq (by omega)]

theorem run_image (hs : Straight is) (stack : UInt64 → UInt64) (regs : Regs) :
    let image := bytesOf is ++ bytesOf [.mov 0 7, .ret]
    let regs' := X86.execAll is regs
    X86.run stack image.length image regs =
      some (stack (regs' 4), Function.update regs' 0 (regs' 7)) := by
  have hs' : Straight (is ++ [.mov 0 7]) := 
    straight_append hs (straight_singleton ⟨by omega, by omega⟩ (by simp))
  have hsplit : bytesOf is ++ bytesOf [.mov 0 7, .ret] =
      bytesOf (is ++ [.mov 0 7]) ++ X86.encode .ret := by
    rw [bytesOf_append, List.append_assoc]
    rfl
  have hlen := length_le_bytesOf (is ++ [.mov 0 7])
  obtain ⟨n, hn⟩ := Nat.exists_eq_add_of_le hlen
  dsimp only
  rw [hsplit, List.length_append, hn, Nat.add_assoc]
  show X86.run stack (_ + (n + 1)) _ _ = _
  rw [bytesOf, X86.run_encode hs', execAll_append]
  rfl

theorem run_bad {code : List UInt8} (hs : Straight is) (hbad : X86.decode code = none)
    (stack : UInt64 → UInt64) (regs : Regs) :
    X86.run stack (bytesOf is ++ code).length (bytesOf is ++ code) regs = none := by
  obtain ⟨n, hn⟩ := Nat.exists_eq_add_of_le (length_le_bytesOf is)
  rw [List.length_append, hn, Nat.add_assoc, bytesOf, X86.run_encode hs]
  cases n + code.length with
  | zero => rfl
  | succ fuel =>
    unfold X86.run
    rw [hbad]

theorem jitOk_iff (h : IsMovAddProgram prog body) (hlen : prog.length ≤ maxInsns) :
    JitOk (bpfJitCompile (some prog)).2 body ↔ EmittedRight body := by
  obtain ⟨is, bs, rest, hs, hbytes, hnil, himage⟩ := image_eq h hlen
  rw [himage]
  rcases hbytes with ⟨emitted, hmap, hbs, hexec⟩ | ⟨hmap, hbad⟩
  · subst hbs
    rw [hnil rfl, List.nil_append, List.append_nil]
    have hrun := run_image hs
    dsimp only at hrun
    constructor
    · intro hok
      refine ⟨emitted, hmap, fun regs => ?_⟩
      obtain ⟨regs', hres, hzero⟩ := hok regs id
      rw [hrun, hexec] at hres
      obtain ⟨hret, rfl⟩ := Prod.mk.injEq .. ▸ Option.some_inj.mp hres
      rw [Function.update_self] at hzero
      exact ⟨hret, hzero⟩
    · rintro ⟨emitted', hmap', hright⟩ regs stack
      obtain rfl := Option.some_inj.mp (hmap.symm.trans hmap')
      obtain ⟨hsp, hres⟩ := hright regs
      refine ⟨_, (hrun stack regs).trans (by rw [hexec, hsp]), ?_⟩
      rw [Function.update_self, hres]
  · constructor
    · intro hok
      obtain ⟨regs', hres, -⟩ := hok (fun _ => 0) id
      have hnone := run_bad hs (hbad (rest ++ bytesOf [.mov 0 7, .ret])) id fun _ => 0
      rw [List.append_assoc, List.append_assoc, hnone] at hres
      cases hres
    · rintro ⟨emitted, hmap', -⟩
      rw [hmap] at hmap'
      cases hmap'

end Run

/-- The compiler does what is asked of it for an accepted program exactly when all instructions are
moves, additions and exits, and the bytes for the moves and additions leave the result in `r7`. -/
theorem jit_claim_iff {zalloc : Bool} (hv : bpfVerifier prog zalloc = 0) :
    JitClaim prog ↔ ¬HasOtherInsn prog ∧ ∀ body, IsMovAddProgram prog body → EmittedRight body := by
  obtain ⟨-, hlen, -⟩ := bpfVerifier_eq_zero hv
  constructor
  · intro h
    refine ⟨fun hother => h.refused hother rfl, fun body hbody => ?_⟩
    exact (jitOk_iff hbody hlen).mp (h.right body hbody)
  · rintro ⟨hno, hright⟩
    refine ⟨fun body hbody => ?_, fun hother => absurd hother hno⟩
    exact (jitOk_iff hbody hlen).mpr (hright body hbody)

/-- `r7 = 1; r0 = r7; exit`. -/
theorem jit_claim_iff_mov :
    JitClaim [⟨0xB7, 7, 0, 0, 1⟩, ⟨0xBF, 0, 7, 0, 0⟩, ⟨0x95, 0, 0, 0, 0⟩] ↔
      ¬HasOtherInsn [⟨0xB7, 7, 0, 0, 1⟩, ⟨0xBF, 0, 7, 0, 0⟩, ⟨0x95, 0, 0, 0, 0⟩] ∧
        ∀ body, IsMovAddProgram [⟨0xB7, 7, 0, 0, 1⟩, ⟨0xBF, 0, 7, 0, 0⟩, ⟨0x95, 0, 0, 0, 0⟩] body →
          EmittedRight body :=
  jit_claim_iff (show bpfVerifier _ true = 0 by decide)

/-- The code for `r0 = 1; exit` returns the caller's `r7`. -/
theorem returns_r7 : ¬ ∀ prog : List Insn, bpfVerifier prog true = 0 → JitClaim prog := by
  intro hall
  have h := hall [⟨0xB7, 0, 0, 0, 1⟩, ⟨0x95, 0, 0, 0, 0⟩] (by decide)
  have hbody : IsMovAddProgram [⟨0xB7, 0, 0, 0, 1⟩, ⟨0x95, 0, 0, 0, 0⟩] [⟨0xB7, 0, 0, 0, 1⟩] := by
    refine ⟨fun insn hinsn => ?_, ⟨0x95, 0, 0, 0, 0⟩, ⟨by decide, by decide⟩, rfl⟩
    rw [List.mem_singleton.mp hinsn]
    exact ⟨by decide, by decide, by decide, by decide⟩
  obtain ⟨regs', hrun, hres⟩ := h.right _ hbody (fun _ => 0) id
  have hzero : (X86.run id 11 [0x48, 0xC7, 0xC0, 1, 0, 0, 0, 0x48, 0x89, 0xF8, 0xC3] fun _ => 0).map
      (fun r => r.2 0) = some 0 := by decide +kernel
  have hone : isaRun [⟨0xB7, 0, 0, 0, 1⟩] (fun _ => 0) 0 = 1 := by decide +kernel
  have himage : (bpfJitCompile (some [⟨0xB7, 0, 0, 0, 1⟩, ⟨0x95, 0, 0, 0, 0⟩])).2 =
      [0x48, 0xC7, 0xC0, 1, 0, 0, 0, 0x48, 0x89, 0xF8, 0xC3] := by decide +kernel
  rw [himage] at hrun
  rw [show List.length _ = 11 from rfl] at hrun
  rw [hrun] at hzero
  have hres' : regs' 0 = 0 := Option.some_inj.mp hzero
  rw [hres, hone] at hres'
  cases hres'

end Bpf
