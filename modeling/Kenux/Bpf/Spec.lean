import Kenux.Bpf.Model
import Kenux.Lib.Run

/-!
# What programs are promised

The values the eBPF instruction set gives to the arithmetic operations, the control flow graph of a
program and what a run of a program is.
-/

namespace Bpf

section Alu

/-- The 64-bit operations of the instruction set; a division by zero gives 0, a remainder by zero the
dividend. -/
def isaAlu64 (op : AluOp) (a b : UInt64) : UInt64 :=
  match op with
  | .add => a + b
  | .sub => a - b
  | .mul => a * b
  | .div => if b = 0 then 0 else a / b
  | .mod => if b = 0 then a else a % b
  | .and => a &&& b
  | .or => a ||| b
  | .xor => a ^^^ b
  | .lsh => a <<< (b &&& 63)
  | .rsh => a >>> (b &&& 63)
  | .arsh => (a.toInt64 >>> (b &&& 63).toInt64).toUInt64
  | .neg => -a
  | .mov => b
  | .bswap => a

def isaAlu32 (op : AluOp) (a b : UInt32) : UInt32 :=
  match op with
  | .add => a + b
  | .sub => a - b
  | .mul => a * b
  | .div => if b = 0 then 0 else a / b
  | .mod => if b = 0 then a else a % b
  | .and => a &&& b
  | .or => a ||| b
  | .xor => a ^^^ b
  | .lsh => a <<< (b &&& 31)
  | .rsh => a >>> (b &&& 31)
  | .arsh => (a.toInt32 >>> (b &&& 31).toInt32).toUInt32
  | .neg => -a
  | .mov => b
  | .bswap => a

/-- The value for the destination: `BPF_ALU` works on the lower halves and clears the upper half. -/
def isaValue (cls : Class) (op : AluOp) (a b : UInt64) : UInt64 :=
  if cls = .alu then (isaAlu32 op a.toUInt32 b.toUInt32).toUInt64 else isaAlu64 op a b

/-- The second operand. -/
def isaOperand (insn : Insn) (regs : Regs) : UInt64 :=
  if srcOf insn.code = .k then immOf insn.imm else getReg regs insn.srcReg

/-- One step puts the value of the instruction set into the destination and changes nothing else. -/
def AluStepOk (env : Env) (prog : List Insn) (insn : Insn) (op : AluOp) (c : Ctx) : Prop :=
  ∃ regs', step env prog c = .next { c with regs := regs', pc := c.pc + 1 } ∧
    getReg regs' insn.dstReg =
      isaValue (classOf insn.code) op (getReg c.regs insn.dstReg) (isaOperand insn c.regs) ∧
    ∀ r : ℕ, r ≠ insn.dstReg → getReg regs' r = getReg c.regs r

/-- The 64-bit operation leaves every value of the destination as it is; `same` says that the source
register is the destination. -/
def KeepsValue (op : AluOp) (src : Src) (imm : Int32) (same : Prop) : Prop :=
  if src = .k then
    match op with
    | .add | .sub | .or | .xor => imm = 0
    | .mul => imm = 1
    | .and => imm = -1
    | .lsh | .rsh | .arsh => immOf imm &&& 63 = 0
    | _ => False
  else
    match op with
    | .and | .or | .mov => same
    | _ => False

/-- The operand is in a register, but for `MOV` and two instructions that change nothing; and no negation
and no shift of 32 bits. -/
def RightValue (cls : Class) (op : AluOp) (src : Src) (imm : Int32) (same : Prop) : Prop :=
  match op with
  | .mov => True
  | .neg => cls = .alu64
  | .and => src = .x ∨ same ∧ imm = -1
  | .or => src = .x ∨ same ∧ imm = 0
  | .lsh | .rsh | .arsh => src = .x ∧ cls = .alu64
  | _ => src = .x

/-- The instructions the interpreter computes right: no division, and a write to `r10` only if it changes
nothing. -/
def AluSound (insn : Insn) (op : AluOp) : Prop :=
  let same := insn.srcReg = insn.dstReg
  op ≠ .div ∧ op ≠ .mod ∧
    if (insn.dstReg : ℕ) = 10 then
      classOf insn.code = .alu64 ∧ KeepsValue op (srcOf insn.code) insn.imm same
    else RightValue (classOf insn.code) op (srcOf insn.code) insn.imm same

end Alu

section Control

variable (prog : List Insn)

def isJmp (insn : Insn) : Prop := classOf insn.code = .jmp ∨ classOf insn.code = .jmp32

/-- An instruction that ends the run: `BPF_EXIT`, or an operation the interpreter does not know. -/
def Ends (insn : Insn) : Prop :=
  (classOf insn.code = .alu ∨ classOf insn.code = .alu64) ∧ aluOps.lookup (opOf insn.code) = none ∨
    isJmp insn ∧ (jmpOps.lookup (opOf insn.code) = none ∨ jmpOps.lookup (opOf insn.code) = some .exit)

/-- A conditional or unconditional jump of either class. -/
def Jumps (insn : Insn) : Prop :=
  isJmp insn ∧ ∃ op, jmpOps.lookup (opOf insn.code) = some op ∧ op ≠ .call ∧ op ≠ .exit

def IsJa (insn : Insn) : Prop := isJmp insn ∧ jmpOps.lookup (opOf insn.code) = some .ja

def target (pc : ℕ) (insn : Insn) : ℤ := pc + insn.off.toInt + 1

/-- A 64-bit immediate takes two places. -/
def width (pc : ℕ) (insn : Insn) : ℕ :=
  if classOf insn.code = .ld ∧ insn.code &&& 0xE0 = 0 ∧
      (prog[pc + 1]?.map fun next => decide (next.code = 0)) = some true then 2 else 1

/-- The edges of the control flow graph, from an instruction to where the run may go on. -/
def Flows (pc pc' : ℕ) : Prop :=
  ∃ insn, prog[pc]? = some insn ∧ ¬Ends insn ∧
    (Jumps insn ∧ (pc' : ℤ) = target pc insn ∨ ¬IsJa insn ∧ pc' = pc + width prog pc insn)

def CfgReach (pc : ℕ) : Prop := Relation.ReflTransGen (Flows prog) 0 pc

/-- Every jump goes forward to an instruction. -/
def JumpsForward : Prop :=
  ∀ (pc : ℕ) insn, prog[pc]? = some insn → Jumps insn → pc < target pc insn ∧ target pc insn < prog.length

/-- The last reachable instruction ends the run. -/
def LastEnds : Prop :=
  ∀ (pc : ℕ) insn, CfgReach prog pc → prog[pc]? = some insn →
    (∀ pc', CfgReach prog pc' → pc' < prog.length → pc' ≤ pc) → Ends insn

/-- No jump has a negative offset or one that leads past the last instruction. -/
def OffsetsOk : Prop :=
  ∀ (pc : ℕ) insn, prog[pc]? = some insn → Jumps insn →
    0 ≤ insn.off.toInt ∧ pc + insn.off.toInt + 1 < prog.length

/-- Some path leads past the last instruction. -/
def RunsOff : Prop := ∃ pc, prog.length ≤ pc ∧ CfgReach prog pc

/-- The contexts a run visits. -/
def Visits (env : Env) (prog : List Insn) (c₀ : Ctx) : Ctx → Prop :=
  Run.Reach (fun c (_ : Unit) => match step env prog c with
    | .next c' => some c'
    | _ => none) (fun _ _ => True) c₀

/-- A run stops after at most as many rounds as there are instructions, it is never past the last
instruction, and it takes no jump that leads outside. -/
structure RunOk (env : Env) (prog : List Insn) (c₀ : Ctx) : Prop where
  stops : (runFuel env prog prog.length c₀).isSome
  inside : ∀ c, Visits env prog c₀ c → c.pc.toNat < prog.length
  jumps : ∀ c, Visits env prog c₀ c → ∀ insn, prog[c.pc.toNat]? = some insn → Jumps insn →
    ∀ c', step env prog c = .next c' → c'.pc = c.pc + 1 ∨
      0 ≤ target c.pc.toNat insn ∧ target c.pc.toNat insn < prog.length

/-- All runs are right, and so is the shape of the program that the verifier is to check for it. -/
structure ProgramOk (prog : List Insn) : Prop where
  runs : ∀ env stackTop m, RunOk env prog (initCtx env stackTop m)
  forward : JumpsForward prog
  last : LastEnds prog

end Control

end Bpf

/-!
## Stack addresses along a program

What can be known of a register before an instruction: that it is a constant, or a constant distance from
the top of the stack frame. A program is annotated when every instruction has such knowledge that the
instructions before it justify.
-/

namespace Bpf

inductive AbsVal where
  | const (v : UInt64)
  | frame (k : UInt64)
  | any
  deriving DecidableEq

/-- The register values an abstract value stands for, with the top of the frame at `top`. -/
def AbsVal.Describes (top : UInt64) : AbsVal → UInt64 → Prop
  | .const c, v => v = c
  | .frame k, v => v = top + k
  | .any, _ => True

/-- `w` says no more than `v`. -/
def AbsVal.Weaker (v w : AbsVal) : Prop := w = .any ∨ w = v

/-- The knowledge about all registers before an instruction. -/
abbrev AbsRegs := ℕ → AbsVal

def AbsRegs.Describes (a : AbsRegs) (top : UInt64) (regs : Regs) : Prop :=
  ∀ r, (a r).Describes top (getReg regs r)

/-- At the start: `r10` is the top of the frame, `r1` to `r5` come from the context. -/
def startRegs : AbsRegs := fun r =>
  if r = 10 then .frame 0 else if 1 ≤ r ∧ r ≤ 5 then .any else .const 0

/-- An arithmetic operation that may work on stack addresses. -/
def absAddr (cls : Class) (op : AluOp) (src : Src) (imm : Int32) (a b : AbsVal) : AbsVal :=
  if op = .mov ∧ src = .k then ((aluResult cls op src imm 0 0).map AbsVal.const).getD .any
  else if cls = .alu then .any
  else
    match op, a, b with
    | .mov, _, b => b
    | .add, .frame k, .const c => .frame (k + c)
    | .add, .const c, .frame k => .frame (c + k)
    | .sub, .frame k, .const c => .frame (k - c)
    | _, _, _ => .any

/-- An arithmetic operation on abstract values. -/
def absAlu (cls : Class) (op : AluOp) (src : Src) (imm : Int32) : AbsVal → AbsVal → AbsVal
  | .const a, .const b => ((aluResult cls op src imm a b).map AbsVal.const).getD .any
  | a, b => absAddr cls op src imm a b

/-- The abstract value an instruction writes to its destination, if it writes one. -/
def absResult (insn : Insn) (a : AbsRegs) : Option AbsVal :=
  match classOf insn.code with
  | .alu | .alu64 =>
    (aluOps.lookup (opOf insn.code)).map fun op =>
      absAlu (classOf insn.code) op (srcOf insn.code) insn.imm (a insn.dstReg) (a insn.srcReg)
  | .ldx | .ld => some .any
  | .jmp | .jmp32 | .st | .stx => none

/-- The knowledge after an instruction that is no call. -/
def transfer (insn : Insn) (a : AbsRegs) : AbsRegs := fun r =>
  if r = insn.dstReg ∧ r ≠ 10 then (absResult insn a).getD (a r) else a r

def IsCall (insn : Insn) : Prop := isJmp insn ∧ jmpOps.lookup (opOf insn.code) = some .call

def IsStore (insn : Insn) : Prop := classOf insn.code = .st ∨ classOf insn.code = .stx

/-- The knowledge at each instruction follows from the knowledge at those before it, and by it every store
goes into the 512 bytes below the top of the frame. -/
structure Annotated (prog : List Insn) (a : ℕ → AbsRegs) : Prop where
  start : ∀ r, (startRegs r).Weaker (a 0 r)
  flow : ∀ (pc : ℕ) insn pc', prog[pc]? = some insn → ¬IsCall insn → Flows prog pc pc' →
    ∀ r, (transfer insn (a pc) r).Weaker (a pc' r)
  store : ∀ (pc : ℕ) insn, prog[pc]? = some insn → IsStore insn →
    ∃ k, a pc insn.dstReg = .frame k ∧ (k + offOf insn.off + 512).toNat + sizeOf insn.code ≤ 512

/-- The address is one of the 512 bytes below the top of the frame. -/
def InFrame (top addr : UInt64) : Prop := (addr - (top - 512)).toNat < 512

/-- The contexts a run visits while no helper is called. -/
def VisitsQuiet (env : Env) (prog : List Insn) (c₀ : Ctx) : Ctx → Prop :=
  Run.Reach (fun c (_ : Unit) => match step env prog c with
    | .next c' => some c'
    | _ => none)
    (fun c _ => ∀ insn, prog[c.pc.toNat]? = some insn → ¬IsCall insn) c₀

end Bpf
