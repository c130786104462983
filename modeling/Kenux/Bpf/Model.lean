import Mathlib.Data.UInt

/-!
# The eBPF interpreter

Model of `bpf_prog_run`, `bpf_verifier` and `bpf_prog_alloc` in `kernel/arch/x86_64/bpf.c`. The registers
and the instructions are kept apart from the memory that a program reads and writes by address, so a run
is described as long as the program does not write over the interpreter's own data. The helpers that
other parts of the kernel register are a parameter.
-/

namespace Bpf

section Instructions

/-- `bpf_insn_t`. -/
structure Insn where
  code : UInt8
  dstReg : Fin 16
  srcReg : Fin 16
  off : Int16
  imm : Int32
  deriving DecidableEq

instance neZero_registers : NeZero 16 := ⟨by decide⟩

inductive Class where
  | ld | ldx | st | stx | alu | jmp | jmp32 | alu64
  deriving DecidableEq

/-- `BPF_CLASS`. -/
def classOf (code : UInt8) : Class :=
  match (code &&& 0x07).toNat with
  | 0 => .ld
  | 1 => .ldx
  | 2 => .st
  | 3 => .stx
  | 4 => .alu
  | 5 => .jmp
  | 6 => .jmp32
  | _ => .alu64

/-- `BPF_OP`. -/
def opOf (code : UInt8) : UInt8 := code &&& 0xF0

inductive Src where
  | k | x
  deriving DecidableEq

/-- `BPF_SRC`. -/
def srcOf (code : UInt8) : Src := if code &&& 0x08 = 0 then .k else .x

inductive AluOp where
  | add | sub | mul | div | or | and | lsh | rsh | neg | mod | xor | mov | arsh | bswap
  deriving DecidableEq

/-- The operations of the classes `BPF_ALU` and `BPF_ALU64`; `BPF_END` is `bswap`. -/
def aluOps : List (UInt8 × AluOp) :=
  [(0x00, .add), (0x10, .sub), (0x20, .mul), (0x30, .div), (0x40, .or), (0x50, .and), (0x60, .lsh),
    (0x70, .rsh), (0x80, .neg), (0x90, .mod), (0xA0, .xor), (0xB0, .mov), (0xC0, .arsh), (0xD0, .bswap)]

inductive JmpOp where
  | ja | jeq | jgt | jge | jset | jne | jsgt | jsge | call | exit | jlt | jle | jslt | jsle
  deriving DecidableEq

def jmpOps : List (UInt8 × JmpOp) :=
  [(0x00, .ja), (0x10, .jeq), (0x20, .jgt), (0x30, .jge), (0x40, .jset), (0x50, .jne), (0x60, .jsgt),
    (0x70, .jsge), (0x80, .call), (0x90, .exit), (0xA0, .jlt), (0xB0, .jle), (0xC0, .jslt),
    (0xD0, .jsle)]

/-- The bytes a load or store moves, by `BPF_SIZE`. -/
def sizeOf (code : UInt8) : ℕ :=
  match (code &&& 0x18).toNat with
  | 0x10 => 1
  | 0x08 => 2
  | 0x18 => 8
  | _ => 4

/-- `(u64)(s64)(s32)imm`. -/
def immOf (imm : Int32) : UInt64 := imm.toInt64.toUInt64

def offOf (off : Int16) : UInt64 := off.toInt64.toUInt64

end Instructions

section Memory

abbrev Mem := UInt64 → UInt8

/-- The little-endian number in the bytes from an address on. -/
def loadBytes (m : Mem) (addr : UInt64) : ℕ → UInt64
  | 0 => 0
  | n + 1 => (m addr).toUInt64 + 256 * loadBytes m (addr + 1) n

def storeBytes (m : Mem) (addr val : UInt64) : ℕ → Mem
  | 0 => m
  | n + 1 => storeBytes (Function.update m addr val.toUInt8) (addr + 1) (val / 256) n

def readMem (m : Mem) (size : ℕ) (addr : UInt64) : UInt64 :=
  if addr = 0 then 0 else loadBytes m addr size

def writeMem (m : Mem) (size : ℕ) (addr val : UInt64) : Mem :=
  if addr = 0 then m else storeBytes m addr val size

end Memory

section Registers

abbrev Regs := ℕ → UInt64

def maxRegs : ℕ := 11

def getReg (regs : Regs) (r : ℕ) : UInt64 := if r ≥ maxRegs then 0 else regs r

def setReg (regs : Regs) (r : ℕ) (val : UInt64) : Regs :=
  if r ≥ maxRegs then regs else if r = 10 then regs else Function.update regs r val

end Registers

section Alu

/-- The bytes of the lower `8 * n` bits in opposite order. -/
def byteSwap (v : UInt64) : ℕ → UInt64
  | 0 => 0
  | n + 1 => (v &&& 0xFF) * UInt64.ofNat (256 ^ n) + byteSwap (v / 256) n

def low32 (v : UInt64) : UInt64 := v &&& 0xFFFFFFFF

/-- The switch over the operation; `none` is the jump to `exit_abort`. -/
def aluValue (op : AluOp) (src : Src) (imm : Int32) (dv sv : UInt64) : Option UInt64 :=
  match op with
  | .add => some (dv + sv)
  | .sub => some (dv - sv)
  | .mul => some (dv * sv)
  | .div => if sv = 0 then none else some (dv / sv)
  | .mod => if sv = 0 then none else some (dv % sv)
  | .and => some (dv &&& sv)
  | .or => some (dv ||| sv)
  | .xor => some (dv ^^^ sv)
  | .lsh => some (dv <<< (sv &&& 63))
  | .rsh => some (dv >>> (sv &&& 63))
  | .arsh => some (dv.toInt64 >>> (sv &&& 63).toInt64).toUInt64
  | .neg => some (-dv.toInt64).toUInt64
  | .mov => some (if src = .k then immOf imm else sv)
  | .bswap =>
    if src = .k then
      if imm = 16 then some (dv &&& 0xFFFF)
      else if imm = 32 then some (low32 dv)
      else some dv
    else
      if imm = 16 then some (byteSwap dv 2)
      else if imm = 32 then some (byteSwap dv 4)
      else if imm = 64 then some (byteSwap dv 8)
      else some dv

/-- What goes to the destination register. -/
def aluResult (cls : Class) (op : AluOp) (src : Src) (imm : Int32) (dv sv : UInt64) :
    Option UInt64 :=
  (aluValue op src imm dv sv).map fun v =>
    if cls = .alu ∧ op ≠ .bswap ∧ op ≠ .neg then low32 v else v

end Alu

section Jumps

/-- The condition of a jump on the lower 32 bits. -/
def jmpCond32 (op : JmpOp) (a b : UInt32) : Bool :=
  match op with
  | .jeq => a == b
  | .jne => a != b
  | .jgt => a > b
  | .jge => a ≥ b
  | .jlt => a < b
  | .jle => a ≤ b
  | .jsgt => a.toInt32 > b.toInt32
  | .jsge => a.toInt32 ≥ b.toInt32
  | .jslt => a.toInt32 < b.toInt32
  | .jsle => a.toInt32 ≤ b.toInt32
  | .jset => a &&& b != 0
  | .ja | .call | .exit => false

def jmpCond64 (op : JmpOp) (a b : UInt64) : Bool :=
  match op with
  | .jeq => a == b
  | .jne => a != b
  | .jgt => a > b
  | .jge => a ≥ b
  | .jlt => a < b
  | .jle => a ≤ b
  | .jsgt => a.toInt64 > b.toInt64
  | .jsge => a.toInt64 ≥ b.toInt64
  | .jslt => a.toInt64 < b.toInt64
  | .jsle => a.toInt64 ≤ b.toInt64
  | .jset => a &&& b != 0
  | .ja | .call | .exit => false

def jmpCond (cls : Class) (op : JmpOp) (a b : UInt64) : Bool :=
  if cls = .jmp32 then jmpCond32 op a.toUInt32 b.toUInt32 else jmpCond64 op a b

/-- `pc + insn->off + 1` in 32 bits. -/
def jmpTarget (pc : UInt32) (off : Int16) : UInt32 := pc + off.toInt32.toUInt32 + 1

end Jumps

section Run

/-- `bpf_ctx_t` and the program counter, with the memory and the number of helper calls so far. -/
structure Ctx where
  regs : Regs
  pc : UInt32
  mem : Mem
  calls : ℕ

/-- What a run gets from outside: the address of its context, the registered helpers and the time stamp
counter, which may answer every call differently. -/
structure Env where
  ctxIn : UInt64
  helper : Int32 → Option (ℕ → List UInt64 → Mem → UInt64 × Mem)
  rdtsc : ℕ → UInt64

inductive Outcome where
  | next (c : Ctx)
  | exit (c : Ctx)
  | abort (c : Ctx)

def helperMax : Int32 := 64

/-- The value and the memory after the helper call of `BPF_CALL`. -/
def callHelper (env : Env) (c : Ctx) (id : Int32) : UInt64 × Mem :=
  match (if id < 0 ∨ id ≥ helperMax then none else env.helper id) with
  | some fn => fn c.calls ([1, 2, 3, 4, 5].map (getReg c.regs)) c.mem
  | none =>
    if id = 7 then (low32 (env.rdtsc c.calls), c.mem)
    else if id = 14 then (1, c.mem)
    else (0, c.mem)

def stepAlu (insn : Insn) (c : Ctx) : Outcome :=
  match aluOps.lookup (opOf insn.code) with
  | none => .abort c
  | some op =>
    match aluResult (classOf insn.code) op (srcOf insn.code) insn.imm (getReg c.regs insn.dstReg)
        (getReg c.regs insn.srcReg) with
    | none => .abort c
    | some v => .next { c with regs := setReg c.regs insn.dstReg v, pc := c.pc + 1 }

def stepJmp (env : Env) (insn : Insn) (c : Ctx) : Outcome :=
  match jmpOps.lookup (opOf insn.code) with
  | none => .abort c
  | some .ja => .next { c with pc := jmpTarget c.pc insn.off }
  | some .call =>
    let r := callHelper env c insn.imm
    .next { regs := setReg c.regs 0 r.1, pc := c.pc + 1, mem := r.2, calls := c.calls + 1 }
  | some .exit => .exit c
  | some op =>
    -- the condition computed from the source register is replaced when the operand is immediate
    let b := if srcOf insn.code = .k then immOf insn.imm else getReg c.regs insn.srcReg
    if jmpCond (classOf insn.code) op (getReg c.regs insn.dstReg) b then
      .next { c with pc := jmpTarget c.pc insn.off }
    else .next { c with pc := c.pc + 1 }

def stepLdx (insn : Insn) (c : Ctx) : Outcome :=
  let val := readMem c.mem (sizeOf insn.code) (getReg c.regs insn.srcReg + offOf insn.off)
  .next { c with regs := setReg c.regs insn.dstReg val, pc := c.pc + 1 }

/-- The address and the value of a store. -/
def storeAddr (insn : Insn) (c : Ctx) : UInt64 := getReg c.regs insn.dstReg + offOf insn.off

def storeVal (insn : Insn) (c : Ctx) : UInt64 :=
  if classOf insn.code = .st then immOf insn.imm else getReg c.regs insn.srcReg

def stepSt (insn : Insn) (c : Ctx) : Outcome :=
  .next { c with
    mem := writeMem c.mem (sizeOf insn.code) (storeAddr insn c) (storeVal insn c)
    pc := c.pc + 1 }

/-- `BPF_LD`: a 64-bit immediate takes its upper half from a following instruction with code 0, which is
skipped; the other modes read relative to the context. -/
def stepLd (env : Env) (prog : List Insn) (insn : Insn) (c : Ctx) : Outcome :=
  let mode := insn.code &&& 0xE0
  if mode = 0x00 then
    match prog[(c.pc + 1).toNat]? with
    | some next =>
      if next.code = 0 then
        let imm := (next.imm.toUInt32.toUInt64 <<< 32) ||| insn.imm.toUInt32.toUInt64
        .next { c with regs := setReg c.regs insn.dstReg imm, pc := c.pc + 1 + 1 }
      else .next { c with regs := setReg c.regs insn.dstReg (immOf insn.imm), pc := c.pc + 1 }
    | none => .next { c with regs := setReg c.regs insn.dstReg (immOf insn.imm), pc := c.pc + 1 }
  else if mode = 0x20 then
    let val := readMem c.mem (sizeOf insn.code) (env.ctxIn + immOf insn.imm)
    .next { c with regs := setReg c.regs insn.dstReg val, pc := c.pc + 1 }
  else if mode = 0x40 then
    let val := readMem c.mem (sizeOf insn.code)
      (env.ctxIn + getReg c.regs insn.srcReg + immOf insn.imm)
    .next { c with regs := setReg c.regs insn.dstReg val, pc := c.pc + 1 }
  else .next { c with regs := setReg c.regs insn.dstReg (immOf insn.imm), pc := c.pc + 1 }

/-- One round of the loop at an instruction. -/
def stepInsn (env : Env) (prog : List Insn) (insn : Insn) (c : Ctx) : Outcome :=
  match classOf insn.code with
  | .alu64 | .alu => stepAlu insn c
  | .jmp | .jmp32 => stepJmp env insn c
  | .ldx => stepLdx insn c
  | .st | .stx => stepSt insn c
  | .ld => stepLd env prog insn c

/-- One round of the loop; past the last instruction the run ends as if by an exit. -/
def step (env : Env) (prog : List Insn) (c : Ctx) : Outcome :=
  match prog[c.pc.toNat]? with
  | some insn => stepInsn env prog insn c
  | none => .exit c

/-- The loop, `fuel` rounds at most. -/
def runFuel (env : Env) (prog : List Insn) : ℕ → Ctx → Option UInt64
  | 0, _ => none
  | fuel + 1, c =>
    match step env prog c with
    | .next c => runFuel env prog fuel c
    | .exit c => some (getReg c.regs 0)
    | .abort _ => some (-1)

/-- The first `bpf_ctx_t`: `r1` to `r5` are copied from the context, `r10` is the top of the stack. -/
def initCtx (env : Env) (stackTop : UInt64) (m : Mem) : Ctx :=
  { regs := fun r =>
      if r = 10 then stackTop
      else if env.ctxIn ≠ 0 ∧ 1 ≤ r ∧ r ≤ 5 then loadBytes m (env.ctxIn + UInt64.ofNat (8 * (r - 1))) 8
      else 0
    pc := 0
    mem := m
    calls := 0 }

end Run

section Verifier

def maxInsns : ℕ := 4096

/-- The checks on one instruction. -/
def verifyInsn (numInsns : UInt32) (pc : UInt32) (insn : Insn) : Bool :=
  if insn.dstReg ≥ maxRegs ∨ insn.srcReg ≥ maxRegs then false
  else if classOf insn.code = .jmp ∧ opOf insn.code = 0x80 ∧ (insn.imm ≥ helperMax ∨ insn.imm < 0) then
    false
  else if (classOf insn.code = .jmp ∨ classOf insn.code = .jmp32) ∧ opOf insn.code = 0x00 then
    let target := (jmpTarget pc insn.off).toInt32
    if target < 0 ∨ target.toUInt32 ≥ numInsns then false else true
  else true

/-- The loop over the instructions from `pc` on. -/
def verifyFrom (numInsns : UInt32) : UInt32 → List Insn → Bool
  | _, [] => true
  | pc, insn :: rest => verifyInsn numInsns pc insn && verifyFrom numInsns (pc + 1) rest

/-- `bpf_verifier`; `zalloc` says whether its table is allocated. -/
def bpfVerifier (prog : List Insn) (zalloc : Bool) : ℤ :=
  if prog.length = 0 ∨ prog.length > maxInsns then -1
  else if ¬zalloc then -1
  else if verifyFrom (UInt32.ofNat prog.length) 0 prog then 0 else -1

/-- `bpf_prog_alloc`: the copy of the program, if it is accepted. -/
def bpfProgAlloc (insns : List Insn) (zalloc : Bool) : Option (List Insn) :=
  if insns.length = 0 ∨ insns.length > maxInsns then none
  else if ¬zalloc then none
  else if bpfVerifier insns zalloc ≠ 0 then none
  else some insns

end Verifier

end Bpf
