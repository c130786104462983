import Mathlib.Data.UInt

/-!
# A few x86-64 instructions

Moves, additions and disjunctions on the first eight 64-bit registers and the near return: their encodings with the prefix `48` (REX.W), decoding and execution. A return goes to
the address in the stack word that `rsp`, register 4, points to.
-/

namespace X86

inductive Instr where
  | mov (rm reg : ℕ)
  | add (rm reg : ℕ)
  | movImm (rm : ℕ) (imm : UInt32)
  | addImm (rm : ℕ) (imm : UInt8)
  | orImm (rm : ℕ) (imm : UInt8)
  | ret
  deriving DecidableEq

/-- The byte that names two registers, or an opcode extension and a register. -/
def modrm (reg rm : ℕ) : UInt8 := (0xC0 : UInt8) ||| UInt8.ofNat reg <<< (3 : UInt8) ||| UInt8.ofNat rm

def dword (v : UInt32) : List UInt8 :=
  [(v &&& 0xFF).toUInt8, ((v >>> 8) &&& 0xFF).toUInt8, ((v >>> 16) &&& 0xFF).toUInt8,
    ((v >>> 24) &&& 0xFF).toUInt8]

def encode : Instr → List UInt8
  | .mov rm reg => [0x48, 0x89, modrm reg rm]
  | .add rm reg => [0x48, 0x01, modrm reg rm]
  | .movImm rm imm => [0x48, 0xC7, modrm 0 rm] ++ dword imm
  | .addImm rm imm => [0x48, 0x83, modrm 0 rm, imm]
  | .orImm rm imm => [0x48, 0x83, modrm 1 rm, imm]
  | .ret => [0xC3]

section Decode

def modOf (b : UInt8) : ℕ := (b >>> 6).toNat
def regOf (b : UInt8) : ℕ := (b >>> 3 &&& 7).toNat
def rmOf (b : UInt8) : ℕ := (b &&& 7).toNat

def ofDword (b₀ b₁ b₂ b₃ : UInt8) : UInt32 :=
  b₀.toUInt32 ||| b₁.toUInt32 <<< 8 ||| b₂.toUInt32 <<< 16 ||| b₃.toUInt32 <<< 24

/-- The first instruction of some code, and the code after it. Only operands in registers are known. -/
def decode : List UInt8 → Option (Instr × List UInt8)
  | 0xC3 :: rest => some (.ret, rest)
  | 0x48 :: 0x89 :: m :: rest =>
    if modOf m = 3 then some (.mov (rmOf m) (regOf m), rest) else none
  | 0x48 :: 0x01 :: m :: rest =>
    if modOf m = 3 then some (.add (rmOf m) (regOf m), rest) else none
  | 0x48 :: 0xC7 :: m :: b₀ :: b₁ :: b₂ :: b₃ :: rest =>
    if modOf m = 3 ∧ regOf m = 0 then some (.movImm (rmOf m) (ofDword b₀ b₁ b₂ b₃), rest) else none
  | 0x48 :: 0x83 :: m :: b :: rest =>
    if modOf m = 3 ∧ regOf m = 0 then some (.addImm (rmOf m) b, rest)
    else if modOf m = 3 ∧ regOf m = 1 then some (.orImm (rmOf m) b, rest)
    else none
  | _ => none

theorem modrm_fields : ∀ reg < 8, ∀ rm < 8,
    modOf (modrm reg rm) = 3 ∧ regOf (modrm reg rm) = reg ∧ rmOf (modrm reg rm) = rm := by
  decide +kernel

theorem toNat_or_shift {a : UInt32} {k : UInt32} (b : UInt8) (hk : k.toNat ≤ 24)
    (ha : a.toNat < 2 ^ k.toNat) :
    (a ||| b.toUInt32 <<< k).toNat = a.toNat + b.toNat * 2 ^ k.toNat := by
  have hb := UInt8.toNat_lt b
  have hpow : (2 : ℕ) ^ k.toNat ≤ 2 ^ 24 := Nat.pow_le_pow_right (by omega) hk
  have hshift : (b.toUInt32 <<< k).toNat = 2 ^ k.toNat * b.toNat := by
    rw [UInt32.toNat_shiftLeft, UInt8.toNat_toUInt32, Nat.mod_eq_of_lt (show k.toNat < 32 by omega),
      Nat.shiftLeft_eq, Nat.mul_comm]
    refine Nat.mod_eq_of_lt ?_
    calc 2 ^ k.toNat * b.toNat ≤ 2 ^ 24 * 255 := Nat.mul_le_mul hpow (by omega)
      _ < 2 ^ 32 := by omega
  rw [UInt32.toNat_or, hshift, Nat.or_comm, ← Nat.two_pow_add_eq_or_of_lt ha, Nat.mul_comm]
  omega

theorem toNat_byte (v : UInt32) {k : UInt32} {n : ℕ} (hk : k.toNat = n) (hn : n < 32) :
    ((v >>> k) &&& 0xFF).toUInt8.toNat = v.toNat / 2 ^ n % 256 := by
  have hand : (v >>> k &&& 0xFF).toNat = v.toNat / 2 ^ n % 256 := by
    rw [UInt32.toNat_and, UInt32.toNat_shiftRight, hk, Nat.mod_eq_of_lt hn, Nat.shiftRight_eq_div_pow]
    exact Nat.and_two_pow_sub_one_eq_mod _ 8
  rw [UInt32.toNat_toUInt8, hand]
  omega

theorem ofDword_dword (v : UInt32) :
    ofDword (v &&& 0xFF).toUInt8 ((v >>> 8) &&& 0xFF).toUInt8 ((v >>> 16) &&& 0xFF).toUInt8
      ((v >>> 24) &&& 0xFF).toUInt8 = v := by
  have hv := UInt32.toNat_lt v
  have h₀ : (v &&& 0xFF).toUInt8.toNat = v.toNat % 256 := by
    have h := toNat_byte v (k := 0) (n := 0) rfl (by omega)
    rwa [UInt32.shiftRight_zero, Nat.pow_zero, Nat.div_one] at h
  have h₁ : ((v >>> 8) &&& 0xFF).toUInt8.toNat = v.toNat / 2 ^ 8 % 256 := toNat_byte v rfl (by omega)
  have h₂ : ((v >>> 16) &&& 0xFF).toUInt8.toNat = v.toNat / 2 ^ 16 % 256 := toNat_byte v rfl (by omega)
  have h₃ : ((v >>> 24) &&& 0xFF).toUInt8.toNat = v.toNat / 2 ^ 24 % 256 := toNat_byte v rfl (by omega)
  generalize (v &&& 0xFF).toUInt8 = b₀ at h₀ ⊢
  generalize ((v >>> 8) &&& 0xFF).toUInt8 = b₁ at h₁ ⊢
  generalize ((v >>> 16) &&& 0xFF).toUInt8 = b₂ at h₂ ⊢
  generalize ((v >>> 24) &&& 0xFF).toUInt8 = b₃ at h₃ ⊢
  have s₀ : b₀.toUInt32.toNat = b₀.toNat := UInt8.toNat_toUInt32 b₀
  have s₁ : (b₀.toUInt32 ||| b₁.toUInt32 <<< 8).toNat = _ :=
    toNat_or_shift b₁ (by decide) (show _ < 2 ^ 8 by omega)
  have e₈ : (8 : UInt32).toNat = 8 := rfl
  rw [e₈] at s₁
  have s₂ : (b₀.toUInt32 ||| b₁.toUInt32 <<< 8 ||| b₂.toUInt32 <<< 16).toNat = _ :=
    toNat_or_shift b₂ (by decide) (show _ < 2 ^ 16 by omega)
  have e₁₆ : (16 : UInt32).toNat = 16 := rfl
  rw [e₁₆] at s₂
  have s₃ : (b₀.toUInt32 ||| b₁.toUInt32 <<< 8 ||| b₂.toUInt32 <<< 16 |||
      b₃.toUInt32 <<< 24).toNat = _ :=
    toNat_or_shift b₃ (by decide) (show _ < 2 ^ 24 by omega)
  have e₂₄ : (24 : UInt32).toNat = 24 := rfl
  rw [e₂₄] at s₃
  refine UInt32.toNat_inj.mp (s₃.trans ?_)
  omega

/-- The registers an instruction names are the first eight. -/
def Instr.Plain : Instr → Prop
  | .mov rm reg | .add rm reg => rm < 8 ∧ reg < 8
  | .movImm rm _ | .addImm rm _ | .orImm rm _ => rm < 8
  | .ret => True

theorem decode_encode {i : Instr} (h : i.Plain) (rest : List UInt8) :
    decode (encode i ++ rest) = some (i, rest) := by
  cases i with
  | mov rm reg =>
    obtain ⟨h₁, h₂, h₃⟩ := modrm_fields reg h.2 rm h.1
    simp [encode, decode, h₁, h₂, h₃]
  | add rm reg =>
    obtain ⟨h₁, h₂, h₃⟩ := modrm_fields reg h.2 rm h.1
    simp [encode, decode, h₁, h₂, h₃]
  | movImm rm imm =>
    obtain ⟨h₁, h₂, h₃⟩ := modrm_fields 0 (by omega) rm h
    show (if _ then some (Instr.movImm (rmOf (modrm 0 rm)) (ofDword _ _ _ _), rest) else none) = _
    rw [if_pos ⟨h₁, h₂⟩, h₃, ofDword_dword]
  | addImm rm imm =>
    obtain ⟨h₁, h₂, h₃⟩ := modrm_fields 0 (by omega) rm h
    simp [encode, decode, h₁, h₂, h₃]
  | orImm rm imm =>
    obtain ⟨h₁, h₂, h₃⟩ := modrm_fields 1 (by omega) rm h
    simp [encode, decode, h₁, h₂, h₃]
  | ret => rfl

/-- The opcode for moves of immediates is defined with the extension 0 only. -/
theorem decode_movImm_ext {m : UInt8} (h : regOf m ≠ 0) (b₀ b₁ b₂ b₃ : UInt8) (rest : List UInt8) :
    decode (0x48 :: 0xC7 :: m :: b₀ :: b₁ :: b₂ :: b₃ :: rest) = none := by
  simp [decode, h]

end Decode

section Run

abbrev Regs := ℕ → UInt64

def sext32 (v : UInt32) : UInt64 := v.toInt32.toInt64.toUInt64
def sext8 (v : UInt8) : UInt64 := v.toInt8.toInt64.toUInt64

/-- The registers after an instruction that is no return. -/
def exec : Instr → Regs → Regs
  | .mov rm reg, r => Function.update r rm (r reg)
  | .add rm reg, r => Function.update r rm (r rm + r reg)
  | .movImm rm imm, r => Function.update r rm (sext32 imm)
  | .addImm rm imm, r => Function.update r rm (r rm + sext8 imm)
  | .orImm rm imm, r => Function.update r rm (r rm ||| sext8 imm)
  | .ret, r => r

/-- Runs code up to its return, at most `fuel` instructions: where it returns to and with what registers.
`stack` gives the words of the stack. -/
def run (stack : UInt64 → UInt64) : ℕ → List UInt8 → Regs → Option (UInt64 × Regs)
  | 0, _, _ => none
  | fuel + 1, code, r =>
    match decode code with
    | none => none
    | some (.ret, _) => some (stack (r 4), r)
    | some (i, rest) => run stack fuel rest (exec i r)

/-- The registers after some instructions. -/
def execAll (is : List Instr) (r : Regs) : Regs := is.foldl (fun r i => exec i r) r

/-- Running starts with the instructions whose encodings the code starts with. -/
theorem run_encode {stack : UInt64 → UInt64} {is : List Instr} (h : ∀ i ∈ is, i.Plain ∧ i ≠ .ret)
    (fuel : ℕ) (code : List UInt8) (r : Regs) :
    run stack (is.length + fuel) ((is.map encode).flatten ++ code) r =
      run stack fuel code (execAll is r) := by
  induction is generalizing r with
  | nil =>
    rw [List.length_nil, Nat.zero_add]
    rfl
  | cons i is ih =>
    obtain ⟨hplain, hret⟩ := h i List.mem_cons_self
    have hstep : run stack (is.length + fuel + 1) (((i :: is).map encode).flatten ++ code) r =
        run stack (is.length + fuel) ((is.map encode).flatten ++ code) (exec i r) := by
      rw [List.map_cons, List.flatten_cons, List.append_assoc]
      conv_lhs => unfold run
      rw [decode_encode hplain]
      cases i with
      | ret => exact absurd rfl hret
      | mov | add | movImm | addImm | orImm => rfl
    rw [List.length_cons, Nat.add_right_comm, hstep,
      ih (fun j hj => h j (List.mem_cons_of_mem i hj))]
    rfl

end Run

end X86
