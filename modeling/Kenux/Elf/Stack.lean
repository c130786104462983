import Kenux.Elf.Proofs.Load

/-!
# The first stack of a program (`elf_setup_stack` of `arch/x86_64/elf.c`)

Memory is seen through the address space of the program. The strings and arrays are written from the top of the stack
down; every address that is written is noted, the last one first. `pmap_switch` changes no memory and is left out.
-/

namespace Elf

abbrev VMem := UInt64 → UInt8

/-- The memory, how far the stack has grown, and the addresses that were written. -/
structure Image where
  mem : VMem
  sp : UInt64
  written : List UInt64

/-- Bytes are written at the stack pointer and above. -/
def Image.copy (m : Image) : List UInt8 → UInt64 → Image
  | [], _ => m
  | x :: xs, a => Image.copy { m with mem := Function.update m.mem a x, written := a :: m.written } xs (a + 1)

def Image.push (m : Image) (xs : List UInt8) : Image :=
  let sp := m.sp - UInt64.ofNat xs.length
  Image.copy { m with sp := sp } xs sp

/-- The bytes of a word. -/
def wordBytes (w : UInt64) : List UInt8 := (List.range 8).map fun i => (w >>> UInt64.ofNat (8 * i)).toUInt8

/-- `*(--out) = w` -/
def Image.pushWord (m : Image) (w : UInt64) : Image := m.push (wordBytes w)

/-- A loop over strings, the last one first, with their addresses. -/
def pushStrings (m : Image) : List (List UInt8) → Image × List UInt64
  | [] => (m, [])
  | s :: ss =>
    let (m, ptrs) := pushStrings m ss
    let m := m.push (s ++ [0])
    (m, m.sp :: ptrs)

/-- A loop over pointers, the last one first. -/
def pushWords (m : Image) : List UInt64 → Image
  | [] => m
  | p :: ps => (pushWords m ps).pushWord p

/-- How many strings of an array are used. -/
def maxStrings : ℕ := 31

/-- `elf_setup_stack`: the result is the stack pointer of the image. -/
def elfSetupStack (stackTop : UInt64) (argv envp : List (List UInt8)) (mem : VMem) : Image :=
  let m : Image := ⟨mem, stackTop &&& ~~~0xF, []⟩
  let (m, envPtrs) := pushStrings m (envp.take maxStrings)
  let (m, argvPtrs) := pushStrings m (argv.take maxStrings)
  let m := { m with sp := m.sp &&& ~~~0xF }
  let m := m.pushWord 0
  let m := pushWords m envPtrs
  let envBase := m.sp
  let m := m.pushWord 0
  let m := pushWords m argvPtrs
  let argvBase := m.sp
  let m := m.pushWord envBase
  let m := m.pushWord argvBase
  m.pushWord (UInt64.ofNat (min argv.length maxStrings))

/-! ## What the image should be -/

/-- The loader mapped a page of the stack here. -/
def Mapped (a : UInt64) : Prop := ∃ va ∈ stackPages, va.toNat / 4096 = a.toNat / 4096

def wordAt (m : VMem) (a : UInt64) : UInt64 :=
  (List.range 8).foldr (fun i w => w * 256 + (m (a + UInt64.ofNat i)).toUInt64) 0

/-- A copy of a string. -/
def StringAt (m : VMem) (a : UInt64) (s : List UInt8) : Prop :=
  ∀ i ≤ s.length, m (a + UInt64.ofNat i) = (s ++ [0]).getD i 0

/-- An array of pointers to copies of strings, with a null pointer behind. -/
def ArrayAt (m : VMem) (a : UInt64) (strings : List (List UInt8)) : Prop :=
  (∀ i < strings.length, StringAt m (wordAt m (a + UInt64.ofNat (8 * i))) (strings.getD i [])) ∧
    wordAt m (a + UInt64.ofNat (8 * strings.length)) = 0

/-- The count of the arguments and the two arrays. -/
def Decodes (argv envp : List (List UInt8)) (m : Image) : Prop :=
  wordAt m.mem m.sp = UInt64.ofNat argv.length ∧ ArrayAt m.mem (wordAt m.mem (m.sp + 8)) argv ∧
    ArrayAt m.mem (wordAt m.mem (m.sp + 16)) envp

/-- Only the stack is written, no byte of it twice, and the image decodes. -/
def StackOk (argv envp : List (List UInt8)) (m : Image) : Prop :=
  (∀ a ∈ m.written, Mapped a) ∧ m.written.Nodup ∧ Decodes argv envp m

/-- The strings do not fit, and nothing is written. -/
def Refused (m : Image) : Prop := m.written = []

/-! ## The top of the stack -/

variable {m : Image} {xs : List UInt8} {a b : UInt64} {ss : List (List UInt8)}

theorem mem_copy_of_mem (h : b ∈ m.written) : b ∈ (m.copy xs a).written := by
  induction xs generalizing m a with
  | nil => exact h
  | cons x xs ih => exact ih (List.mem_cons_of_mem a h)

theorem mem_copy {i : ℕ} (hi : i < xs.length) : a + UInt64.ofNat i ∈ (m.copy xs a).written := by
  induction xs generalizing m a i with
  | nil => exact absurd hi (Nat.not_lt_zero i)
  | cons x xs ih =>
    unfold Image.copy
    cases i with
    | zero =>
      have hzero : a + UInt64.ofNat 0 = a := by simp
      rw [hzero]
      exact mem_copy_of_mem List.mem_cons_self
    | succ i =>
      have hnext : a + UInt64.ofNat (i + 1) = a + 1 + UInt64.ofNat i := by
        rw [UInt64.ofNat_add]
        grind
      rw [hnext]
      exact ih (Nat.lt_of_succ_lt_succ hi)

/-- What is pushed ends right below where the stack was. -/
theorem below_mem_push (h : xs ≠ []) : m.sp - 1 ∈ (m.push xs).written := by
  have hlength : xs.length - 1 + 1 = xs.length := Nat.sub_add_cancel (List.length_pos_iff.mpr h)
  have hlast : m.sp - UInt64.ofNat xs.length + UInt64.ofNat (xs.length - 1) = m.sp - 1 := by
    rw [← hlength, UInt64.ofNat_add, Nat.add_sub_cancel]
    grind
  have hmem := mem_copy (m := { m with sp := m.sp - UInt64.ofNat xs.length })
    (a := m.sp - UInt64.ofNat xs.length) (show xs.length - 1 < xs.length by omega)
  rwa [hlast] at hmem

theorem mem_push_of_mem (h : b ∈ m.written) : b ∈ (m.push xs).written := mem_copy_of_mem h

theorem mem_pushWord_of_mem {w : UInt64} (h : b ∈ m.written) : b ∈ (m.pushWord w).written := mem_push_of_mem h

theorem mem_pushWords_of_mem {ps : List UInt64} (h : b ∈ m.written) : b ∈ (pushWords m ps).written := by
  induction ps with
  | nil => exact h
  | cons p ps ih => exact mem_pushWord_of_mem ih

theorem mem_pushStrings_of_mem (h : b ∈ m.written) : b ∈ (pushStrings m ss).1.written := by
  induction ss with
  | nil => exact h
  | cons s ss ih => exact mem_push_of_mem ih

/-- The byte below the stack pointer is written, unless there is no string. -/
theorem below_mem_pushStrings (ss : List (List UInt8)) :
    m.sp - 1 ∈ (pushStrings m ss).1.written ∨ (pushStrings m ss).1.sp = m.sp := by
  induction ss with
  | nil => exact .inr rfl
  | cons s ss ih =>
    left
    rcases ih with hmem | hsp
    · exact mem_push_of_mem hmem
    · have hbelow := below_mem_push (m := (pushStrings m ss).1) (show s ++ [0] ≠ [] by simp)
      rwa [hsp] at hbelow

/-- Whatever the strings are, the byte below the top of the stack is written. -/
theorem top_written (argv envp : List (List UInt8)) (mem : VMem) :
    0x7FFFFFFFFFEF ∈ (elfSetupStack userStackTop argv envp mem).written := by
  have htop : (userStackTop &&& ~~~0xF) - 1 = 0x7FFFFFFFFFEF := by decide
  unfold elfSetupStack
  dsimp only
  refine mem_pushWord_of_mem (mem_pushWord_of_mem (mem_pushWord_of_mem (mem_pushWords_of_mem (mem_pushWord_of_mem
    (mem_pushWords_of_mem ?_)))))
  generalize hm : (⟨mem, userStackTop &&& ~~~0xF, []⟩ : Image) = m
  have hsp : m.sp = userStackTop &&& ~~~0xF := by rw [← hm]
  rcases below_mem_pushStrings (m := m) (envp.take maxStrings) with henv | henv
  · rw [hsp, htop] at henv
    exact mem_pushWord_of_mem (mem_pushStrings_of_mem henv)
  · rcases below_mem_pushStrings (m := (pushStrings m (envp.take maxStrings)).1) (argv.take maxStrings)
      with hargv | hargv
    · rw [henv, hsp, htop] at hargv
      exact mem_pushWord_of_mem hargv
    · have hword := below_mem_push (m := { (pushStrings (pushStrings m (envp.take maxStrings)).1
        (argv.take maxStrings)).1 with sp := userStackTop &&& ~~~0xF }) (show wordBytes 0 ≠ [] by decide)
      rw [hargv, henv, hsp]
      rw [htop] at hword
      exact hword

/-- The page of the top of the stack is not mapped. -/
theorem top_not_mapped : ¬Mapped 0x7FFFFFFFFFEF := by
  unfold Mapped
  rw [mem_stackPages]
  decide

/-- With no strings at all, too. -/
theorem empty_stack_wrong : ¬(StackOk [] [] (elfSetupStack userStackTop [] [] fun _ => 0) ∨
    Refused (elfSetupStack userStackTop [] [] fun _ => 0)) := by
  have htop := top_written [] [] fun _ => 0
  rintro (hok | hrefused)
  · exact top_not_mapped (hok.1 _ htop)
  · exact List.ne_nil_of_mem htop hrefused

/-- No image of a stack is right: the page of its top is not mapped, and nothing is refused. -/
theorem stack_never_ok (argv envp : List (List UInt8)) (mem : VMem) :
    ¬(StackOk argv envp (elfSetupStack userStackTop argv envp mem) ∨
      Refused (elfSetupStack userStackTop argv envp mem)) := by
  have htop := top_written argv envp mem
  rintro (hok | hrefused)
  · exact top_not_mapped (hok.1 _ htop)
  · exact List.ne_nil_of_mem htop hrefused

end Elf
