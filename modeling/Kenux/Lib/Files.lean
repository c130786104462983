import Kenux.Lib.Memory

/-!
# Files behind descriptors

The calls a kernel component makes on files, and what it may rely on: bytes written at an offset are the
bytes read there until something else is written over them. A call may fail or transfer fewer bytes than
asked; then only its return value says so.
-/

namespace Files

/-- The calls on open files. A seek is from the start of the file; a read gives the number of bytes read
and the bytes. -/
structure Ops (τ : Type*) where
  openFile : τ → String → ℤ × τ
  close : τ → ℤ → τ
  lseek : τ → ℤ → ℤ → ℤ × τ
  read : τ → ℤ → ℕ → ℤ × (ℕ → UInt8) × τ
  write : τ → ℤ → (ℕ → UInt8) → ℕ → ℤ × τ

/-- Files that read back what was written: each descriptor has a file and a position in it. -/
structure ReadsBack {τ : Type*} (ops : Ops τ) (φ : Type*) where
  file : τ → ℤ → φ
  pos : τ → ℤ → ℕ
  byte : τ → φ → ℕ → UInt8
  lseek_file : ∀ s fd o f, file (ops.lseek s fd o).2 f = file s f
  lseek_byte : ∀ s fd o, byte (ops.lseek s fd o).2 = byte s
  lseek_pos : ∀ s fd (o : ℕ), (ops.lseek s fd o).1 = o → pos (ops.lseek s fd o).2 fd = o
  read_file : ∀ s fd n f, file (ops.read s fd n).2.2 f = file s f
  read_byte : ∀ s fd n, byte (ops.read s fd n).2.2 = byte s
  read_data : ∀ s fd (n : ℕ), (ops.read s fd n).1 = n →
    ∀ k < n, (ops.read s fd n).2.1 k = byte s (file s fd) (pos s fd + k)
  write_file : ∀ s fd d n f, file (ops.write s fd d n).2 f = file s f
  write_data : ∀ s fd d (n : ℕ), (ops.write s fd d n).1 = n →
    ∀ k < n, byte (ops.write s fd d n).2 (file s fd) (pos s fd + k) = d k
  write_other : ∀ s fd d n f o, (f = file s fd → o < pos s fd ∨ pos s fd + n ≤ o) →
    byte (ops.write s fd d n).2 f o = byte s f o

end Files

/-!
## Sector devices and crashes

A device is a map from sectors to their bytes. It applies the writes in the order they are made; a crash
keeps a prefix of them. Each write carries a tag that says what it is for.
-/

namespace Disk

open Memory

variable {τ : Type*}

abbrev Device := ℕ → Mem

structure Write (τ : Type*) where
  sector : ℕ
  data : Mem
  tag : τ

/-- The device after the writes. -/
def replay (d : Device) : List (Write τ) → Device
  | [] => d
  | w :: ws => replay (Function.update d w.sector w.data) ws

variable {d : Device} {ws vs : List (Write τ)} {l : ℕ}

end Disk
