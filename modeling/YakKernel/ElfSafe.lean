/-
# Which ELF files are loaded safely

What the file has to be like so that `elf_load` does nothing wrong, whatever is refused: a function
of the bytes of the file, and of the interpreters that it leads to.  Every part of the code comes
with what it needs and with what it takes to get past it.
-/
import YakKernel.ElfLoad

namespace Elf

open Prog ByteMemory

variable {V : Type}

/-! ## What a file says -/

/-- A number in the file. -/
def File.num (f : File) (offset width : ℕ) : ℕ := ofLittleEndian (readBytes f.byte offset width)

def File.phnum (f : File) : ℕ := f.num 56 2

def File.phentsize (f : File) : ℕ := f.num 54 2

/-- The length of the buffer. -/
def File.total (f : File) : ℕ := intProduct f.phnum f.phentsize

/-- Where the program header number `i` is. -/
def File.phoff (f : File) (i : ℕ) : ℕ := Elf.phoff (f.num 32 8) f.phentsize i

/-- The bytes that a read transfers. -/
def File.got (f : File) (offset length : ℕ) : ℕ := if length = 0 then 0 else f.count offset length

/-- A read does not start at the end of the file. -/
def File.Reads (f : File) (offset length : ℕ) : Prop := length = 0 ∨ offset < f.size

/-- The buffer after `i` program headers are read. -/
def File.image (f : File) : ℕ → Buffer
  | 0 => fun _ => none
  | i + 1 => (f.image i).put f (phdrSize * i) (f.phoff i) (f.got (f.phoff i) f.phentsize)

/-- The program header number `i` fits into the buffer. -/
def File.Fits (f : File) (i : ℕ) : Prop :=
  f.got (f.phoff i) f.phentsize = 0 ∨ phdrSize * i + f.got (f.phoff i) f.phentsize ≤ f.total

/-- The field is in the buffer, and was read. -/
def File.Has (f : File) (i offset width : ℕ) : Prop :=
  phdrSize * i + offset + width ≤ f.total ∧
    (f.image f.phnum).Written (phdrSize * i + offset) width

/-- The number in the field. -/
def File.get (f : File) (i offset width : ℕ) : ℕ :=
  (f.image f.phnum).value (phdrSize * i + offset) width

/-! The fields of the program header number `i`. -/

def File.type (f : File) (i : ℕ) : ℕ := f.get i 0 4

def File.flags (f : File) (i : ℕ) : ℕ := f.get i 4 4

def File.offset (f : File) (i : ℕ) : ℕ := f.get i 8 8

def File.vaddr (f : File) (i : ℕ) : ℕ := f.get i 16 8

def File.filesz (f : File) (i : ℕ) : ℕ := f.get i 32 8

def File.memsz (f : File) (i : ℕ) : ℕ := f.get i 40 8

/-! ## Segments -/

/-- The least and the largest address of the first `i` program headers. -/
def File.span (f : File) : ℕ → ℕ × ℕ
  | 0 => (2 ^ 64 - 1, 0)
  | i + 1 =>
    if f.type i = ptLoad then
      (min (alignDown (f.vaddr i)) (f.span i).1,
        max (roundUp ((f.vaddr i + f.memsz i) % 2 ^ 64)) (f.span i).2)
    else f.span i

/-- `pie`. -/
def File.pie (f : File) : Bool := decide (f.num 16 2 = etDyn)

/-- The address that is asked for. -/
def File.base (f : File) (base : ℕ) : ℕ := if base = 0 ∧ f.pie = true then 4096 else base

/-- The difference between the addresses and those in the file. -/
def File.bias (f : File) (base : ℕ) : ℕ :=
  if f.pie = true then (2 ^ 64 + f.base base - (f.span f.phnum).1) % 2 ^ 64 else 0

/-- A range that may be mapped. -/
def Allowed (hint length : ℕ) (fixed : Bool) : Prop :=
  length ≠ 0 ∧ length ≤ userVaEnd - userVaBase ∧
    (fixed = true → userVaBase ≤ hint ∧ hint + length ≤ userVaEnd)

/-- The page of the segment, with the load bias. -/
def mapAddress (bias vaddr : ℕ) : ℕ := (bias + vaddr - vaddr % 4096) % 2 ^ 64

/-- The pages of a segment with bytes from the file, and those without. -/
def Mappable (bias vaddr filesz memsz : ℕ) : Prop :=
  Allowed (mapAddress bias vaddr) (roundUp (filesz + vaddr % 4096)) true ∧
    (roundUp (filesz + vaddr % 4096) < roundUp (memsz + vaddr % 4096) →
      Allowed (mapAddress bias vaddr + roundUp (filesz + vaddr % 4096))
        (roundUp (memsz + vaddr % 4096) - roundUp (filesz + vaddr % 4096)) true)

/-- The range of all segments may be mapped. -/
def File.Reserved (f : File) (base : ℕ) : Prop :=
  Allowed (f.base base) ((2 ^ 64 + (f.span f.phnum).2 - (f.span f.phnum).1) % 2 ^ 64) f.pie

/-- The code gets past a segment; only a segment that is filled with zeros, or becomes read-only,
is protected in the end. -/
def File.Placed (f : File) (bias i : ℕ) : Prop :=
  f.type i = ptLoad → f.memsz i ≠ 0 → Mappable bias (f.vaddr i) (f.filesz i) (f.memsz i) ∧
    (f.memsz i ≠ f.filesz i → segmentProt (f.flags i) ≠ vmRw →
      mapAddress bias (f.vaddr i) % 4096 = 0)

/-- A segment with bytes: no more of them are in the file than in memory, they are at the same
place of a page, and, if it is mapped and has zeros, its last page is not beyond the last
address. -/
def File.Loadable (f : File) (bias i : ℕ) : Prop :=
  f.Has i 32 8 ∧ f.filesz i ≤ f.memsz i ∧ f.Has i 16 8 ∧ f.Has i 8 8 ∧
    f.vaddr i % 4096 = f.offset i % 4096 ∧ f.Has i 4 4 ∧
    (Mappable bias (f.vaddr i) (f.filesz i) (f.memsz i) →
      f.memsz i = f.filesz i ∨ f.vaddr i % 4096 + f.memsz i + 4095 < 2 ^ 64)

/-- The program headers are read. -/
def File.Ready (f : File) : Prop :=
  0 < f.size ∧ f.total ≤ HashTable.kernelHeapLength ∧
    ∀ i, i < f.phnum → f.Reads (f.phoff i) f.phentsize

/-- **The headers are read, and the segments mapped, safely.** -/
structure File.Sound (f : File) (base : ℕ) : Prop where
  header : 0 < f.size → 58 ≤ f.size
  fits : 0 < f.size → f.total ≤ HashTable.kernelHeapLength → ∀ i, i < f.phnum →
    (∀ j, j ≤ i → f.Reads (f.phoff j) f.phentsize) → f.Fits i
  types : f.Ready → ∀ i, i < f.phnum → f.Has i 0 4
  spans : f.Ready → ∀ i, i < f.phnum → f.type i = ptLoad → f.Has i 16 8 ∧ f.Has i 40 8
  segments : f.Ready → f.Reserved base → ∀ i, i < f.phnum →
    (∀ j, j < i → f.Placed (f.bias base) j) → f.type i = ptLoad → f.memsz i ≠ 0 →
      f.Loadable (f.bias base) i

/-- The code gets as far as the interpreters. -/
def File.Mapped (f : File) (base : ℕ) : Prop :=
  f.Ready ∧ f.Reserved base ∧ ∀ i, i < f.phnum → f.Placed (f.bias base) i

/-! ## Interpreters -/

/-- The bytes of the path of an interpreter that are read. -/
def File.pathGot (f : File) (i : ℕ) : ℕ := f.got (f.offset i) (f.filesz i)

/-- The path of the interpreter that the program header number `i` names, if there is memory for
it. -/
def World.interp (world : World V) (f : File) (i : ℕ) : Option (List UInt8) :=
  if world.memory (f.filesz i) = true then interpPath f (f.offset i) (f.pathGot i) else none

/-- The interpreter is found, and `p` holds of it. -/
def World.Finds (world : World V) (f : File) (i : ℕ) (p : V → Prop) : Prop :=
  f.Reads (f.offset i) (f.filesz i) ∧ ∃ w, world.openPath (world.interp f i) = .ok w ∧ p w

/-- If nothing else is refused, a file is loaded, with interpreters nested less than `n` deep. -/
def World.Loads (world : World V) : ℕ → ℕ → V → Prop
  | 0, _, _ => False
  | n + 1, base, vn => world.type vn = .vreg ∧ (world.file vn).Mapped base ∧
      ∀ i, i < (world.file vn).phnum → (world.file vn).type i = ptInterp →
        world.Finds (world.file vn) i (world.Loads n interpBase)

variable {f : File} {world : World V} {vn : V} {i total n : ℕ} {buf : Buffer}

-- numbers from a file are not computed
section

attribute [local irreducible] File.get

attribute [local irreducible] File.num

end

/-! ## The result -/

/-- **`elf_load` is safe**: whatever is refused, it does nothing wrong, and does not load
interpreters forever. -/
def Safe (world : World V) (base : ℕ) (vn : V) : Prop :=
  ∃ n, ∀ env s c, elfLoad world n base vn env s ≠ .error (.wrong c)

end Elf
