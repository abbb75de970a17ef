/-
# Loading ELF files

`elf_load` and `elf_load_path`.  The headers are read into memory as the file says how long they
are, and used as the compiler says where their fields are; the model keeps what is in the buffer of
the program headers byte by byte, and goes wrong where the code uses a byte outside the buffer or
one that was never written.  The files are given, with what `vfs_open` finds, and whether there is
memory for the path of an interpreter.  The mappings of a user map check their arguments; apart from
that, all that is asked of the kernel may be refused at any time.
-/
import YakKernel.Aborts
import YakKernel.ByteMemory
import YakKernel.HashTable
import YakKernel.Vfs

namespace Elf

open Prog ByteMemory

/-! ## Files -/

/-- The contents of a file. -/
structure File where
  size : ℕ
  byte : ℕ → UInt8

/-- The bytes that `vfs_vobj_read` transfers; the end of the range is a `size_t`. -/
def File.count (f : File) (offset length : ℕ) : ℕ :=
  if 2 ^ 64 ≤ offset + length then 0 else min length (f.size - offset)

/-- The vnodes and their contents, what `vfs_open` finds for a path (or for `NULL`), and whether
`kmalloc` has so many bytes for the path of an interpreter. -/
structure World (V : Type) where
  type : V → Vfs.VType
  file : V → File
  openPath : Option (List UInt8) → Except Status V
  memory : ℕ → Bool

/-! ## What is asked of the kernel -/

/-- Protections, as `vm_prot_t`. -/
structure Prot where
  read : Bool
  write : Bool
  execute : Bool
  user : Bool
  deriving DecidableEq

/-- The calls of `elf_load` with their arguments; mappings are fixed and overwrite, and are copied
on a fork. -/
inductive Request where
  | read (offset length : ℕ)
  | kmalloc (size : ℕ)
  | reserve (hint length : ℕ) (fixed : Bool)
  | mmap (length offset : ℕ) (prot : Prot) (hint : ℕ)
  | map (length : ℕ) (prot : Prot) (hint : ℕ)
  | protect (addr length : ℕ) (prot : Prot)
  | openPath (path : Option (List UInt8))

/-- The answers: an error, if the request with this number is refused, and the address of a
reservation. -/
structure Env where
  refuse : ℕ → Request → Option Status
  address : ℕ → ℕ

/-- Nothing is refused. -/
def Env.Kind (env : Env) : Prop := ∀ n r, env.refuse n r = none

/-- What goes wrong. -/
inductive Wrong where
  /-- an access outside the buffer of the program headers -/
  | outOfBounds
  /-- the use of a byte that was not read -/
  | uninitialised
  | assertion
  /-- a write through `NULL` -/
  | nullWrite
  /-- zeros are written outside the mapping of their segment -/
  | wildWrite
  /-- interpreters are nested deeper than the bound -/
  | diverges
  deriving DecidableEq

/-- A run counts the requests. -/
abbrev ElfM := Prog Env (Stop Status Wrong) ℕ

/-- Ask for something. -/
def ask (r : Request) : ElfM Unit := do
  let env ← getEnv
  let n ← getState
  change (· + 1)
  match env.refuse n r with
  | some rv => fail (.refused rv)
  | none => pure ()

/-- `VOP_READ` of a regular file: how many bytes are transferred. -/
def vopRead (f : File) (offset length : ℕ) : ElfM ℕ := do
  ask (.read offset length)
  if length = 0 then pure 0
  else do
    check (offset < f.size) (.refused .eof)
    pure (f.count offset length)

/-! ## Mappings -/

/-- `USER_VA_BASE`. -/
def userVaBase : ℕ := 0x1000

/-- `USER_VA_END`. -/
def userVaEnd : ℕ := 2 ^ 47

/-- What `alloc_map_range_locked` asks of its arguments. -/
def checkRange (hint length : ℕ) (fixed : Bool) : ElfM Unit := do
  check (length ≠ 0) (.refused .invalidArgs)
  check (length ≤ userVaEnd - userVaBase) (.refused .nospace)
  check (fixed = true → userVaBase ≤ hint ∧ hint + length ≤ userVaEnd) (.refused .invalidArgs)

/-- `vm_map_reserve`: the address. -/
def vmMapReserve (hint length : ℕ) (fixed : Bool) : ElfM ℕ := do
  let env ← getEnv
  let n ← getState
  ask (.reserve hint length fixed)
  checkRange hint length fixed
  pure (if fixed = true then hint else env.address n)

/-- `VOP_MMAP`, at a fixed address. -/
def vopMmap (length offset : ℕ) (prot : Prot) (hint : ℕ) : ElfM Unit := do
  ask (.mmap length offset prot hint)
  checkRange hint length true

/-- `vm_map` of anonymous memory, at a fixed address. -/
def vmMap (length : ℕ) (prot : Prot) (hint : ℕ) : ElfM Unit := do
  ask (.map length prot hint)
  checkRange hint length true

/-- `vm_protect`; the lengths are whole pages. -/
def vmProtect (addr length : ℕ) (prot : Prot) : ElfM Unit := do
  ask (.protect addr length prot)
  check (addr % 4096 = 0) (.refused .invalidArgs)

/-! ## Headers -/

/-- A field of the file header, of whose bytes the first `got` were read. -/
def ehdrField (f : File) (got offset width : ℕ) : ElfM ℕ := do
  check (offset + width ≤ got) (.wrong .uninitialised)
  pure (ofLittleEndian (readBytes f.byte offset width))

/-- The buffer of the program headers: the bytes that were written. -/
abbrev Buffer := ℕ → Option UInt8

/-- `sizeof(Elf64_Phdr)`. -/
def phdrSize : ℕ := 56

/-- A product of two `unsigned short` numbers, which is an `int`, as a `size_t`. -/
def intProduct (a b : ℕ) : ℕ :=
  if a * b < 2 ^ 31 then a * b else 2 ^ 64 - 2 ^ 32 + a * b

/-- The bytes from the file are put into the buffer. -/
def Buffer.put (buf : Buffer) (f : File) (pos offset count : ℕ) : Buffer := fun a =>
  if pos ≤ a ∧ a < pos + count then some (f.byte (offset + (a - pos))) else buf a

/-- The bytes of the field were written. -/
def Buffer.Written (buf : Buffer) (pos width : ℕ) : Prop :=
  ∀ k, k < width → (buf (pos + k)).isSome = true

instance (buf : Buffer) (pos width : ℕ) : Decidable (buf.Written pos width) :=
  Nat.decidableBallLT width (fun k _ => (buf (pos + k)).isSome = true)

/-- The number in a field. -/
def Buffer.value (buf : Buffer) (pos width : ℕ) : ℕ :=
  ofLittleEndian (readBytes (fun a => (buf a).getD 0) pos width)

/-- A field of `phdrs[i]`, in a buffer of `total` bytes. -/
def phdrField (buf : Buffer) (total i offset width : ℕ) : ElfM ℕ := do
  check (phdrSize * i + offset + width ≤ total) (.wrong .outOfBounds)
  check (buf.Written (phdrSize * i + offset) width) (.wrong .uninitialised)
  pure (buf.value (phdrSize * i + offset) width)

/-- `phoff`. -/
def phoff (ePhoff phentsize idx : ℕ) : ℕ := (ePhoff + idx * phentsize) % 2 ^ 64

/-- Read `phdrs[idx]`: `e_phentsize` bytes. -/
def readPhdr (f : File) (total ePhoff phentsize idx : ℕ) (buf : Buffer) : ElfM Buffer := do
  let count ← vopRead f (phoff ePhoff phentsize idx) phentsize
  check (count = 0 ∨ phdrSize * idx + count ≤ total) (.wrong .outOfBounds)
  pure (buf.put f (phdrSize * idx) (phoff ePhoff phentsize idx) count)

/-! ## Segments -/

def ptLoad : ℕ := 1

def ptInterp : ℕ := 3

def ptPhdr : ℕ := 6

def etDyn : ℕ := 3

/-- `ALIGN_DOWN(addr, PAGE_SIZE)`. -/
def alignDown (addr : ℕ) : ℕ := addr / 4096 * 4096

/-- `(n + PAGE_SIZE - 1) & ~(PAGE_SIZE - 1)`. -/
def roundUp (n : ℕ) : ℕ := (n + 4095) % 2 ^ 64 / 4096 * 4096

/-- The rounds that look for `min_va` and `max_va`. -/
def spanPhdr (buf : Buffer) (total i : ℕ) (span : ℕ × ℕ) : ElfM (ℕ × ℕ) := do
  let type ← phdrField buf total i 0 4
  if type ≠ ptLoad then pure span
  else do
    let vaddr ← phdrField buf total i 16 8
    let memsz ← phdrField buf total i 40 8
    pure (min (alignDown vaddr) span.1, max (roundUp ((vaddr + memsz) % 2 ^ 64)) span.2)

/-- `VM_RW`. -/
def vmRw : Prot := ⟨true, true, false, false⟩

/-- The protection of a segment. -/
def segmentProt (flags : ℕ) : Prot where
  read := flags.testBit 2
  write := flags.testBit 1
  execute := flags.testBit 0
  user := true

/-- Map a segment of `memsz` bytes at `vaddr`, of which `filesz` are in the file. -/
def mapSegment (loadBias vaddr offset filesz memsz flags : ℕ) : ElfM Unit := do
  let misalign := vaddr % 4096
  let mapAddress := (loadBias + vaddr - misalign) % 2 ^ 64
  let backedMapSize := roundUp (filesz + misalign)
  let totalMapSize := roundUp (memsz + misalign)
  let prot := segmentProt flags
  let initialProt := if memsz = filesz then prot else vmRw
  vopMmap backedMapSize (offset - misalign) initialProt mapAddress
  if totalMapSize > backedMapSize then
    vmMap (totalMapSize - backedMapSize) initialProt (mapAddress + backedMapSize)
  -- the `memset` after the bytes from the file
  check (memsz = filesz ∨ misalign + memsz ≤ totalMapSize) (.wrong .wildWrite)
  if initialProt ≠ prot then vmProtect mapAddress totalMapSize prot

/-- The rounds that map the segments. -/
def loadPhdr (buf : Buffer) (total loadBias i : ℕ) : ElfM Unit := do
  let type ← phdrField buf total i 0 4
  if type ≠ ptLoad then pure ()
  else do
    let memsz ← phdrField buf total i 40 8
    if memsz = 0 then pure ()
    else do
      let filesz ← phdrField buf total i 32 8
      check (filesz ≤ memsz) (.wrong .assertion)
      let vaddr ← phdrField buf total i 16 8
      let offset ← phdrField buf total i 8 8
      check (vaddr % 4096 = offset % 4096) (.wrong .assertion)
      let flags ← phdrField buf total i 4 4
      mapSegment loadBias vaddr offset filesz memsz flags

/-! ## The interpreter -/

/-- `struct load_info`. -/
structure LoadInfo where
  realEntry : ℕ
  progEntry : ℕ
  base : ℕ
  phdr : Option ℕ
  phnum : ℕ
  phent : ℕ

/-- The string of an interpreter, with `got` bytes of it read, if there is memory for it. -/
def interpPath (f : File) (offset got : ℕ) : Option (List UInt8) :=
  if (0 : UInt8) ∈ readBytes f.byte offset got then
    some ((readBytes f.byte offset got).takeWhile (· ≠ 0))
  else none

/-- Read the path of an interpreter; the answer of `kmalloc` is not looked at. -/
def readInterp (f : File) (memory : Bool) (offset length : ℕ) : ElfM (Option (List UInt8)) := do
  let got ← vopRead f offset length
  if memory = true then do
    check ((interpPath f offset got).isSome = true) (.wrong .uninitialised)
    pure (interpPath f offset got)
  else do
    check (got = 0) (.wrong .nullWrite)
    pure none

/-- `elf_load_path`, given what `elf_load` does. -/
def elfLoadPath {V : Type} (world : World V) (load : V → ElfM LoadInfo)
    (path : Option (List UInt8)) : ElfM LoadInfo := do
  ask (.openPath path)
  match world.openPath path with
  | .error rv => fail (.refused rv)
  | .ok vn => load vn

/-- The rounds that look for an interpreter and the program headers. -/
def infoPhdr {V : Type} (world : World V) (load : V → ElfM LoadInfo) (vn : V) (buf : Buffer)
    (total loadBias i : ℕ) (info : LoadInfo) : ElfM LoadInfo := do
  let type ← phdrField buf total i 0 4
  if type = ptInterp then do
    let length ← phdrField buf total i 32 8
    let offset ← phdrField buf total i 8 8
    let path ← readInterp (world.file vn) (world.memory length) offset length
    let interpinfo ← elfLoadPath world load path
    pure { info with base := interpinfo.base, realEntry := interpinfo.progEntry }
  else if type = ptPhdr then do
    let vaddr ← phdrField buf total i 16 8
    pure { info with phdr := some ((vaddr + loadBias) % 2 ^ 64) }
  else pure info

/-! ## `elf_load` -/

/-- `INTERP_BASE`. -/
def interpBase : ℕ := 0x7ffff7dd7000

/-- The second half of `elf_load`: the segments are mapped, and `load_info` is filled in. -/
def loadSegments {V : Type} (world : World V) (load : V → ElfM LoadInfo) (vn : V) (buf : Buffer)
    (got total phnum phentsize base loadBias : ℕ) : ElfM LoadInfo := do
  let _ ← upTo (fun i _ => loadPhdr buf total loadBias i) () phnum
  let eEntry ← ehdrField (world.file vn) got 24 8
  let entry := (eEntry + loadBias) % 2 ^ 64
  upTo (infoPhdr world load vn buf total loadBias) ⟨entry, entry, base, none, phnum, phentsize⟩
    phnum

/-- `elf_load`, for interpreters nested less than `n` deep. -/
def elfLoad {V : Type} (world : World V) : ℕ → ℕ → V → ElfM LoadInfo
  | 0, _, _ => fail (.wrong .diverges)
  | n + 1, base, vn => do
    check (world.type vn = .vreg) (.refused .invalidArgs)
    let f := world.file vn
    let got ← vopRead f 0 64
    let eType ← ehdrField f got 16 2
    let pie := decide (eType = etDyn)
    let phnum ← ehdrField f got 56 2
    let phentsize ← ehdrField f got 54 2
    let total := intProduct phnum phentsize
    ask (.kmalloc total)
    check (total ≤ HashTable.kernelHeapLength) (.refused .oom)
    let ePhoff ← ehdrField f got 32 8
    let buf ← upTo (readPhdr f total ePhoff phentsize) (fun _ => none) phnum
    let span ← upTo (spanPhdr buf total) (2 ^ 64 - 1, 0) phnum
    let base := if base = 0 ∧ pie = true then 4096 else base
    let base ← vmMapReserve base ((2 ^ 64 + span.2 - span.1) % 2 ^ 64) pie
    let loadBias := if pie = true then (2 ^ 64 + base - span.1) % 2 ^ 64 else 0
    loadSegments world (elfLoad world n interpBase) vn buf got total phnum phentsize base loadBias

end Elf
