/-
# Mapping the segments of an ELF file

`elf_load` from where the program headers have been read, over the bytes that are in memory.  The
file is a regular file of tmpfs, so `VOP_MMAP` is `vm_map` of the object of its vnode; the headers
are what is read into the buffer.  What becomes of an interpreter is a parameter.
-/
import YakKernel.ElfSafe
import YakKernel.VmReservation
import YakKernel.VmSpace

namespace ElfImage

open Prog Vm

/-! ## Program headers -/

/-- `Elf64_Phdr`. -/
structure Phdr where
  type : ℕ
  flags : ℕ
  offset : ℕ
  vaddr : ℕ
  filesz : ℕ
  memsz : ℕ
  deriving DecidableEq

/-- `phdrs[i]`. -/
def readPhdr (f : Elf.File) (i : ℕ) : Phdr :=
  ⟨f.type i, f.flags i, f.offset i, f.vaddr i, f.filesz i, f.memsz i⟩

/-- `phdrs`. -/
def readPhdrs (f : Elf.File) : List Phdr := (List.range f.phnum).map (readPhdr f)

/-- One round of the loop that looks for `min_va` and `max_va`. -/
def spanPhdr (span : ℕ × ℕ) (ph : Phdr) : ℕ × ℕ :=
  if ph.type = Elf.ptLoad then
    (min (alignDown ph.vaddr) span.1, max (alignUp (wadd ph.vaddr ph.memsz)) span.2)
  else span

/-- `min_va` and `max_va`. -/
def span (phdrs : List Phdr) : ℕ × ℕ := phdrs.foldl spanPhdr (2 ^ 64 - 1, 0)

/-- `reserved_size`. -/
def reservedSize (phdrs : List Phdr) : ℕ := wsub (span phdrs).2 (span phdrs).1

/-- The address that is asked for. -/
def hintOf (pie : Bool) (base : ℕ) : ℕ := if base = 0 ∧ pie = true then pageSize else base

/-- `load_bias`, where the reservation is at `base`. -/
def loadBias (pie : Bool) (base : ℕ) (phdrs : List Phdr) : ℕ :=
  if pie = true then wsub base (span phdrs).1 else 0

/-! ## Mapping -/

/-- `VM_CACHE_DEFAULT`. -/
def vmCacheDefault : ℕ := 3

/-- `VM_RW`. -/
def vmRw : Prot := ⟨true, true, false, false, false⟩

/-- The protection of a segment. -/
def segmentProt (flags : ℕ) : Prot where
  read := flags.testBit 2
  write := flags.testBit 1
  execute := flags.testBit 0
  user := true
  global := false

/-- `TRY` of `vm_map` with `VM_INHERIT_COPY`, over what is there. -/
def mapOver (m : ℕ) (obj : Option ℕ) (length offset : ℕ) (prot : Prot) (hint : ℕ) :
    SpaceM Unit := do
  let r ← onVm (vmMap m obj length offset prot .copy vmCacheDefault hint overwriting)
  attempt r.1

/-- The pages of a segment behind those with bytes from the file. -/
def mapTail (m mapAddress backedMapSize totalMapSize : ℕ) (prot : Prot) : SpaceM Unit :=
  if backedMapSize < totalMapSize then
    mapOver m none (totalMapSize - backedMapSize) 0 prot (wadd mapAddress backedMapSize)
  else pure ()

/-- The protection of a segment, if it is not there from the start. -/
def protectSegment (m mapAddress totalMapSize : ℕ) (initialProt prot : Prot) : SpaceM Unit :=
  if initialProt ≠ prot then do
    let rv ← onVm (vmProtect m mapAddress totalMapSize prot settingMax)
    attempt rv
  else pure ()

/-- Map a segment; the file has the object `vobj`. -/
def mapSegment (m vobj bias : ℕ) (ph : Phdr) : SpaceM Unit := do
  check (ph.filesz ≤ ph.memsz) (.wrong .assertion)
  let misalign := ph.vaddr % pageSize
  check (misalign = ph.offset % pageSize) (.wrong .assertion)
  let mapAddress := wsub (wadd bias ph.vaddr) misalign
  let backedMapSize := alignUp (wadd ph.filesz misalign)
  let totalMapSize := alignUp (wadd ph.memsz misalign)
  let prot := segmentProt ph.flags
  let initialProt := if ph.memsz = ph.filesz then prot else vmRw
  mapOver m (some vobj) backedMapSize (ph.offset - misalign) initialProt mapAddress
  mapTail m mapAddress backedMapSize totalMapSize initialProt
  memset m 0 (wadd (wadd mapAddress misalign) ph.filesz) (ph.memsz - ph.filesz)
  protectSegment m mapAddress totalMapSize initialProt prot

/-- A segment that is mapped. -/
def Phdr.Loads (ph : Phdr) : Prop := ph.type = Elf.ptLoad ∧ ph.memsz ≠ 0

instance (ph : Phdr) : Decidable ph.Loads :=
  inferInstanceAs (Decidable (ph.type = Elf.ptLoad ∧ ph.memsz ≠ 0))

/-- One round of the loop that maps the segments. -/
def loadPhdr (m vobj bias : ℕ) (ph : Phdr) : SpaceM Unit :=
  if ph.Loads then mapSegment m vobj bias ph else pure ()

/-- The segments are mapped over a reservation; the result is where that is. -/
def loadSegments (m vobj : ℕ) (pie : Bool) (base : ℕ) (phdrs : List Phdr) : SpaceM ℕ := do
  let r ← onVm (vmMapReserve m (hintOf pie base) (reservedSize phdrs) (reserveFlags pie))
  attempt r.1
  forEach (loadPhdr m vobj (loadBias pie r.2 phdrs)) phdrs
  pure r.2

/-! ## `load_info` -/

/-- One round of the loop that fills in `load_info`; `interpreter` reads the path of an interpreter
and loads that. -/
def infoPhdr (interpreter : Phdr → SpaceM Elf.LoadInfo) (bias : ℕ) (info : Elf.LoadInfo)
    (ph : Phdr) : SpaceM Elf.LoadInfo :=
  if ph.type = Elf.ptInterp then do
    let interpinfo ← interpreter ph
    pure { info with base := interpinfo.base, realEntry := interpinfo.progEntry }
  else if ph.type = Elf.ptPhdr then pure { info with phdr := some (wadd ph.vaddr bias) }
  else pure info

/-- `elf_load`, of a file whose headers are read. -/
def elfLoad (interpreter : Phdr → SpaceM Elf.LoadInfo) (m vobj : ℕ) (f : Elf.File) (base : ℕ) :
    SpaceM Elf.LoadInfo := do
  let base ← loadSegments m vobj f.pie base (readPhdrs f)
  let bias := loadBias f.pie base (readPhdrs f)
  let entry := wadd (f.num 24 8) bias
  (readPhdrs f).foldlM (infoPhdr interpreter bias)
    ⟨entry, entry, base, none, f.phnum, f.phentsize⟩

/-! ## Files -/

/-- The program header number `i` of a file. -/
def phdr (f : Elf.File) (i : ℕ) : Phdr :=
  let field := fun offset width => f.num (f.num 32 8 + Elf.phdrSize * i + offset) width
  ⟨field 0 4, field 4 4, field 8 8, field 16 8, field 32 8, field 40 8⟩

/-- The program headers of a file. -/
def phdrs (f : Elf.File) : List Phdr := (List.range f.phnum).map (phdr f)

/-- The program headers are in the file. -/
structure HasTable (f : Elf.File) : Prop where
  phentsize : f.phentsize = Elf.phdrSize
  inside : f.num 32 8 + Elf.phdrSize * f.phnum ≤ f.size
  size : f.size < 2 ^ 64

variable {f : Elf.File} {i k : ℕ}

theorem HasTable.phoff (h : HasTable f) (hi : i < f.phnum) :
    f.phoff i = f.num 32 8 + Elf.phdrSize * i := by
  have hinside := h.inside
  have hsize := h.size
  rw [Elf.File.phoff, Elf.phoff, h.phentsize, Nat.mod_eq_of_lt]
  · ring
  · have hle : Elf.phdrSize * i ≤ Elf.phdrSize * f.phnum := Nat.mul_le_mul_left _ hi.le
    rw [Nat.mul_comm]
    omega

theorem HasTable.got (h : HasTable f) (hi : i < f.phnum) :
    f.got (f.phoff i) f.phentsize = Elf.phdrSize := by
  have hinside := h.inside
  have hsize := h.size
  have hle : Elf.phdrSize * (i + 1) ≤ Elf.phdrSize * f.phnum := Nat.mul_le_mul_left _ hi
  rw [h.phoff hi, Elf.File.got, h.phentsize, if_neg (by decide), Elf.File.count,
    if_neg (by rw [Nat.mul_succ] at hle; omega), min_eq_left]
  rw [Nat.mul_succ] at hle
  omega

theorem HasTable.image (h : HasTable f) {n : ℕ} (hn : n ≤ f.phnum) (hi : i < n)
    (hk : k < Elf.phdrSize) :
    f.image n (Elf.phdrSize * i + k) = some (f.byte (f.num 32 8 + Elf.phdrSize * i + k)) := by
  have hk56 : k < 56 := hk
  induction n with
  | zero => omega
  | succ n ih =>
    have hput : f.image (n + 1) (Elf.phdrSize * i + k) =
        if Elf.phdrSize * n ≤ Elf.phdrSize * i + k ∧
            Elf.phdrSize * i + k < Elf.phdrSize * n + Elf.phdrSize then
          some (f.byte (f.phoff n + (Elf.phdrSize * i + k - Elf.phdrSize * n)))
        else f.image n (Elf.phdrSize * i + k) := by
      rw [Elf.File.image, Elf.Buffer.put, h.got (by omega)]
    rw [hput]
    unfold Elf.phdrSize
    by_cases hin : i = n
    · subst hin
      rw [if_pos (by omega), h.phoff (by omega), Elf.phdrSize]
      congr 2
      omega
    · rw [if_neg (by omega)]
      exact ih (by omega) (by omega)

-- numbers from a file are not computed
section

attribute [local irreducible] Elf.File.num Elf.File.image

theorem HasTable.get (h : HasTable f) (hi : i < f.phnum) {offset width : ℕ}
    (hw : offset + width ≤ Elf.phdrSize) :
    f.get i offset width = f.num (f.num 32 8 + Elf.phdrSize * i + offset) width := by
  have hbytes : ∀ w offset, offset + w ≤ Elf.phdrSize →
      ByteMemory.readBytes (fun a => (f.image f.phnum a).getD 0) (Elf.phdrSize * i + offset) w =
        ByteMemory.readBytes f.byte (f.num 32 8 + Elf.phdrSize * i + offset) w := by
    intro w
    induction w with
    | zero => exact fun _ _ => rfl
    | succ w ih =>
      intro offset hle
      have hlt : offset < Elf.phdrSize := by omega
      rw [ByteMemory.readBytes, ByteMemory.readBytes, h.image le_rfl hi hlt, Option.getD_some]
      exact congrArg _ (ih (offset + 1) (by omega))
  rw [Elf.File.get, Elf.Buffer.value, hbytes width offset hw]
  exact (Elf.File.num.eq_1 f _ width).symm

/-- **The headers are read as they are in the file.** -/
theorem HasTable.readPhdrs (h : HasTable f) : readPhdrs f = phdrs f := by
  refine List.map_congr_left fun i hi => ?_
  have hi := List.mem_range.mp hi
  have hget : ∀ {offset width : ℕ}, offset + width ≤ Elf.phdrSize → f.get i offset width = _ :=
    fun hw => h.get hi hw
  simp only [readPhdr, phdr, Elf.File.type, Elf.File.flags, Elf.File.offset, Elf.File.vaddr,
    Elf.File.filesz, Elf.File.memsz]
  rw [hget (by decide), hget (by decide), hget (by decide), hget (by decide), hget (by decide),
    hget (by decide)]

end

end ElfImage
