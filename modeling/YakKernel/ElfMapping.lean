/-
# Mapping one segment of an ELF file

A segment is put over a reservation in up to two mappings, zeroed behind the bytes from the file,
and protected.  It is then in memory as the file says.  All of this succeeds exactly when there is a
page with bytes from the file, and these pages do not snag on what is left of the reservation.
-/
import YakKernel.ElfSegments

namespace ElfImage

open Prog Vm

/-! ## Well-formed files -/

/-- The first page of a segment. -/
def Phdr.start (ph : Phdr) : ℕ := alignDown ph.vaddr

/-- The end of the last page. -/
def Phdr.stop (ph : Phdr) : ℕ := alignUp (ph.vaddr + ph.memsz)

/-- The length of the pages. -/
def Phdr.length (ph : Phdr) : ℕ := ph.stop - ph.start

/-- The length of the pages with bytes from the file. -/
def Phdr.backed (ph : Phdr) : ℕ := alignUp (ph.filesz + ph.vaddr % pageSize)

/-- A well-formed segment of a file of `size` bytes. -/
structure Phdr.WellFormed (ph : Phdr) (size : ℕ) : Prop where
  congruent : ph.vaddr % pageSize = ph.offset % pageSize
  filesz_le : ph.filesz ≤ ph.memsz
  vaddr_le : ph.vaddr + ph.memsz + pageSize ≤ 2 ^ 64
  offset_le : ph.offset + ph.filesz ≤ size

/-- Segments on disjoint pages. -/
def Phdr.Apart (p q : Phdr) : Prop := p.Loads → q.Loads → p.stop ≤ q.start ∨ q.stop ≤ p.start

/-- A well-formed file. -/
structure WellFormed (f : Elf.File) : Prop extends HasTable f where
  segments : ∀ ph ∈ phdrs f, ph.type = Elf.ptLoad → ph.WellFormed f.size
  apart : (phdrs f).Pairwise Phdr.Apart

/-- The contents of the objects, when `vobj` is the object of the file. -/
def fileContents (vobj : ℕ) (f : Elf.File) (o : Option ℕ) (offset : ℕ) : UInt8 :=
  if o = some vobj then f.byte offset else 0

/-- The segment is in memory as the file says. -/
def Exact (sp : Space) (m vobj bias : ℕ) (f : Elf.File) (ph : Phdr) : Prop :=
  ∀ i, i < ph.memsz → sp.byteAt (fileContents vobj f) m (wadd bias (ph.vaddr + i)) =
      some (if i < ph.filesz then f.byte (ph.offset + i) else 0) ∧
    sp.protAt m (wadd bias (ph.vaddr + i)) = some (segmentProt ph.flags)

variable {env : Env} {sp : Space} {m vobj bias base len hint length offset size : ℕ}
  {taken : ℕ → Prop} {prot : Prot} {obj : Option ℕ} {f : Elf.File} {ph : Phdr}

/-! ## Sizes -/

/-- The pages of a segment. -/
structure Phdr.Pages (ph : Phdr) : Prop where
  start_add : ph.start + ph.vaddr % pageSize = ph.vaddr
  start_le : ph.start ≤ ph.stop
  backed_le : ph.backed ≤ ph.length
  filesz_le : ph.vaddr % pageSize + ph.filesz ≤ ph.backed
  memsz_le : ph.vaddr % pageSize + ph.memsz ≤ ph.length
  length_lt : ph.length < 2 ^ 64
  start_aligned : IsAligned ph.start
  backed_aligned : IsAligned ph.backed
  length_aligned : IsAligned ph.length

theorem Phdr.WellFormed.pages (h : ph.WellFormed size) : ph.Pages := by
  obtain ⟨h1, h2, h3, h4⟩ := h
  simp only [pageSize] at h3
  constructor
  all_goals
    simp only [Phdr.length, Phdr.stop, Phdr.start, Phdr.backed, alignUp, alignDown, wadd, pageSize,
      IsAligned]
    omega

/-- A segment has pages with bytes from the file, and these do not snag on what is left of the
reservation. -/
def Fits (base len : ℕ) (taken : ℕ → Prop) (bias : ℕ) (ph : Phdr) : Prop :=
  ph.backed ≠ 0 ∧ ¬ Snags base len taken (wadd bias ph.start) ph.backed

/-- The addresses of a segment. -/
def Phdr.At (ph : Phdr) (bias a : ℕ) : Prop :=
  wadd bias ph.start ≤ a ∧ a < wadd bias ph.start + ph.length

variable {sp₁ : Space} {total : ℕ} {bytes : ℕ → UInt8}

end ElfImage
