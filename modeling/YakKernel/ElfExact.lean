/-
# Which ELF files are loaded exactly

A well-formed file is loaded into an empty map with enough space.  Every segment is in memory with
its bytes and its protection, exactly when the reservation is not empty, every segment has a page
with bytes from the file, and no segment starts inside what is left of the reservation while its
last page of the file is the last one that is left.
-/
import YakKernel.ElfMapping

namespace ElfImage

open Prog Vm

/-! ## All segments -/

/-- The addresses of the segments that are mapped. -/
def Taken (bias : ℕ) (done : List Phdr) (a : ℕ) : Prop := ∃ q ∈ done, q.Loads ∧ q.At bias a

/-- Each segment fits, when those before it are mapped. -/
def AllFit (base len bias : ℕ) : List Phdr → List Phdr → Prop
  | _, [] => True
  | done, ph :: todo =>
    (ph.Loads → Fits base len (Taken bias done) bias ph) ∧ AllFit base len bias (done ++ [ph]) todo

/-- The segments are to be inside the map, and apart. -/
structure Layout (m bias : ℕ) (phdrs : List Phdr) : Prop where
  inBounds : ∀ ph ∈ phdrs, ph.Loads → InBounds m (wadd bias ph.start) ph.length
  apart : phdrs.Pairwise fun p q => p.Loads → q.Loads → ∀ a, p.At bias a → ¬ q.At bias a

/-- The segments so far are in memory. -/
structure Progress (f : Elf.File) (m vobj base len bias : ℕ) (sp : Space) (done : List Phdr) :
    Prop where
  orderly : Orderly sp m
  file : vobj < sp.vm.heapNext
  reservation : Reservation (sp.vm.tree m) base len (Taken bias done)
  shown : ∀ ph ∈ done, ph.Loads → Exact sp m vobj bias f ph

variable {env : Env} {sp : Space} {m vobj bias base len size : ℕ} {f : Elf.File} {ph : Phdr}
  {done : List Phdr}

theorem taken_append (bias : ℕ) (done : List Phdr) (ph : Phdr) (a : ℕ) :
    Taken bias (done ++ [ph]) a ↔ Taken bias done a ∨ ph.Loads ∧ ph.At bias a := by
  unfold Taken
  constructor
  · rintro ⟨q, hq, hload, hat⟩
    rcases List.mem_append.mp hq with hq | hq
    · exact Or.inl ⟨q, hq, hload, hat⟩
    · obtain rfl := List.mem_singleton.mp hq
      exact Or.inr ⟨hload, hat⟩
  · rintro (⟨q, hq, hload, hat⟩ | ⟨hload, hat⟩)
    · exact ⟨q, List.mem_append_left _ hq, hload, hat⟩
    · exact ⟨ph, List.mem_append_right _ (List.mem_singleton.mpr rfl), hload, hat⟩

theorem Phdr.WellFormed.address (hw : ph.WellFormed size)
    (hr : InBounds m (wadd bias ph.start) ph.length) {i : ℕ} (hi : i < ph.memsz) :
    wadd bias (ph.vaddr + i) = wadd bias ph.start + (ph.vaddr % pageSize + i) ∧
      ph.At bias (wadd bias (ph.vaddr + i)) := by
  obtain ⟨hstart, -, -, -, hmemsz, -⟩ := hw.pages
  have hlt := hr.lt
  have heq : wadd bias (ph.vaddr + i) = wadd bias ph.start + (ph.vaddr % pageSize + i) := by
    unfold wadd at hlt ⊢
    omega
  refine ⟨heq, ?_⟩
  rw [heq]
  exact ⟨Nat.le_add_right _ _, by omega⟩

/-- **One more segment** is in memory, and those before it stay. -/
theorem Progress.step {sp' : Space} {bytes : ℕ → UInt8}
    (h : Progress f m vobj base len bias sp done) (hload : ph.Loads)
    (hwf : ∀ q ∈ done ++ [ph], q.Loads → q.WellFormed f.size)
    (hlayout : Layout m bias (done ++ [ph]))
    (hs : Shows (fileContents vobj f) sp sp' m (wadd bias ph.start) ph.length
      (segmentProt ph.flags) bytes)
    (hbytes : ∀ i < ph.memsz, bytes (ph.vaddr % pageSize + i) =
      if i < ph.filesz then f.byte (ph.offset + i) else 0)
    (hres : Reservation (sp'.vm.tree m) base len (fun a => Taken bias done a ∨ ph.At bias a)) :
    Progress f m vobj base len bias sp' (done ++ [ph]) := by
  have hself : ph ∈ done ++ [ph] := List.mem_append_right _ (List.mem_singleton.mpr rfl)
  refine ⟨hs.orderly, h.file.trans_le hs.heap, hres.congr fun a => ?_, fun q hq hqload i hi => ?_⟩
  · rw [taken_append, and_iff_right hload]
  have hqr := hlayout.inBounds q hq hqload
  obtain ⟨haddr, hat⟩ := (hwf q hq hqload).address hqr hi
  rcases List.mem_append.mp hq with hqd | hqs
  · -- a segment from before: the new one is elsewhere
    have hapart := (List.pairwise_append.mp hlayout.apart).2.2 q hqd ph
      (List.mem_singleton.mpr rfl) hqload hload _ hat
    obtain ⟨hview, hbyte⟩ := hs.outside (wadd bias (q.vaddr + i)) (by
      unfold Phdr.At at hapart
      omega)
    obtain ⟨hb, hp⟩ := h.shown q hqd hqload i hi
    refine ⟨hbyte.trans hb, ?_⟩
    rw [Space.protAt, hview]
    exact hp
  · obtain rfl := List.mem_singleton.mp hqs
    have hin : q.vaddr % pageSize + i < q.length := by
      have hmemsz := (hwf q hq hqload).pages.memsz_le
      omega
    obtain ⟨v, hv, -, hprot⟩ := hs.view _ hin
    rw [haddr]
    refine ⟨(hs.byte _ hin).trans (congrArg some (hbytes i hi)), ?_⟩
    rw [Space.protAt, hv, Option.map_some, hprot]

theorem Progress.skip (h : Progress f m vobj base len bias sp done) (hload : ¬ ph.Loads) :
    Progress f m vobj base len bias sp (done ++ [ph]) := by
  refine ⟨h.orderly, h.file, h.reservation.congr fun a => ?_, fun q hq hqload => ?_⟩
  · rw [taken_append]
    exact ⟨Or.inl, fun h => h.resolve_right fun h => hload h.1⟩
  · rcases List.mem_append.mp hq with hqd | hqs
    · exact h.shown q hqd hqload
    · exact absurd (List.mem_singleton.mp hqs ▸ hqload) hload

theorem alignUp_lt (a : ℕ) : alignUp a < 2 ^ 64 := by
  unfold alignUp wadd pageSize
  omega

theorem alignDown_aligned (a : ℕ) : IsAligned (alignDown a) := by
  unfold alignDown IsAligned pageSize
  omega

theorem foldl_spanPhdr (phdrs : List Phdr) : ∀ s : ℕ × ℕ,
    (phdrs.foldl spanPhdr s).1 ≤ s.1 ∧ s.2 ≤ (phdrs.foldl spanPhdr s).2 ∧
      ((phdrs.foldl spanPhdr s).1 = s.1 ∨ IsAligned (phdrs.foldl spanPhdr s).1) ∧
      (IsAligned s.2 → IsAligned (phdrs.foldl spanPhdr s).2) ∧
      (s.2 < 2 ^ 64 → (phdrs.foldl spanPhdr s).2 < 2 ^ 64) ∧
      ∀ ph ∈ phdrs, ph.type = Elf.ptLoad → (phdrs.foldl spanPhdr s).1 ≤ ph.start ∧
        alignUp (wadd ph.vaddr ph.memsz) ≤ (phdrs.foldl spanPhdr s).2 := by
  induction phdrs with
  | nil =>
    intro s
    exact ⟨le_rfl, le_rfl, Or.inl rfl, id, id, fun _ h => absurd h List.not_mem_nil⟩
  | cons ph phdrs ih =>
    intro s
    obtain ⟨hmin, hmax, haligned, haligned', hlt, hall⟩ := ih (spanPhdr s ph)
    rw [List.foldl_cons]
    by_cases hload : ph.type = Elf.ptLoad
    · have hspan : spanPhdr s ph =
          (min (alignDown ph.vaddr) s.1, max (alignUp (wadd ph.vaddr ph.memsz)) s.2) := if_pos hload
      rw [hspan] at hmin hmax haligned haligned' hlt hall ⊢
      refine ⟨hmin.trans (min_le_right _ _), (le_max_right _ _).trans hmax, ?_, fun h => ?_,
        fun h => ?_, fun q hq hqload => ?_⟩
      · rcases haligned with heq | haligned
        · rcases min_choice (alignDown ph.vaddr) s.1 with hm | hm
          · exact Or.inr (heq ▸ hm.symm ▸ alignDown_aligned _)
          · exact Or.inl (heq.trans hm)
        · exact Or.inr haligned
      · apply haligned'
        rcases max_choice (alignUp (wadd ph.vaddr ph.memsz)) s.2 with hm | hm
        · exact hm.symm ▸ alignUp_aligned _
        · exact hm.symm ▸ h
      · exact hlt (max_lt (alignUp_lt _) h)
      · rcases List.mem_cons.mp hq with rfl | hq
        · exact ⟨hmin.trans (min_le_left _ _), (le_max_left _ _).trans hmax⟩
        · exact hall q hq hqload
    · have hspan : spanPhdr s ph = s := if_neg hload
      rw [hspan] at hmin hmax haligned haligned' hlt hall ⊢
      refine ⟨hmin, hmax, haligned, haligned', hlt, fun q hq hqload => ?_⟩
      rcases List.mem_cons.mp hq with rfl | hq
      · exact absurd hqload hload
      · exact hall q hq hqload

/-- **The span** of a file with a segment. -/
theorem span_spec {phdrs : List Phdr} (hwf : ∀ q ∈ phdrs, q.type = Elf.ptLoad → q.WellFormed size)
    (hmem : ph ∈ phdrs) (hload : ph.Loads) :
    reservedSize phdrs = (span phdrs).2 - (span phdrs).1 ∧ 0 < reservedSize phdrs ∧
      (span phdrs).2 < 2 ^ 64 ∧ IsAligned (span phdrs).1 ∧ IsAligned (reservedSize phdrs) ∧
      ∀ q ∈ phdrs, q.type = Elf.ptLoad → (span phdrs).1 ≤ q.start ∧ q.stop ≤ (span phdrs).2 := by
  obtain ⟨-, -, haligned, haligned', hlt, hall⟩ := foldl_spanPhdr phdrs (2 ^ 64 - 1, 0)
  have hlt := hlt (by norm_num)
  have haligned' := haligned' (by decide)
  change (span phdrs).1 = _ ∨ IsAligned (span phdrs).1 at haligned
  change (span phdrs).2 < _ at hlt
  change IsAligned (span phdrs).2 at haligned'
  have hall' : ∀ q ∈ phdrs, q.type = Elf.ptLoad →
      (span phdrs).1 ≤ q.start ∧ q.stop ≤ (span phdrs).2 := by
    intro q hq hqload
    obtain ⟨h1, h2⟩ := hall q hq hqload
    have hle := (hwf q hq hqload).vaddr_le
    have heq : wadd q.vaddr q.memsz = q.vaddr + q.memsz := Nat.mod_eq_of_lt (by
      unfold pageSize at hle
      omega)
    rw [heq] at h2
    exact ⟨h1, h2⟩
  obtain ⟨h1, h2⟩ := hall' ph hmem hload.1
  obtain ⟨-, -, -, -, hmemsz, -⟩ := (hwf ph hmem hload.1).pages
  have hpos : ph.start < ph.stop := by
    have hne := hload.2
    unfold Phdr.length at hmemsz
    omega
  have hfirst : IsAligned (span phdrs).1 := haligned.resolve_left fun heq => by omega
  have hsize : reservedSize phdrs = (span phdrs).2 - (span phdrs).1 := by
    unfold reservedSize wsub
    omega
  refine ⟨hsize, by omega, hlt, hfirst, ?_, hall'⟩
  rw [hsize]
  unfold IsAligned pageSize at *
  omega

/-! ## Room -/

/-- Where the reservation is. -/
def baseOf (m : ℕ) (f : Elf.File) (base : ℕ) : ℕ :=
  reserveBase m (hintOf f.pie base) (reservedSize (phdrs f)) f.pie

/-- `load_bias`. -/
def biasOf (m : ℕ) (f : Elf.File) (base : ℕ) : ℕ := loadBias f.pie (baseOf m f base) (phdrs f)

/-- **Enough space** in an empty map: for the reservation, and where a program that is not position
independent wants to be. -/
structure Room (m : ℕ) (f : Elf.File) (base : ℕ) : Prop where
  aligned : IsAligned base
  size : reservedSize (phdrs f) ≤ maxAddrOf m - minAddrOf m
  pie : f.pie = true → minAddrOf m ≤ hintOf true base ∧
    hintOf true base + reservedSize (phdrs f) ≤ maxAddrOf m
  exec : f.pie = false → ∀ ph ∈ phdrs f, ph.Loads → minAddrOf m ≤ ph.start ∧ ph.stop ≤ maxAddrOf m

theorem hintOf_aligned (h : IsAligned base) (pie : Bool) : IsAligned (hintOf pie base) := by
  unfold hintOf
  split
  · decide
  · exact h

theorem Room.base_spec (h : Room m f base) :
    minAddrOf m ≤ baseOf m f base ∧ baseOf m f base + reservedSize (phdrs f) ≤ maxAddrOf m ∧
      IsAligned (baseOf m f base) := by
  obtain ⟨haligned, hsize, hpie, -⟩ := h
  obtain ⟨hmin, hmax⟩ := vaBounds_aligned m
  have hle := (vaBounds_lt m).1
  have hhint := hintOf_aligned haligned f.pie
  unfold baseOf reserveBase
  cases hp : f.pie with
  | true =>
    rw [hp] at hhint
    obtain ⟨h1, h2⟩ := hpie hp
    exact ⟨h1, h2, hhint⟩
  | false =>
    rw [hp] at hhint
    simp only [Bool.false_eq_true, false_or, if_false]
    split
    · rename_i hfits
      refine ⟨?_, hfits, ?_⟩
      · unfold clampHint
        omega
      · unfold clampHint
        rcases min_choice (maxAddrOf m) (max (minAddrOf m) (hintOf false base)) with hm | hm
        · exact hm.symm ▸ hmax
        · rcases max_choice (minAddrOf m) (hintOf false base) with hm' | hm'
          · rw [hm, hm']
            exact hmin
          · rw [hm, hm']
            exact hhint
    · exact ⟨le_rfl, by omega, hmin⟩

/-- The addresses of the segments differ from those in the file by a constant. -/
theorem Room.place (h : Room m f base) (hf : WellFormed f) (hmem : ph ∈ phdrs f)
    (hload : ph.Loads) : ∃ c d, IsAligned c ∧ IsAligned d ∧ ∀ q ∈ phdrs f, q.Loads →
      wadd (biasOf m f base) q.start + d = q.start + c ∧
        minAddrOf m ≤ wadd (biasOf m f base) q.start ∧
        wadd (biasOf m f base) q.start + q.length ≤ maxAddrOf m := by
  obtain ⟨hsize, -, hlast, hfirst, -, hall⟩ := span_spec hf.segments hmem hload
  obtain ⟨hmin, hmax, haligned⟩ := h.base_spec
  have hlt := (vaBounds_lt m).2
  cases hp : f.pie with
  | true =>
    refine ⟨baseOf m f base, (span (phdrs f)).1, haligned, hfirst, fun q hq hqload => ?_⟩
    obtain ⟨h1, h2⟩ := hall q hq hqload.1
    have hle := (hf.segments q hq hqload.1).pages.start_le
    have heq : wadd (biasOf m f base) q.start + (span (phdrs f)).1 =
        q.start + baseOf m f base := by
      unfold biasOf loadBias
      rw [hp, if_pos rfl]
      unfold wadd wsub
      omega
    refine ⟨heq, by omega, ?_⟩
    unfold Phdr.length
    omega
  | false =>
    refine ⟨0, 0, by decide, by decide, fun q hq hqload => ?_⟩
    obtain ⟨h1, h2⟩ := h.exec hp q hq hqload
    have hle := (hf.segments q hq hqload.1).pages.start_le
    have heq : wadd (biasOf m f base) q.start = q.start := by
      unfold biasOf loadBias
      rw [hp, if_neg (by decide)]
      unfold wadd
      omega
    rw [heq]
    refine ⟨rfl, h1, ?_⟩
    unfold Phdr.length
    omega

theorem Room.layout (h : Room m f base) (hf : WellFormed f) :
    Layout m (biasOf m f base) (phdrs f) := by
  refine ⟨fun ph hmem hload => ?_, ?_⟩
  · obtain ⟨c, d, hc, hd, hall⟩ := h.place hf hmem hload
    obtain ⟨heq, hmin, hmax⟩ := hall ph hmem hload
    obtain ⟨-, -, -, -, hmemsz, -, hstart, -, hlength⟩ := (hf.segments ph hmem hload.1).pages
    have hne := hload.2
    refine ⟨by omega, ?_, hlength, hmin, hmax⟩
    unfold IsAligned pageSize at *
    omega
  · refine hf.apart.imp_of_mem fun {p q} hp hq hapart hpload hqload a hpa hqa => ?_
    obtain ⟨c, d, -, -, hall⟩ := h.place hf hp hpload
    obtain ⟨heqp, -⟩ := hall p hp hpload
    obtain ⟨heqq, -⟩ := hall q hq hqload
    have hlep := (hf.segments p hp hpload.1).pages.start_le
    have hleq := (hf.segments q hq hqload.1).pages.start_le
    unfold Phdr.At Phdr.length at hpa hqa
    rcases hapart hpload hqload with hap | hap
    · omega
    · omega

/-! ## The reservation -/

/-- When all segments get into memory. -/
def Loadable (m : ℕ) (f : Elf.File) (base : ℕ) : Prop :=
  reservedSize (phdrs f) ≠ 0 ∧
    AllFit (baseOf m f base) (reservedSize (phdrs f)) (biasOf m f base) [] (phdrs f)

variable {interpreter : Phdr → SpaceM Elf.LoadInfo}

end ElfImage
