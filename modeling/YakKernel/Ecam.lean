/-
# PCI configuration space in memory

`pci_ecam_addspace` (`io/pci/pci_ecam.c`) maps the registers of a range of buses, and
`pci_ecam_read` and `pci_ecam_write` compute the address of one of them.  The lookup takes the
range with its last bus, the size of the mapping leaves that bus out.
-/
import YakKernel.VmMmio

open Prog Vm

namespace Ecam

/-! ## The code -/

/-- `MCFG_MAPPING_SIZE`. -/
def mcfgMappingSize (buscount : ℕ) : ℕ := 4096 * 8 * 32 * buscount

/-- `struct ecam_space`. -/
structure Space where
  segment : UInt32
  startBus : UInt32
  endBus : UInt32
  address : ℕ

/-- `ecam_bus`. -/
def ecamBus (ecamEntries : List Space) (segment bus : UInt32) : Option Space :=
  ecamEntries.find? fun e => e.segment = segment ∧ e.startBus ≤ bus ∧ bus ≤ e.endBus

/-- The address that `pci_ecam_read` and `pci_ecam_write` compute. -/
def Space.registerAddress (e : Space) (bus slot function offset : UInt32) : ℕ :=
  wadd e.address
    (((bus - e.startBus) <<< 20 ||| slot <<< 15 ||| function <<< 12) ||| (offset &&& ~~~3)).toNat

/-- `pci_ecam_read`; `memory` is what stands at the addresses. -/
def pciEcamRead (memory : ℕ → UInt32) (ecamEntries : List Space)
    (segment bus slot function offset : UInt32) : UInt32 :=
  (ecamBus ecamEntries segment bus).elim 0xFFFFFFFF fun entry =>
    memory (entry.registerAddress bus slot function offset)

/-- `pci_ecam_write`. -/
def pciEcamWrite (memory : ℕ → UInt32) (ecamEntries : List Space)
    (segment bus slot function offset value : UInt32) : ℕ → UInt32 :=
  (ecamBus ecamEntries segment bus).elim memory fun entry =>
    Function.update memory (entry.registerAddress bus slot function offset) value

/-- The virtual memory layer, and `ecam_entries`. -/
structure State where
  vm : Vm
  ecamEntries : List Space

/-- Programs that add spaces. -/
abbrev EcamM := Prog Env Failure State

/-- A program of the virtual memory layer. -/
def onVm {α : Type} (x : VmM α) : EcamM α := fun env s =>
  (x env s.vm).map fun r => (r.1, { s with vm := r.2 })

/-- The arguments of `pci_ecam_addspace`. -/
structure Allocation where
  segment : UInt32
  startBus : UInt32
  endBus : UInt32
  address : ℕ

/-- `pci_ecam_addspace`, with `VM_RW` and `VM_CACHE_DISABLE`. -/
def pciEcamAddspace (a : Allocation) : EcamM Unit := do
  let mapsz := mcfgMappingSize (a.endBus - a.startBus).toNat
  let r ← onVm (vmMapMmio kmap a.address mapsz ⟨true, true, false, false, false⟩ 0)
  check (r.1 = .success) .panic
  change fun s => { s with
    ecamEntries := s.ecamEntries ++ [⟨a.segment, a.startBus, a.endBus, r.2.getD 0⟩] }

/-! ## Registers -/

/-- A register of one bus. -/
structure Register where
  slot : UInt32
  function : UInt32
  offset : UInt32
  slot_lt : slot < 32
  function_lt : function < 8
  offset_lt : offset < 4096

/-- The address of the register. -/
def Space.at (e : Space) (bus : UInt32) (r : Register) : ℕ :=
  e.registerAddress bus r.slot r.function r.offset

/-- The mapping in which a space lies. -/
def Space.Window (s : State) (e : Space) (w : MapEntry) : Prop :=
  w ∈ s.vm.tree kmap ∧ w.type = .mmio ∧ w.base ≤ e.address ∧ e.address < w.endAddr

/-- The registers of a bus lie in the mapping of its space. -/
def Inside (s : State) (e : Space) (bus : UInt32) : Prop :=
  ∀ r, ∃ w, e.Window s w ∧ w.base ≤ e.at bus r ∧ e.at bus r + 4 ≤ w.endAddr

/-- The tuples of two registers are the same. -/
def SameRegister (r r' : Register) : Prop :=
  r.slot = r'.slot ∧ r.function = r'.function ∧ r.offset / 4 = r'.offset / 4

/-- **What is asked of two buses**: their registers lie in the mappings of their spaces, and
different registers have different addresses. -/
def Addressed (s : State) (e e' : Space) (bus bus' : UInt32) : Prop :=
  Inside s e bus ∧ Inside s e' bus' ∧
    ∀ r r', e.at bus r = e'.at bus' r' →
      e.segment = e'.segment ∧ bus = bus' ∧ SameRegister r r'

/-- The bus, as the twelve bits of the address have it. -/
def Space.relativeBus (e : Space) (bus : UInt32) : ℕ := (bus - e.startBus).toNat % 4096

/-- The number of buses that are mapped. -/
def Space.mapped (e : Space) : ℕ := (e.endBus - e.startBus).toNat

/-- The position of the register in the registers of its bus. -/
def Register.position (r : Register) : ℕ :=
  r.slot.toNat * 2 ^ 15 + r.function.toNat * 2 ^ 12 + r.offset.toNat / 4 * 4

variable {e e' : Space} {bus bus' : UInt32} {r r' : Register} {s s' : State} {env : Env}

theorem Register.position_le (r : Register) : r.position + 4 ≤ 2 ^ 20 := by
  have h1 := UInt32.lt_iff_toNat_lt.mp r.slot_lt
  have h2 := UInt32.lt_iff_toNat_lt.mp r.function_lt
  have h3 := UInt32.lt_iff_toNat_lt.mp r.offset_lt
  simp only [UInt32.reduceToNat] at h1 h2 h3
  unfold position
  omega

theorem position_eq_iff : r.position = r'.position ↔ SameRegister r r' := by
  have h1 := UInt32.lt_iff_toNat_lt.mp r.slot_lt
  have h2 := UInt32.lt_iff_toNat_lt.mp r.function_lt
  have h3 := UInt32.lt_iff_toNat_lt.mp r.offset_lt
  have h1' := UInt32.lt_iff_toNat_lt.mp r'.slot_lt
  have h2' := UInt32.lt_iff_toNat_lt.mp r'.function_lt
  have h3' := UInt32.lt_iff_toNat_lt.mp r'.offset_lt
  simp only [UInt32.reduceToNat] at h1 h2 h3 h1' h2' h3'
  unfold SameRegister Register.position
  rw [← UInt32.toNat_inj, ← UInt32.toNat_inj, ← UInt32.toNat_inj, UInt32.toNat_div,
    UInt32.toNat_div]
  simp only [UInt32.reduceToNat]
  omega

theorem and_not_three (n : UInt32) : (n &&& ~~~3).toNat = n.toNat / 4 * 4 := by
  have hshift : n.toNat / 4 * 4 = (n.toNat >>> 2) <<< 2 := by
    rw [Nat.shiftLeft_eq, Nat.shiftRight_eq_div_pow]
  have hmask : (~~~(3 : UInt32)).toNat = (2 ^ 30 - 1) <<< 2 := rfl
  rw [UInt32.toNat_and, hmask, hshift]
  refine Nat.eq_of_testBit_eq fun i => ?_
  rw [Nat.testBit_and, Nat.testBit_shiftLeft, Nat.testBit_shiftLeft, Nat.testBit_two_pow_sub_one,
    Nat.testBit_shiftRight]
  by_cases hi : 2 ≤ i
  · rw [show 2 + (i - 2) = i by omega]
    by_cases hlt : i - 2 < 30
    · simp [hi, hlt]
    · have hzero : n.toNat.testBit i = false := by
        refine Nat.testBit_lt_two_pow (lt_of_lt_of_le n.toNat_lt ?_)
        exact Nat.pow_le_pow_right (by decide) (by omega)
      simp [hi, hzero]
  · simp [hi]

theorem field_toNat {n k : UInt32} (hk : k < 32) (h : n.toNat * 2 ^ k.toNat < 2 ^ 32) :
    (n <<< k).toNat = n.toNat <<< k.toNat := by
  have hlt : k.toNat < 32 := UInt32.lt_iff_toNat_lt.mp hk
  rw [UInt32.toNat_shiftLeft, Nat.mod_eq_of_lt hlt, Nat.shiftLeft_eq, Nat.mod_eq_of_lt h]

theorem fields_toNat (b : UInt32) (r : Register) :
    ((b <<< 20 ||| r.slot <<< 15 ||| r.function <<< 12) ||| (r.offset &&& ~~~3)).toNat
      = b.toNat % 4096 * 2 ^ 20 + r.position := by
  have h1 := UInt32.lt_iff_toNat_lt.mp r.slot_lt
  have h2 := UInt32.lt_iff_toNat_lt.mp r.function_lt
  have h3 := UInt32.lt_iff_toNat_lt.mp r.offset_lt
  simp only [UInt32.reduceToNat] at h1 h2 h3
  have hbus : (b <<< 20).toNat = (b.toNat % 4096) <<< 20 := by
    rw [UInt32.toNat_shiftLeft, Nat.shiftLeft_eq, Nat.shiftLeft_eq]
    simp only [UInt32.reduceToNat, Nat.reduceMod, Nat.reducePow]
    omega
  have hslot : (r.slot <<< 15).toNat = r.slot.toNat <<< 15 := by
    refine field_toNat (by decide) ?_
    simp only [UInt32.reduceToNat]
    omega
  have hfunction : (r.function <<< 12).toNat = r.function.toNat <<< 12 := by
    refine field_toNat (by decide) ?_
    simp only [UInt32.reduceToNat]
    omega
  have hlow : r.offset.toNat / 4 * 4 < 2 ^ 12 := by omega
  have hmiddle : r.function.toNat <<< 12 + r.offset.toNat / 4 * 4 < 2 ^ 15 := by
    rw [Nat.shiftLeft_eq]
    omega
  have hhigh : r.slot.toNat <<< 15 + (r.function.toNat <<< 12 + r.offset.toNat / 4 * 4)
      < 2 ^ 20 := by
    rw [Nat.shiftLeft_eq]
    omega
  rw [UInt32.toNat_or, UInt32.toNat_or, UInt32.toNat_or, and_not_three, hbus, hslot, hfunction,
    Nat.or_assoc, Nat.or_assoc, ← Nat.shiftLeft_add_eq_or_of_lt hlow,
    ← Nat.shiftLeft_add_eq_or_of_lt hmiddle, ← Nat.shiftLeft_add_eq_or_of_lt hhigh]
  simp only [Nat.shiftLeft_eq, Register.position]
  omega

theorem at_eq (hmax : e.address + 2 ^ 32 < 2 ^ 64) :
    e.at bus r = e.address + e.relativeBus bus * 2 ^ 20 + r.position := by
  have hlt : e.relativeBus bus < 4096 := Nat.mod_lt _ (by decide)
  have hpos := r.position_le
  have hfields : (((bus - e.startBus) <<< 20 ||| r.slot <<< 15 ||| r.function <<< 12) |||
      (r.offset &&& ~~~3)).toNat = e.relativeBus bus * 2 ^ 20 + r.position :=
    fields_toNat (bus - e.startBus) r
  rw [Space.at, Space.registerAddress, hfields, wadd, Nat.mod_eq_of_lt (by omega), Nat.add_assoc]

/-! ## The mappings of the spaces -/

theorem ends_onVm {α : Type} {x : VmM α} {Q : α → State → Prop} {R : Failure → Prop} :
    (onVm x).Ends env s Q R ↔
      x.Ends env s.vm (fun r vm => Q r { s with vm := vm }) R := by
  unfold Ends onVm
  cases x env s.vm with
  | ok r => exact Iff.rfl
  | error e => exact Iff.rfl

/-- `w` is the mapping of the space, and `pa` is what it maps. -/
structure Mapping (s : State) (e : Space) (w : MapEntry) (pa : ℕ) : Prop where
  mem : w ∈ s.vm.tree kmap
  type : w.type = .mmio
  aligned : IsAligned w.base
  address : e.address = w.base + pageOffset pa
  pos : 0 < mmioLength pa (mcfgMappingSize e.mapped)
  endAddr : w.endAddr = w.base + mmioLength pa (mcfgMappingSize e.mapped)

/-- **What adding spaces keeps**: each has a mapping, and no two have the same one. -/
structure Mapped (s : State) : Prop where
  ready : MapReady s.vm kmap
  mapping : ∀ e ∈ s.ecamEntries, ∃ w pa, Mapping s e w pa
  apart : s.ecamEntries.Pairwise fun e e' => alignDown e.address ≠ alignDown e'.address

variable {w w' : MapEntry} {pa pa' : ℕ}

theorem pageOffset_lt (pa : ℕ) : pageOffset pa < 4096 := by
  unfold pageOffset alignDown
  simp only [pageSize]
  omega

theorem Mapping.base (h : Mapping s e w pa) : alignDown e.address = w.base := by
  rw [h.address, alignDown_out h.aligned]

theorem Mapping.le_endAddr (h : Mapping s e w pa) :
    e.address + 2 ^ 20 * e.mapped ≤ w.endAddr ∧
      w.endAddr < e.address + 2 ^ 20 * e.mapped + 4096 := by
  have haddress := h.address
  have hend := h.endAddr
  have hoff := pageOffset_lt pa
  have hmapped : e.mapped < 2 ^ 32 := UInt32.toNat_lt _
  have hadd : wadd (pageOffset pa) (mcfgMappingSize e.mapped)
      = pageOffset pa + 2 ^ 20 * e.mapped := by
    rw [wadd, mcfgMappingSize, Nat.mod_eq_of_lt (by omega)]
    omega
  rw [mmioLength, hadd] at hend
  unfold alignUp wadd at hend
  simp only [pageSize] at hend
  omega

theorem Mapping.window (h : Mapping s e w pa) : e.Window s w := by
  have haddress := h.address
  have hend := h.endAddr
  have hpos := h.pos
  have hoff := pageOffset_lt pa
  have haligned : mmioLength pa (mcfgMappingSize e.mapped) % 4096 = 0 := alignUp_aligned _
  exact ⟨h.mem, h.type, by omega, by omega⟩

theorem Mapped.window_unique (hm : Mapped s) (h : e.Window s w) (h' : e.Window s w') :
    w = w' := by
  by_contra hne
  obtain ⟨hw, -, h1, h2⟩ := h
  obtain ⟨hw', -, h3, h4⟩ := h'
  rcases hm.ready.wf.apart w hw w' hw' hne with h5 | h5
  · omega
  · omega

theorem Mapped.address_lt (hm : Mapped s) (h : Mapping s e w pa) :
    e.address + 2 ^ 32 < 2 ^ 64 := by
  obtain ⟨-, -, -, hlt⟩ := h.window
  have hmax := (hm.ready.bounds w h.mem).2
  have hbound : maxAddrOf kmap + 2 ^ 32 < 2 ^ 64 := by decide
  omega

/-- **The registers of a bus lie in the mapping** exactly if the bus, as the address has it, is
one of those that are mapped. -/
theorem Mapped.inside_iff (hm : Mapped s) (he : e ∈ s.ecamEntries) :
    Inside s e bus ↔ e.relativeBus bus < e.mapped := by
  obtain ⟨w, pa, h⟩ := hm.mapping e he
  obtain ⟨hle, hlt⟩ := h.le_endAddr
  have hat : ∀ r, e.at bus r = e.address + e.relativeBus bus * 2 ^ 20 + r.position :=
    fun _ => at_eq (hm.address_lt h)
  constructor
  · intro hin
    obtain ⟨w', hw', -, hend⟩ := hin ⟨1, 0, 0, by decide, by decide, by decide⟩
    obtain rfl := hm.window_unique h.window hw'
    rw [hat] at hend
    have hposition : Register.position ⟨1, 0, 0, by decide, by decide, by decide⟩ = 2 ^ 15 := rfl
    rw [hposition] at hend
    omega
  · intro hrel r
    have hposition := r.position_le
    have hbase := h.window.2.2.1
    refine ⟨w, h.window, ?_, ?_⟩
    · rw [hat]
      omega
    · rw [hat]
      omega

theorem Mapped.eq_of_base (hm : Mapped s) (he : e ∈ s.ecamEntries) (he' : e' ∈ s.ecamEntries)
    (h : alignDown e.address = alignDown e'.address) : e = e' := by
  by_contra hne
  have hsymm : Std.Symm fun e e' : Space => alignDown e.address ≠ alignDown e'.address :=
    ⟨fun _ _ hxy => hxy.symm⟩
  exact hm.apart.forall he he' hne h

/-- Two registers in the mappings of different spaces have different addresses. -/
theorem Mapped.eq_of_at (hm : Mapped s) (he : e ∈ s.ecamEntries) (he' : e' ∈ s.ecamEntries)
    (hin : Inside s e bus) (hin' : Inside s e' bus') (h : e.at bus r = e'.at bus' r') :
    e = e' := by
  obtain ⟨w, hw, h1, h2⟩ := hin r
  obtain ⟨w', hw', h3, h4⟩ := hin' r'
  have hsame : w = w' := by
    by_contra hne
    rcases hm.ready.wf.apart w hw.1 w' hw'.1 hne with h5 | h5
    · omega
    · omega
  obtain ⟨x, pa, hx⟩ := hm.mapping e he
  obtain ⟨x', pa', hx'⟩ := hm.mapping e' he'
  refine hm.eq_of_base he he' ?_
  rw [hx.base, hx'.base, hm.window_unique hx.window hw, hm.window_unique hx'.window hw', hsame]

/-- In one space the address says which bus it is, up to 4096, and which register. -/
theorem at_eq_iff (hmax : e.address + 2 ^ 32 < 2 ^ 64) :
    e.at bus r = e.at bus' r' ↔
      e.relativeBus bus = e.relativeBus bus' ∧ r.position = r'.position := by
  have h1 := r.position_le
  have h2 := r'.position_le
  rw [at_eq hmax, at_eq hmax]
  omega

theorem segment_of_ecamBus {l : List Space} {segment : UInt32}
    (h : ecamBus l segment bus = some e) : e ∈ l ∧ e.segment = segment := by
  have hfound := List.find?_some h
  simp only [decide_eq_true_eq] at hfound
  exact ⟨List.mem_of_find?_eq_some h, hfound.1⟩

theorem Mapped.reaches_iff (hm : Mapped s) (he : e ∈ s.ecamEntries)
    (he' : e' ∈ s.ecamEntries) :
    Addressed s e e' bus bus' ↔
      e.relativeBus bus < e.mapped ∧ e'.relativeBus bus' < e'.mapped ∧
        (e = e' → e.relativeBus bus = e.relativeBus bus' → bus = bus') := by
  unfold Addressed
  rw [hm.inside_iff he, hm.inside_iff he']
  refine and_congr_right fun hin => and_congr_right fun hin' => ?_
  obtain ⟨w, pa, hw⟩ := hm.mapping e he
  constructor
  · rintro hdistinct rfl hrel
    let r : Register := ⟨0, 0, 0, by decide, by decide, by decide⟩
    exact (hdistinct r r ((at_eq_iff (hm.address_lt hw)).mpr ⟨hrel, rfl⟩)).2.1
  · intro hbuses r r' hat
    obtain rfl := hm.eq_of_at he he' ((hm.inside_iff he).mpr hin)
      ((hm.inside_iff he').mpr hin') hat
    obtain ⟨hrel, hposition⟩ := (at_eq_iff (hm.address_lt hw)).mp hat
    exact ⟨rfl, hbuses rfl hrel, position_eq_iff.mp hposition⟩

/-! ## Adding spaces -/

/-- **Adding a space.** -/
theorem pciEcamAddspace_spec (hq : env.Undisturbed) (hm : Mapped s) (a : Allocation) :
    (pciEcamAddspace a).Ends env s (fun _ s' => Mapped s') (fun _ => True) := by
  simp only [pciEcamAddspace, ends_bind, ends_onVm, ends_check, ends_change]
  refine (vmMapMmio_spec hq hm.ready).mono ?_ (fun _ _ => trivial)
  rintro ⟨rv, out⟩ vm h
  refine ⟨fun hok => ?_, fun _ => trivial⟩
  obtain ⟨w, address, rfl, hw⟩ := h hok
  have hmem : ∀ x ∈ s.vm.tree kmap, x ∈ vm.tree kmap := fun x hx => (hw.mem x).mpr (Or.inr hx)
  refine ⟨hw.ready hm.ready, fun e he => ?_, ?_⟩
  · rcases List.mem_append.mp he with hold | hnew
    · obtain ⟨x, pa, hx⟩ := hm.mapping e hold
      exact ⟨x, pa, { hx with mem := hmem x hx.mem }⟩
    · obtain rfl := List.mem_singleton.mp hnew
      exact ⟨w, a.address, (hw.mem w).mpr (Or.inl rfl), hw.type, hw.aligned, hw.out_eq, hw.pos,
        hw.endAddr⟩
  · refine List.pairwise_append.mpr ⟨hm.apart, List.pairwise_singleton _ _, fun e he x hx => ?_⟩
    obtain rfl := List.mem_singleton.mp hx
    obtain ⟨y, pa, hy⟩ := hm.mapping e he
    -- the new mapping lies beside the old ones
    show alignDown e.address ≠ alignDown address
    rw [hy.base, hw.out_eq, alignDown_out hw.aligned]
    have hlt := (hm.ready.wf.sound y hy.mem).lt
    have hpos := hw.pos
    rcases hw.fits.free y hy.mem with h1 | h1
    · omega
    · omega

theorem forEach_mapped (hq : env.Undisturbed) (hr : MapReady s.vm kmap)
    (hnew : s.ecamEntries = []) (l : List Allocation) :
    (forEach pciEcamAddspace l).Ends env s (fun _ s' => Mapped s') (fun _ => True) := by
  refine Ends.forEach l ⟨hr, ?_, ?_⟩ (fun a _ _ h => pciEcamAddspace_spec hq h a)
  · rw [hnew]
    exact fun e he => absurd he List.not_mem_nil
  · rw [hnew]
    exact List.Pairwise.nil

/-- **The registers of two buses are told apart, inside the mappings**, exactly if neither is a bus
that the size of the mapping leaves out, and they are not two buses of one space that differ by a
multiple of 4096. -/
theorem addressed_iff (hq : env.Undisturbed) (hr : MapReady s.vm kmap)
    (hnew : s.ecamEntries = []) {l : List Allocation}
    (hrun : forEach pciEcamAddspace l env s = .ok ((), s')) {segment segment' : UInt32}
    (he : ecamBus s'.ecamEntries segment bus = some e)
    (he' : ecamBus s'.ecamEntries segment' bus' = some e') :
    Addressed s' e e' bus bus' ↔
      e.relativeBus bus < e.mapped ∧ e'.relativeBus bus' < e'.mapped ∧
        (e = e' → e.relativeBus bus = e.relativeBus bus' → bus = bus') :=
  ((forEach_mapped hq hr hnew l).of_ok hrun).reaches_iff (segment_of_ecamBus he).1
    (segment_of_ecamBus he').1

theorem exists_first {l : List Space} (h : e ∈ l) (hbus : ¬ e.endBus < e.startBus) :
    ∃ x ∈ l, x.startBus ≤ x.endBus ∧
      ∀ bus, x.startBus ≤ bus → bus ≤ x.endBus → ecamBus l x.segment bus = some x := by
  have hsome : (l.find? fun x => x.startBus ≤ x.endBus).isSome := by
    rw [List.find?_isSome]
    exact ⟨e, h, decide_eq_true (UInt32.not_lt.mp hbus)⟩
  obtain ⟨x, hx⟩ := Option.isSome_iff_exists.mp hsome
  obtain ⟨hrange, as, bs, hl, has⟩ := List.find?_eq_some_iff_append.mp hx
  refine ⟨x, List.mem_of_find?_eq_some hx, of_decide_eq_true hrange, fun bus h1 h2 => ?_⟩
  rw [ecamBus, List.find?_eq_some_iff_append]
  refine ⟨decide_eq_true ⟨rfl, h1, h2⟩, as, bs, hl, fun y hy => ?_⟩
  have hempty := has y hy
  simp only [Bool.not_eq_eq_eq_not, Bool.not_true, decide_eq_false_iff_not] at hempty ⊢
  rintro ⟨-, h3, h4⟩
  exact hempty (UInt32.le_trans h3 h4)

/-- **Whoever has a bus has one too many**: all buses are told apart, inside the mappings, only if
there are none. -/
theorem Mapped.all_addressed_iff (hm : Mapped s) :
    (∀ segment segment' bus bus' e e', ecamBus s.ecamEntries segment bus = some e →
        ecamBus s.ecamEntries segment' bus' = some e' → Addressed s e e' bus bus') ↔
      ∀ e ∈ s.ecamEntries, e.endBus < e.startBus := by
  constructor
  · intro hall e he
    by_contra hbus
    obtain ⟨x, hx, hle, hfound⟩ := exists_first he hbus
    have hle' := UInt32.le_iff_toNat_le.mp hle
    have hlt : x.endBus.toNat < 2 ^ 32 := x.endBus.toNat_lt
    -- the last bus is the number of mapped buses away from the first
    have hlast := (hm.reaches_iff hx hx).mp
      (hall _ _ _ _ _ _ (hfound x.endBus hle (UInt32.le_refl _))
        (hfound x.endBus hle (UInt32.le_refl _)))
    have hbig : 4096 ≤ x.mapped := by
      by_contra hsmall
      have hrel : x.relativeBus x.endBus = x.mapped := Nat.mod_eq_of_lt (Nat.lt_of_not_le hsmall)
      exact absurd hlast.1 (by omega)
    rw [Space.mapped, UInt32.toNat_sub_of_le _ _ hle] at hbig
    -- in a space of more than 4096 buses, two buses share their registers
    have hadd : (x.startBus + 4096).toNat = x.startBus.toNat + 4096 := by
      rw [UInt32.toNat_add]
      exact Nat.mod_eq_of_lt (by simp only [UInt32.reduceToNat]; omega)
    have hsame := (hm.reaches_iff hx hx).mp
      (hall _ _ _ _ _ _ (hfound x.startBus (UInt32.le_refl _) hle) (hfound (x.startBus + 4096)
        (UInt32.le_iff_toNat_le.mpr (by omega)) (UInt32.le_iff_toNat_le.mpr (by omega))))
    have hrel : x.relativeBus x.startBus = x.relativeBus (x.startBus + 4096) := by
      have hsub : (x.startBus + 4096 - x.startBus).toNat = 4096 := by
        rw [UInt32.toNat_sub_of_le _ _ (UInt32.le_iff_toNat_le.mpr (by omega)), hadd]
        omega
      rw [Space.relativeBus, Space.relativeBus, hsub, UInt32.sub_self]
      rfl
    have heq := congrArg UInt32.toNat (hsame.2.2 rfl hrel)
    omega
  · intro hnone segment segment' bus bus' e e' he _
    have hfound := List.find?_some he
    simp only [decide_eq_true_eq] at hfound
    have hempty := hnone e (segment_of_ecamBus he).1
    exact absurd (UInt32.le_trans hfound.2.1 hfound.2.2) (UInt32.not_le.mpr hempty)

theorem forEach_two :
    ∃ s', forEach pciEcamAddspace [⟨0, 0, 1, 0xe0000000⟩] (Env.alone (fun _ => none))
        ⟨empty, []⟩ = .ok ((), s') ∧ s'.ecamEntries = [⟨0, 0, 1, 0xffffffe800000000⟩] :=
  ⟨_, rfl, rfl⟩

/-- Its first bus is mapped. -/
theorem addressed_first :
    ∃ s' e, forEach pciEcamAddspace [⟨0, 0, 1, 0xe0000000⟩] (Env.alone (fun _ => none))
        ⟨empty, []⟩ = .ok ((), s') ∧
      ecamBus s'.ecamEntries 0 0 = some e ∧ Addressed s' e e 0 0 := by
  obtain ⟨s', hrun, hentries⟩ := forEach_two
  have he : ecamBus s'.ecamEntries 0 0 = some ⟨0, 0, 1, 0xffffffe800000000⟩ := by
    rw [hentries]
    rfl
  exact ⟨s', _, hrun, he, (addressed_iff (fun _ _ => rfl) (empty_mapReady kmap) rfl hrun he he).mpr
    ⟨by decide, by decide, fun _ _ => rfl⟩⟩

/-- **Its second bus** lies behind the mapping. -/
theorem not_addressed_last :
    ∃ s' e, forEach pciEcamAddspace [⟨0, 0, 1, 0xe0000000⟩] (Env.alone (fun _ => none))
        ⟨empty, []⟩ = .ok ((), s') ∧
      ecamBus s'.ecamEntries 0 1 = some e ∧ ¬ Addressed s' e e 1 1 := by
  obtain ⟨s', hrun, hentries⟩ := forEach_two
  have he : ecamBus s'.ecamEntries 0 1 = some ⟨0, 0, 1, 0xffffffe800000000⟩ := by
    rw [hentries]
    rfl
  have hm : Mapped s' := (forEach_mapped (fun _ _ => rfl) (empty_mapReady kmap) rfl _).of_ok hrun
  have hmem := (segment_of_ecamBus he).1
  refine ⟨s', _, hrun, he, fun h => ?_⟩
  exact absurd ((hm.reaches_iff hmem hmem).mp h).1 (by decide)

end Ecam
