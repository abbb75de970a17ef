/-
# Faults on an MMIO mapping

The entry that `vm_handle_fault` installs for a page of a mapping made by `vm_map_mmio`, as the
word that `pte_make` gives: which frame it shows, and with which flags.
-/
import YakKernel.VmMmio
import YakKernel.PmapEntry

namespace Vm

open Prog

/-! ## Entries as words -/

/-- The bits of a `vm_prot_t`. -/
def Prot.bits (prot : Prot) : Pmap.VmProt :=
  (if prot.read then Pmap.vmRead else 0) ||| (if prot.write then Pmap.vmWrite else 0) |||
    (if prot.execute then Pmap.vmExecute else 0) ||| (if prot.user then Pmap.vmUser else 0) |||
    (if prot.global then Pmap.vmGlobal else 0)

/-- The word that `pmap_map` stores for an entry. -/
def Pte.bits (pte : Pte) : Pmap.Pte :=
  Pmap.pteMake 0 (BitVec.ofNat 64 pte.pa) pte.prot.bits (BitVec.ofNat 32 pte.cache)

/-- The flags that `pte_make` gives for a protection and a cache mode. -/
def flagBits (prot : Prot) (cache : ℕ) : Pmap.Pte :=
  Pmap.pteFlags 0 prot.bits (BitVec.ofNat 32 cache)

/-- An entry shows the frame at `frame`, with the flags of `prot` and `cache` and no others. -/
structure Translates (pte : Pte) (frame : ℕ) (prot : Prot) (cache : ℕ) : Prop where
  frame : (Pmap.ptePaddr pte.bits).toNat = frame
  flags : pte.bits &&& ~~~Pmap.pteAddress = flagBits prot cache

/-- **When an entry translates**: the frame fits into the address field, and the offset added to
it has no bit that the flags do not have. -/
theorem translates_iff {frame off cache : ℕ} {prot : Prot} (halign : IsAligned frame)
    (hoff : off < pageSize) :
    Translates ⟨wadd frame off, prot, cache⟩ frame prot cache ↔
      frame < 2 ^ 52 ∧ flagBits prot cache ||| BitVec.ofNat 64 off = flagBits prot cache := by
  have hword : BitVec.ofNat 64 (wadd frame off) = BitVec.ofNat 64 (frame + off) := by
    apply BitVec.eq_of_toNat_eq
    rw [BitVec.toNat_ofNat, BitVec.toNat_ofNat, wadd, Nat.mod_mod]
  unfold IsAligned at halign
  unfold pageSize at halign hoff
  constructor
  · rintro ⟨hframe, hflags⟩
    have hlt : frame < 2 ^ 52 := by
      rw [Pmap.ptePaddr_toNat] at hframe
      omega
    refine ⟨hlt, ?_⟩
    simp only [Pte.bits, hword] at hflags
    exact (Pmap.flags_make_iff halign hoff hlt _ _).mp hflags
  · rintro ⟨hlt, hbits⟩
    refine ⟨?_, ?_⟩
    · rw [Pte.bits, Pmap.ptePaddr_make]
      simp only [hword]
      rw [Pmap.ptePaddr_ofNat halign hoff hlt, BitVec.toNat_ofNat]
      omega
    · simp only [Pte.bits, hword]
      exact (Pmap.flags_make_iff halign hoff hlt _ _).mpr hbits

/-! ## Faults -/

variable {env : Env} {s s' : Vm} {m a deviceAddr length cache out : ℕ} {prot : Prot}
  {entry : MapEntry} {flags : FaultFlags}

/-- **A permitted fault on an MMIO entry** adds the offset of the entry to that of the page; it
fails an assertion where the mapping is not readable. -/
theorem vmHandleFault_mmio (hq : env.Undisturbed) (hw : WellFormed (s.tree m))
    (hunlocked : s.held (.map m) = none) (he : entry ∈ s.tree m)
    (hcovers : entry.Covers (alignDown a)) (htype : entry.type = .mmio)
    (hflags : flags.write = true → entry.protection.write = true) :
    (vmHandleFault m a flags).Ends env s
      (fun rv s' => entry.protection.read = true ∧ rv = .success ∧
        (s'.maps m).pmap = Function.update (s.maps m).pmap (alignDown a / pageSize)
          (some ⟨wadd entry.mmioAddr (wadd (wsub (alignDown a) entry.base) entry.offset),
            entry.protection, entry.cache⟩))
      (fun e => entry.protection.read = false ∧ e = .assertion) := by
  have hlookup : vmMapLookupEntryLocked (((granted env s).setHeld (.map m) (some .shared)).tree m)
      (alignDown a) = some entry := by
    have htree : ((granted env s).setHeld (.map m) (some .shared)).tree m = s.tree m := by
      simp [tree, hq _ _]
    rw [htree]
    exact hw.lookup_iff.mpr ⟨he, hcovers⟩
  have hmaps : ((granted env s).setHeld (.map m) (some .shared)).maps m = s.maps m := by
    simp [hq _ _]
  have hpermitted : (!entry.protection.write && flags.write) = false := by
    cases hw' : flags.write
    · simp
    · simp [hflags hw']
  simp only [vmHandleFault, ends_bind, ends_acquire hunlocked, ends_getState, hlookup, htype,
    hpermitted, Bool.false_eq_true, if_false, pmapMap, ends_check, ends_change]
  refine ⟨fun hread => ?_, fun hread => ⟨Bool.eq_false_iff.mpr hread, trivial⟩⟩
  rw [ends_release]
  · rw [ends_pure, ← hmaps]
    refine ⟨hread, rfl, ?_⟩
    show (Vm.maps (Vm.setPmap _ m _) m).pmap = _
    simp only [setPmap_maps, Function.update_self]
  · show Function.update s.held (.map m) (some .shared) (.map m) = _
    exact Function.update_self _ _ _

/-! ## Exactness -/

/-- Permitted faults on the mapping are exact: the fault succeeds, the entry shows the frame of
the page, with the flags asked for, and `out` leads to the device's address. -/
def FaultsExactly (env : Env) (s' : Vm) (m deviceAddr length : ℕ) (prot : Prot)
    (cache out : ℕ) : Prop :=
  ∀ a flags, alignDown out ≤ a → a < alignDown out + mmioLength deviceAddr length →
    (flags.write = true → prot.write = true) →
    (vmHandleFault m a flags).Ends env s'
      (fun rv s'' => rv = .success ∧ ∃ pte, s''.pte m (a / pageSize) = some pte ∧
        Translates pte (alignDown deviceAddr + (alignDown a - alignDown out)) prot cache ∧
        (Pmap.ptePaddr pte.bits).toNat + a % pageSize + out = deviceAddr + a)
      (fun _ => False)

theorem MmioMapped.fault (h : MmioMapped s s' m deviceAddr length prot cache out entry)
    (hq : env.Undisturbed) (hr : MapReady s m) (h1 : alignDown out ≤ a)
    (h2 : a < alignDown out + mmioLength deviceAddr length)
    (hflags : flags.write = true → prot.write = true) :
    (vmHandleFault m a flags).Ends env s'
      (fun rv s'' => prot.read = true ∧ rv = .success ∧ s''.pte m (a / pageSize) = some
        ⟨wadd (alignDown deviceAddr + (alignDown a - alignDown out)) (pageOffset deviceAddr),
          prot, cache⟩)
      (fun _ => prot.read = false) := by
  have hmax := (vaBounds_lt m).2
  have hle := h.fits.le_max
  have hend := h.endAddr
  have hout : alignDown out = entry.base := by
    rw [h.out_eq, alignDown_out h.aligned]
  rw [hout] at h1 h2 ⊢
  have hpage : entry.base ≤ alignDown a ∧ alignDown a ≤ a := by
    have halign := h.aligned
    unfold IsAligned at halign
    unfold alignDown
    simp only [pageSize] at *
    omega
  have hunlocked : s'.held (.map m) = none := by
    rw [h.held]
    exact hr.unlocked
  have hcovers : entry.Covers (alignDown a) := ⟨hpage.1, by omega⟩
  have hfault := @vmHandleFault_mmio _ _ _ _ _ flags hq (h.wellFormed hr) hunlocked
    ((h.mem entry).mpr (Or.inl rfl)) hcovers h.type (by rw [h.protection]; exact hflags)
  rw [h.protection, h.mmioAddr, h.offset, h.cache_eq] at hfault
  refine hfault.mono ?_ (fun e he => he.1)
  rintro rv s'' ⟨hread, hrv, hpmap⟩
  refine ⟨hread, hrv, ?_⟩
  have hvpn : alignDown a / pageSize = a / pageSize := by
    unfold alignDown pageSize
    omega
  have hword : wadd (alignDown deviceAddr)
      (wadd (wsub (alignDown a) entry.base) (pageOffset deviceAddr))
      = wadd (alignDown deviceAddr + (alignDown a - entry.base)) (pageOffset deviceAddr) := by
    unfold wadd wsub
    omega
  rw [Vm.pte, hpmap, hvpn, Function.update_self, hword]

/-- **When MMIO mappings translate exactly**: the mapping is readable, it lies inside the address
field of an entry, and the offset in the page has no bit that the flags do not have. -/
theorem vmMapMmio_exact_iff (hq : env.Undisturbed) (hr : MapReady s m)
    (hmap : vmMapMmio m deviceAddr length prot cache env s = .ok ((.success, some out), s')) :
    FaultsExactly env s' m deviceAddr length prot cache out ↔
      prot.read = true ∧ alignDown deviceAddr + mmioLength deviceAddr length ≤ 2 ^ 52 ∧
        flagBits prot cache ||| BitVec.ofNat 64 (pageOffset deviceAddr) = flagBits prot cache := by
  obtain ⟨entry, out', hout, h⟩ := (vmMapMmio_spec hq hr).of_ok hmap rfl
  obtain rfl : out = out' := Option.some_inj.mp hout
  have hpos := h.pos
  have haligned : IsAligned (alignDown out) ∧ IsAligned (alignDown deviceAddr) ∧
      IsAligned (mmioLength deviceAddr length) :=
    ⟨Nat.mul_mod_left _ _, Nat.mul_mod_left _ _, alignUp_aligned _⟩
  have hoff : pageOffset deviceAddr < pageSize := by
    unfold pageOffset alignDown
    simp only [pageSize]
    omega
  have hframe : ∀ a, alignDown out ≤ a →
      IsAligned (alignDown deviceAddr + (alignDown a - alignDown out)) := by
    intro a _
    unfold IsAligned alignDown at *
    simp only [pageSize] at *
    omega
  constructor
  · intro hexact
    have hpte : ∀ a, alignDown out ≤ a → a < alignDown out + mmioLength deviceAddr length →
        prot.read = true ∧ alignDown deviceAddr + (alignDown a - alignDown out) < 2 ^ 52 ∧
          flagBits prot cache ||| BitVec.ofNat 64 (pageOffset deviceAddr) =
            flagBits prot cache := by
      intro a h1 h2
      obtain ⟨rv, s'', hrun, -, pte, hpte, htranslates, -⟩ :=
        (hexact a {} h1 h2 (by simp)).exists_ok
      obtain ⟨hread, -, hpte'⟩ := (h.fault hq hr h1 h2 (by simp)).of_ok hrun
      rw [hpte'] at hpte
      obtain rfl := Option.some_inj.mp hpte
      exact ⟨hread, (translates_iff (hframe a h1) hoff).mp htranslates⟩
    -- the last page is the highest
    obtain ⟨hread, hlast, hbits⟩ := hpte
      (alignDown out + (mmioLength deviceAddr length - pageSize)) (by omega) (by
        simp only [pageSize]
        omega)
    refine ⟨hread, ?_, hbits⟩
    obtain ⟨h1, h2, h3⟩ := haligned
    unfold IsAligned alignDown at *
    simp only [pageSize] at *
    omega
  · rintro ⟨hread, hlt, hbits⟩ a flags h1 h2 hflags
    refine (h.fault hq hr h1 h2 hflags).mono ?_ ?_
    · rintro rv s'' ⟨-, hrv, hpte⟩
      have hle : alignDown a ≤ a := Nat.div_mul_le_self _ _
      have htranslates := (translates_iff (hframe a h1) hoff).mpr ⟨by omega, hbits⟩
      refine ⟨hrv, _, hpte, htranslates, ?_⟩
      rw [htranslates.frame, h.out_eq, alignDown_out h.aligned]
      have hpage : alignDown (entry.base + pageOffset deviceAddr) ≤ alignDown a := by
        unfold alignDown at h1 ⊢
        simp only [h.out_eq, pageSize] at h1 ⊢
        omega
      rw [alignDown_out h.aligned] at hpage
      have hdev : alignDown deviceAddr ≤ deviceAddr := Nat.div_mul_le_self _ _
      have hmod : a % pageSize = a - alignDown a := by
        unfold alignDown
        simp only [pageSize]
        omega
      rw [hmod]
      unfold pageOffset
      omega
    · intro _ hno
      rw [hread] at hno
      cases hno

/-- A readable and writable page of a device in the kernel's map. -/
theorem vmMapMmio_exact_page :
    ∃ s', vmMapMmio kmap 0xfee00000 0x1000 ⟨true, true, false, false, false⟩ 0
        (Env.alone (fun _ => none)) empty = .ok ((.success, some 0xffffffe800000000), s') ∧
      (FaultsExactly (Env.alone (fun _ => none)) s' kmap 0xfee00000 0x1000
          ⟨true, true, false, false, false⟩ 0 0xffffffe800000000 ↔
        (⟨true, true, false, false, false⟩ : Prot).read = true ∧
          alignDown 0xfee00000 + mmioLength 0xfee00000 0x1000 ≤ 2 ^ 52 ∧
          flagBits ⟨true, true, false, false, false⟩ 0 ||| BitVec.ofNat 64 (pageOffset 0xfee00000) =
            flagBits ⟨true, true, false, false, false⟩ 0) :=
  ⟨_, rfl, vmMapMmio_exact_iff (fun _ _ => rfl) (empty_mapReady kmap) rfl⟩

/-- **A table at an unaligned address becomes accessible to user mode**: its offset `0x14` in the
page is `pteUser | ptePcd`. -/
theorem vmMapMmio_stray_flags :
    MapReady empty kmap ∧
      ∃ s' s'', vmMapMmio kmap 0x7fe1d014 0x24 ⟨true, true, false, false, false⟩ 0
          (Env.alone (fun _ => none)) empty = .ok ((.success, some 0xffffffe800000014), s') ∧
        vmHandleFault kmap 0xffffffe800000014 {} (Env.alone (fun _ => none)) s'
          = .ok (.success, s'') ∧
        s''.pte kmap 0xffffffe800000 = some ⟨0x7fe1d014, ⟨true, true, false, false, false⟩, 0⟩ ∧
        (⟨0x7fe1d014, ⟨true, true, false, false, false⟩, 0⟩ : Pte).bits = 0x800000007fe1d01f ∧
        flagBits ⟨true, true, false, false, false⟩ 0 = 0x800000000000000b ∧
        ¬ FaultsExactly (Env.alone (fun _ => none)) s' kmap 0x7fe1d014 0x24
          ⟨true, true, false, false, false⟩ 0 0xffffffe800000014 := by
  refine ⟨empty_mapReady kmap, _, _, rfl, rfl, rfl, by decide, by decide, ?_⟩
  intro hexact
  obtain ⟨-, pte, hpte, htranslates, -⟩ :=
    (hexact 0xffffffe800000014 {} (by decide) (by decide) (by simp)).of_ok rfl
  obtain rfl := Option.some_inj.mp hpte
  exact absurd htranslates.flags (by decide)

end Vm
