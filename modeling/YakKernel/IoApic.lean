/-
# Routing interrupts to the I/O APICs

`arch_program_intr` (`arch/x86_64/PlatformExpert.cc`) looks for an I/O APIC and programs one of its
redirection entries.  The search compares the range of an I/O APIC with the index of the loop, not
with the interrupt.
-/
import Mathlib.Tactic

namespace IoApic

/-! ## The code -/

/-- `struct IOApic`, as far as the search and `program` look at it. -/
structure IOApic where
  gsiBase : UInt8
  maxRedirEnt : UInt8

/-- What the MADT says of an I/O APIC, and its version register. -/
structure Chip where
  gsiBase : UInt32
  ver : UInt32

/-- The number of redirection entries. -/
def Chip.entries (c : Chip) : ℕ := (c.ver >>> 16 &&& 0xff).toNat + 1

/-- `IOApic::initWithArgs`. -/
def initWithArgs (c : Chip) : IOApic := ⟨UInt8.ofNat c.gsiBase.toNat, UInt8.ofNat c.entries⟩

/-- `struct interrupt_override`. -/
structure InterruptOverride where
  gsi : UInt8
  edge : Bool
  low : Bool

/-- `IOAPIC_REDTBL_BASE`. -/
def redtblBase : ℕ := 0x10

/-- The redirection entry that `IOApic::program` writes. -/
def redirection (vector : UInt32) (cpu : UInt8) (low edge masked : Bool) : UInt64 :=
  let val := (vector + 32).toUInt64
  let val := val ||| (if low = true then (1 : UInt64) else 0) <<< 13
  let val := val ||| (if edge = true then (0 : UInt64) else 1) <<< 15
  let val := val ||| (if masked = true then (1 : UInt64) else 0) <<< 16
  val ||| cpu.toUInt64 <<< 56

/-- `IOApic::write` takes the number of a register in eight bits. -/
def write (offset : ℤ) (value : UInt32) : UInt8 × UInt32 := (UInt8.ofNat (offset % 256).toNat, value)

/-- `IOApic::program`: the registers that are written. -/
def IOApic.program (a : IOApic) (irq : UInt8) (val : UInt64) : List (UInt8 × UInt32) :=
  let gsi : ℤ := irq.toNat - a.gsiBase.toNat
  [write (redtblBase + gsi * 2) val.toUInt32,
    write (redtblBase + gsi * 2 + 1) (val >>> 32).toUInt32]

/-- The test of the search: `i` is the index of the loop. -/
def IOApic.Picked (a : IOApic) (i : ℕ) : Prop :=
  a.gsiBase.toNat ≤ i ∧ i ≤ a.gsiBase.toNat + a.maxRedirEnt.toNat

instance (a : IOApic) (i : ℕ) : Decidable (a.Picked i) :=
  inferInstanceAs (Decidable (a.gsiBase.toNat ≤ i ∧ i ≤ a.gsiBase.toNat + a.maxRedirEnt.toNat))

/-- The search, from the index `i` on. -/
def findIoapic : ℕ → List IOApic → Option (ℕ × IOApic)
  | _, [] => none
  | i, a :: ioapics => if a.Picked i then some (i, a) else findIoapic (i + 1) ioapics

/-- The I/O APIC with the number is programmed, or `panic` is called. -/
inductive Outcome where
  | panic
  | programmed (ioapic : ℕ) (writes : List (UInt8 × UInt32))

/-- `irq`, `edge` and `low` after the overrides. -/
def overridden (overrides : ℕ → InterruptOverride) (irq : UInt8) : InterruptOverride :=
  if irq < 16 then overrides irq.toNat else ⟨irq, true, false⟩

/-- `arch_program_intr`. -/
def archProgramIntr (ioapics : List IOApic) (overrides : ℕ → InterruptOverride) (irq : UInt8)
    (vector : UInt32) (masked : Bool) : Outcome :=
  let o := overridden overrides irq
  (findIoapic 0 ioapics).elim .panic fun found =>
    .programmed found.1 (found.2.program o.gsi (redirection vector 0 o.low o.edge masked))

/-! ## What is asked of it -/

/-- The range of the I/O APIC has the interrupt. -/
def Chip.Owns (c : Chip) (gsi : UInt8) : Prop :=
  c.gsiBase.toNat ≤ gsi.toNat ∧ gsi.toNat < c.gsiBase.toNat + c.entries

/-- The registers of a redirection entry. -/
def entryWrites (entry : ℕ) (val : UInt64) : List (ℕ × UInt32) :=
  [(redtblBase + 2 * entry, val.toUInt32), (redtblBase + 2 * entry + 1, (val >>> 32).toUInt32)]

/-- This redirection entry of this I/O APIC is programmed, and nothing else. -/
def Outcome.Programs (r : Outcome) (k entry : ℕ) (val : UInt64) : Prop :=
  ∃ writes, r = .programmed k writes ∧
    writes.map (fun w => (w.1.toNat, w.2)) = entryWrites entry val

/-- **The interrupt is routed to its owner**: its entry is programmed, and without an owner nothing
is. -/
def Routes (chips : List Chip) (overrides : ℕ → InterruptOverride) (irq : UInt8) (vector : UInt32)
    (masked : Bool) : Prop :=
  let o := overridden overrides irq
  let r := archProgramIntr (chips.map initWithArgs) overrides irq vector masked
  (∀ k c, chips[k]? = some c → c.Owns o.gsi → r.Programs k (o.gsi.toNat - c.gsiBase.toNat)
    (redirection vector 0 o.low o.edge masked)) ∧
  ((∀ c ∈ chips, ¬ c.Owns o.gsi) → r = .panic)

/-- The search stops at this I/O APIC. -/
def FirstPicked (chips : List Chip) (k : ℕ) : Prop :=
  ∀ i c, chips[i]? = some c → i ≤ k → ((initWithArgs c).Picked i ↔ i = k)

variable {chips : List Chip} {ioapics : List IOApic} {a : IOApic} {c : Chip} {i k entry : ℕ}
  {gsi : UInt8} {val : UInt64}

/-! ## The search -/

theorem findIoapic_eq_some (h : findIoapic i ioapics = some (k, a)) :
    ∃ j, k = i + j ∧ ioapics[j]? = some a ∧ a.Picked k ∧
      ∀ j' < j, ∀ a', ioapics[j']? = some a' → ¬ a'.Picked (i + j') := by
  induction ioapics generalizing i with
  | nil => cases h
  | cons b ioapics ih =>
    rw [findIoapic] at h
    split at h
    · rename_i hb
      obtain ⟨rfl, rfl⟩ := Prod.mk.inj (Option.some.inj h)
      exact ⟨0, rfl, rfl, hb, fun j' hj' => absurd hj' (Nat.not_lt_zero j')⟩
    · rename_i hb
      obtain ⟨j, rfl, hget, hpicked, hfirst⟩ := ih h
      refine ⟨j + 1, by omega, hget, hpicked, fun j' hj' a' ha' => ?_⟩
      cases j' with
      | zero =>
        obtain rfl := Option.some.inj ha'
        exact hb
      | succ j' =>
        rw [show i + (j' + 1) = i + 1 + j' by omega]
        exact hfirst j' (by omega) a' ha'

theorem findIoapic_eq_none (h : findIoapic i ioapics = none) (j : ℕ) (a : IOApic)
    (ha : ioapics[j]? = some a) : ¬ a.Picked (i + j) := by
  induction ioapics generalizing i j with
  | nil => cases ha
  | cons b ioapics ih =>
    rw [findIoapic] at h
    split at h
    · cases h
    · rename_i hb
      cases j with
      | zero =>
        obtain rfl := Option.some.inj ha
        exact hb
      | succ j =>
        rw [show i + (j + 1) = i + 1 + j by omega]
        exact ih h j ha

/-! ## One redirection entry -/

theorem write_register (n : ℕ) (value : UInt32) : (write (n : ℤ) value).1.toNat = n % 256 := by
  show (UInt8.ofNat ((n : ℤ) % 256).toNat).toNat = n % 256
  rw [UInt8.toNat_ofNat']
  omega

theorem program_eq (hle : a.gsiBase.toNat ≤ gsi.toNat) (val : UInt64) :
    (a.program gsi val).map (fun w => (w.1.toNat, w.2)) =
      [((redtblBase + 2 * (gsi.toNat - a.gsiBase.toNat)) % 256, val.toUInt32),
        ((redtblBase + 2 * (gsi.toNat - a.gsiBase.toNat) + 1) % 256, (val >>> 32).toUInt32)] := by
  have hlow : (redtblBase : ℤ) + ((gsi.toNat : ℤ) - a.gsiBase.toNat) * 2 =
      ((redtblBase + 2 * (gsi.toNat - a.gsiBase.toNat) : ℕ) : ℤ) := by
    push_cast [Nat.cast_sub hle]
    ring
  have hhigh := write_register (redtblBase + 2 * (gsi.toNat - a.gsiBase.toNat) + 1)
    (val >>> 32).toUInt32
  rw [Nat.cast_succ] at hhigh
  simp only [IOApic.program, List.map_cons, List.map_nil, hlow, write_register, hhigh]
  rfl

theorem entryWrites_iff (entry : ℕ) (val : UInt64) :
    [((redtblBase + 2 * entry) % 256, val.toUInt32),
      ((redtblBase + 2 * entry + 1) % 256, (val >>> 32).toUInt32)] = entryWrites entry val ↔
      entry < 120 := by
  have hbase : redtblBase = 16 := rfl
  constructor
  · intro h
    have hlow : (redtblBase + 2 * entry) % 256 = redtblBase + 2 * entry :=
      (Prod.mk.inj (List.cons.inj h).1).1
    omega
  · intro h
    rw [entryWrites, Nat.mod_eq_of_lt (by omega), Nat.mod_eq_of_lt (by omega)]

theorem Chip.Owns.gsiBase (h : c.Owns gsi) : (initWithArgs c).gsiBase.toNat = c.gsiBase.toNat := by
  have hlt := gsi.toNat_lt
  have hle := h.1
  show (UInt8.ofNat c.gsiBase.toNat).toNat = _
  rw [UInt8.toNat_ofNat']
  omega

/-! ## The theorem -/

/-- **When an interrupt reaches its owner**: the owner is the first that the search picks, and has
its entry among the first 120; without an owner, none is picked. -/
theorem routes_iff (chips : List Chip) (overrides : ℕ → InterruptOverride) (irq : UInt8)
    (vector : UInt32) (masked : Bool) : Routes chips overrides irq vector masked ↔
      (∀ k c, chips[k]? = some c → c.Owns (overridden overrides irq).gsi →
        FirstPicked chips k ∧
          (overridden overrides irq).gsi.toNat - c.gsiBase.toNat < 120) ∧
      ((∀ c ∈ chips, ¬ c.Owns (overridden overrides irq).gsi) →
        ∀ i c, chips[i]? = some c → ¬ (initWithArgs c).Picked i) := by
  generalize ho : overridden overrides irq = o
  have hrun : archProgramIntr (chips.map initWithArgs) overrides irq vector masked =
      (findIoapic 0 (chips.map initWithArgs)).elim .panic fun found =>
        .programmed found.1 (found.2.program o.gsi (redirection vector 0 o.low o.edge masked)) := by
    rw [archProgramIntr, ho]
  simp only [Routes, ho, hrun]
  generalize redirection vector 0 o.low o.edge masked = val
  cases hfind : findIoapic 0 (chips.map initWithArgs) with
  | none =>
    have hnot : ∀ i c, chips[i]? = some c → ¬ (initWithArgs c).Picked i := by
      intro i c hc
      have hp := findIoapic_eq_none hfind i (initWithArgs c) (by rw [List.getElem?_map, hc]; rfl)
      rwa [Nat.zero_add] at hp
    constructor
    · rintro ⟨howner, -⟩
      refine ⟨fun k c hc howns => ?_, fun _ => hnot⟩
      obtain ⟨writes, heq, -⟩ := howner k c hc howns
      cases heq
    · rintro ⟨howner, -⟩
      refine ⟨fun k c hc howns => ?_, fun _ => rfl⟩
      exact absurd (((howner k c hc howns).1 k c hc le_rfl).mpr rfl) (hnot k c hc)
  | some found =>
    obtain ⟨k, a⟩ := found
    obtain ⟨j, hj, hget, hpicked, hfirst⟩ := findIoapic_eq_some hfind
    rw [Nat.zero_add] at hj
    subst hj
    obtain ⟨c, hc, rfl⟩ : ∃ c, chips[k]? = some c ∧ initWithArgs c = a := by
      rw [List.getElem?_map] at hget
      exact Option.map_eq_some_iff.mp hget
    have hearlier : ∀ i c', i < k → chips[i]? = some c' → ¬ (initWithArgs c').Picked i := by
      intro i c' hi hc'
      have hp := hfirst i hi (initWithArgs c') (by rw [List.getElem?_map, hc']; rfl)
      rwa [Nat.zero_add] at hp
    have hk : FirstPicked chips k := by
      intro i c' hc' hle
      rcases Nat.lt_or_eq_of_le hle with hlt | rfl
      · exact iff_of_false (hearlier i c' hlt hc') hlt.ne
      · obtain rfl := Option.some.inj (hc.symm.trans hc')
        exact iff_of_true hpicked rfl
    -- the first that is picked is the only one
    have hunique : ∀ k' c', chips[k']? = some c' → FirstPicked chips k' → k' = k := by
      intro k' c' hc' hk'
      rcases Nat.lt_trichotomy k' k with hlt | heq | hgt
      · exact absurd ((hk' k' c' hc' le_rfl).mpr rfl) (hearlier k' c' hlt hc')
      · exact heq
      · exact ((hk' k c hc hgt.le).mp hpicked).symm
    have hprograms : c.Owns o.gsi →
        (Outcome.Programs (.programmed k ((initWithArgs c).program o.gsi val)) k
          (o.gsi.toNat - c.gsiBase.toNat) val ↔ o.gsi.toNat - c.gsiBase.toNat < 120) := by
      intro howns
      have hbase := howns.gsiBase
      have hwrites := program_eq (hbase.trans_le howns.1) val
      rw [hbase] at hwrites
      rw [← entryWrites_iff _ val, ← hwrites]
      constructor
      · rintro ⟨writes, heq, hw⟩
        obtain ⟨-, rfl⟩ := Outcome.programmed.inj heq
        exact hw
      · exact fun hw => ⟨_, rfl, hw⟩
    constructor
    · rintro ⟨howner, hnone⟩
      refine ⟨fun k' c' hc' howns => ?_, fun hno => ?_⟩
      · obtain ⟨writes, heq, hw⟩ := howner k' c' hc' howns
        obtain ⟨hkk, -⟩ := Outcome.programmed.inj heq
        subst hkk
        obtain rfl := Option.some.inj (hc.symm.trans hc')
        exact ⟨hk, (hprograms howns).mp ⟨writes, heq, hw⟩⟩
      · exact absurd (hnone hno) (by rintro ⟨⟩)
    · rintro ⟨howner, hnone⟩
      refine ⟨fun k' c' hc' howns => ?_, fun hno => ?_⟩
      · obtain ⟨hk', hlt⟩ := howner k' c' hc' howns
        obtain rfl := hunique k' c' hc' hk'
        obtain rfl := Option.some.inj (hc.symm.trans hc')
        exact (hprograms howns).mpr hlt
      · exact absurd hpicked (hnone hno k c hc)

/-! ## Examples -/

/-- Two I/O APICs of 24 entries, for the interrupts from 0 and from 24 on. -/
def twoChips : List Chip := [⟨0, 0x170000⟩, ⟨24, 0x170000⟩]

/-- No interrupt is overridden. -/
def identity (irq : ℕ) : InterruptOverride := ⟨UInt8.ofNat irq, true, false⟩

/-- The interrupt 30 goes to the first one. -/
theorem not_routes : ¬ Routes twoChips identity 30 0 false := by
  intro h
  obtain ⟨writes, heq, -⟩ := h.1 1 ⟨24, 0x170000⟩ rfl ⟨by decide, by decide⟩
  have hfirst : findIoapic 0 (twoChips.map initWithArgs) = some (0, initWithArgs ⟨0, 0x170000⟩) := rfl
  rw [archProgramIntr, hfirst] at heq
  obtain ⟨hk, -⟩ := Outcome.programmed.inj heq
  cases hk

end IoApic
