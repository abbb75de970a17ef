/-
# The references to files, under every operation on descriptors

A descriptor slot holds its file, and a system call in progress holds the files it works on.
The count of a file is exact when it is the number of its holders; each operation of
`core/file.c` keeps it so.
-/
import YakKernel.FileIndices
import YakKernel.Tally

namespace FileTable

open Prog

variable {P T : Type} {k k' : Kernel P} {held held' : T → ℕ → Option ℕ} {p : P} {t : T} {f : ℕ}
  {env : Env}

/-! ## Holders -/

/-- Who may hold a file: a slot of a table, or an entry of the array of files of a call. -/
inductive Holder (P T : Type) where
  | slot (p : P) (i : ℕ)
  | call (t : T) (j : ℕ)

/-- The file of a slot. -/
def Kernel.fileAt (k : Kernel P) (p : P) (i : ℕ) : Option ℕ := ((k.procs p).get i).bind Fd.file

/-- The file that a holder holds. -/
def Kernel.fileOf (k : Kernel P) (held : T → ℕ → Option ℕ) : Holder P T → Option ℕ
  | .slot p i => k.fileAt p i
  | .call t j => held t j

/-- The count of every file is the number of its holders, and a file has been cleaned up once
if it has no holder any more. -/
structure Exact (k : Kernel P) (held : T → ℕ → Option ℕ) : Prop where
  refcnt : ∀ f, Tally (fun a => k.fileOf held a = some f) (k.files f).refcnt
  cleanups : ∀ f, (k.files f).cleanups = if (k.files f).refcnt = 0 ∧ f < k.nextFile then 1 else 0
  fresh : ∀ f, k.nextFile ≤ f → (k.files f).refcnt = 0

theorem Exact.refcnt_pos (h : Exact k held) {a : Holder P T} (ha : k.fileOf held a = some f) :
    0 < (k.files f).refcnt := (h.refcnt f).pos ha

theorem Exact.lt_nextFile (h : Exact k held) {a : Holder P T} (ha : k.fileOf held a = some f) :
    f < k.nextFile := by
  by_contra hge
  have h0 := h.fresh f (by omega)
  have hpos := h.refcnt_pos ha
  omega

theorem Exact.congr (h : Exact k held) (hfiles : k'.files = k.files)
    (hnext : k'.nextFile = k.nextFile)
    (hof : ∀ a, k'.fileOf held' a = k.fileOf held a) : Exact k' held' where
  refcnt := by
    intro f
    rw [hfiles]
    exact (h.refcnt f).congr (fun a => by rw [hof a])
  cleanups := by
    rw [hfiles, hnext]
    exact h.cleanups
  fresh := by
    rw [hfiles, hnext]
    exact h.fresh

/-- **A reference more.**  A holder that held nothing takes a file that is referenced already. -/
theorem Exact.ref (h : Exact k held) {a : Holder P T} (ha : k.fileOf held a = none)
    (hlive : (k.files f).refcnt ≠ 0) (hfiles : k'.files = (k.ref f).files)
    (hnext : k'.nextFile = k.nextFile)
    (hself : k'.fileOf held' a = some f)
    (hof : ∀ b, b ≠ a → k'.fileOf held' b = k.fileOf held b) : Exact k' held' where
  refcnt := by
    intro g
    rw [hfiles]
    by_cases hg : g = f
    · subst hg
      simp only [Kernel.ref, Kernel.setFile_files, Function.update_self]
      refine (h.refcnt g).insert (a := a) (by rw [ha]; simp) ?_
      intro b
      by_cases hb : b = a
      · subst hb
        simp [hself]
      · rw [hof b hb]
        simp [hb]
    · simp only [Kernel.ref, Kernel.setFile_files, Function.update_of_ne hg]
      refine (h.refcnt g).congr ?_
      intro b
      by_cases hb : b = a
      · subst hb
        rw [hself, ha]
        simp [Ne.symm hg]
      · rw [hof b hb]
  cleanups := by
    intro g
    rw [hfiles, hnext]
    have hc := h.cleanups g
    by_cases hg : g = f
    · subst hg
      simp only [Kernel.ref, Kernel.setFile_files, Function.update_self]
      simpa [hlive] using hc
    · simpa only [Kernel.ref, Kernel.setFile_files, Function.update_of_ne hg] using hc
  fresh := by
    intro g hg
    rw [hnext] at hg
    rw [hfiles]
    have hne : g ≠ f := fun he => hlive (he ▸ h.fresh g hg)
    simpa only [Kernel.ref, Kernel.setFile_files, Function.update_of_ne hne] using h.fresh g hg

/-- **A reference less.**  A holder gives its file up; the last one takes the file with it. -/
theorem Exact.deref (h : Exact k held) {a : Holder P T} (ha : k.fileOf held a = some f)
    (hfiles : k'.files = (k.deref f).files) (hnext : k'.nextFile = k.nextFile)
    (hself : k'.fileOf held' a = none)
    (hof : ∀ b, b ≠ a → k'.fileOf held' b = k.fileOf held b) : Exact k' held' := by
  have hpos := h.refcnt_pos ha
  have hlt := h.lt_nextFile ha
  have hc := h.cleanups f
  have hother : ∀ g, g ≠ f → (k'.files g) = k.files g := by
    intro g hg
    rw [hfiles]
    simp only [Kernel.deref, Kernel.setFile_files, Function.update_of_ne hg]
  have hrefcnt : (k'.files f).refcnt = (k.files f).refcnt - 1 := by
    rw [hfiles]
    simp only [Kernel.deref, Kernel.setFile_files, Function.update_self, if_neg (by omega :
      ¬ (k.files f).refcnt = 0)]
  refine ⟨?_, ?_, ?_⟩
  · intro g
    by_cases hg : g = f
    · subst hg
      rw [hrefcnt]
      have hcount := h.refcnt g
      rw [show (k.files g).refcnt = (k.files g).refcnt - 1 + 1 by omega] at hcount
      refine hcount.erase (a := a) ha ?_
      intro b
      by_cases hb : b = a
      · subst hb
        simp [hself]
      · rw [hof b hb]
        simp [hb]
    · rw [hother g hg]
      refine (h.refcnt g).congr ?_
      intro b
      by_cases hb : b = a
      · subst hb
        rw [hself, ha]
        simp [Ne.symm hg]
      · rw [hof b hb]
  · intro g
    rw [hnext]
    by_cases hg : g = f
    · subst hg
      rw [hrefcnt]
      rw [if_neg (by omega)] at hc
      rw [hfiles]
      simp only [Kernel.deref, Kernel.setFile_files, Function.update_self, hc]
      by_cases hone : (k.files g).refcnt = 1
      · rw [if_pos hone, if_pos ⟨by omega, hlt⟩]
      · rw [if_neg hone, if_neg (by omega)]
    · rw [hother g hg]
      exact h.cleanups g
  · intro g hg
    rw [hnext] at hg
    rw [hother g (by omega)]
    exact h.fresh g hg

/-! ## Slots -/

theorem Kernel.fileAt_of_get {i : ℕ} {desc : Option Fd} (h : (k.procs p).get i = desc) :
    k.fileAt p i = desc.bind Fd.file := by
  rw [Kernel.fileAt, h]

theorem Kernel.Allocated.fileAt_eq {r : Except Status ℤ} (h : k.Allocated p r k') (q : P)
    (i : ℕ) : k'.fileAt q i = k.fileAt q i := by
  rw [Kernel.fileAt, Kernel.fileAt]
  by_cases hq : q = p
  · subst hq
    cases r with
    | error e => rw [Kernel.Grown.slots h i (Int.natCast_nonneg i) (Option.some_ne_none _)]
    | ok fd =>
      obtain ⟨hg, h0, hlt, hnone, hslot⟩ := h
      by_cases hi : (i : ℤ) = fd
      · rw [hi, hnone]
        rcases hslot with hslot | hslot
        · rw [hslot]
        · rw [hslot]
          rfl
      · rw [hg.slots i (Int.natCast_nonneg i) (fun he => hi (Option.some.inj he))]
  · cases r with
    | error e => rw [Kernel.Grown.others h q hq]
    | ok fd => rw [h.1.others q hq]

theorem Exact.allocated (h : Exact k held) {r : Except Status ℤ} (ha : k.Allocated p r k') :
    Exact k' held := by
  have hat := ha.fileAt_eq
  have hfiles : k'.files = k.files ∧ k'.nextFile = k.nextFile := by
    cases r with
    | error e => exact ⟨Kernel.Grown.files ha, Kernel.Grown.nextFile ha⟩
    | ok fd => exact ⟨ha.1.files, ha.1.nextFile⟩
  refine h.congr hfiles.1 hfiles.2 ?_
  intro a
  cases a with
  | slot q i => exact hat q i
  | call t j => rfl

section

variable [DecidableEq P]

theorem Kernel.fileAt_set {i : ℤ} (h0 : 0 ≤ i) (hi : i < (k.procs p).fdCap) (desc : Option Fd)
    (q : P) (j : ℕ) : (k.setProc p ((k.procs p).set i desc)).fileAt q j =
      if q = p ∧ (j : ℤ) = i then desc.bind Fd.file else k.fileAt q j := by
  rw [Kernel.fileAt, Kernel.setProc_procs]
  by_cases hq : q = p
  · subst hq
    rw [Function.update_self, Process.get_set _ h0 hi (Int.natCast_nonneg j)]
    by_cases hj : (j : ℤ) = i
    · simp [hj]
    · simp [hj, Kernel.fileAt]
  · rw [Function.update_of_ne hq]
    simp [hq, Kernel.fileAt]

theorem Kernel.fileAt_set_self {i : ℕ} (hi : (i : ℤ) < (k.procs p).fdCap) (desc : Option Fd) :
    (k.setProc p ((k.procs p).set i desc)).fileAt p i = desc.bind Fd.file := by
  rw [Kernel.fileAt_set (Int.natCast_nonneg i) hi]
  simp

theorem Kernel.fileOf_set {i : ℕ} (hi : (i : ℤ) < (k.procs p).fdCap) (desc : Option Fd)
    {a : Holder P T} (ha : a ≠ .slot p i) :
    (k.setProc p ((k.procs p).set i desc)).fileOf held a = k.fileOf held a := by
  cases a with
  | call t j => rfl
  | slot q j =>
    show (k.setProc p ((k.procs p).set i desc)).fileAt q j = k.fileAt q j
    rw [Kernel.fileAt_set (Int.natCast_nonneg i) hi]
    have hne : ¬ (q = p ∧ (j : ℤ) = i) := by
      rintro ⟨rfl, hj⟩
      exact ha (by rw [Int.natCast_inj.mp hj])
    rw [if_neg hne]

theorem Exact.fill (h : Exact k held) {i : ℕ} (hi : (i : ℤ) < (k.procs p).fdCap)
    (hnone : k.fileAt p i = none) (hlive : (k.files f).refcnt ≠ 0) (cloexec : Bool) :
    Exact ((k.setProc p ((k.procs p).set i (some ⟨some f, cloexec⟩))).ref f) held := by
  refine h.ref (a := .slot p i) hnone hlive rfl rfl ?_ ?_
  · exact Kernel.fileAt_set_self hi _
  · intro b hb
    exact Kernel.fileOf_set hi _ hb

theorem Exact.clear (h : Exact k held) {i : ℕ} (hi : (i : ℤ) < (k.procs p).fdCap) {desc : Fd}
    (hget : (k.procs p).get i = some desc) :
    Exact ((k.drop desc.file).setProc p ((k.procs p).set i none)) held := by
  have hat := Kernel.fileAt_of_get hget
  have hself := Kernel.fileAt_set_self hi none
  have hof : ∀ b : Holder P T, b ≠ .slot p i →
      (k.setProc p ((k.procs p).set i none)).fileOf held b = k.fileOf held b :=
    fun b hb => Kernel.fileOf_set hi none hb
  cases hf : desc.file with
  | none =>
    refine h.congr rfl rfl ?_
    intro b
    by_cases hb : b = .slot p i
    · subst hb
      have hnone : k.fileAt p i = none := hat.trans hf
      exact hself.trans hnone.symm
    · exact hof b hb
  | some f =>
    exact h.deref (a := .slot p i) (hat.trans hf) rfl rfl hself hof

theorem Exact.cleared (h : Exact k held) {i : ℕ} (hi : (i : ℤ) < (k.procs p).fdCap) :
    Exact (k.cleared p i) held := by
  cases hget : (k.procs p).get i with
  | none =>
    rw [Kernel.cleared_of_none hget]
    exact h
  | some desc =>
    rw [Kernel.cleared_of_some hget]
    exact h.clear hi hget

theorem Kernel.get_cleared_of_ne {i j : ℤ} (h0 : 0 ≤ i) (hi : i < (k.procs p).fdCap) (hj : 0 ≤ j)
    (hne : j ≠ i) : ((k.cleared p i).procs p).get j = (k.procs p).get j := by
  cases hget : (k.procs p).get i with
  | none => rw [Kernel.cleared_of_none hget]
  | some desc =>
    rw [Kernel.cleared_of_some hget, Kernel.setProc_procs, Function.update_self,
      Process.get_set _ h0 hi hj, if_neg hne]

theorem Exact.create (h : Exact k held) {i : ℕ} (hi : (i : ℤ) < (k.procs p).fdCap)
    (hnone : k.fileAt p i = none) (cloexec : Bool) :
    Exact ({ k.setFile k.nextFile ⟨1, 0⟩ with nextFile := k.nextFile + 1 }.setProc p
      ((k.procs p).set i (some ⟨some k.nextFile, cloexec⟩))) held := by
  have hself := Kernel.fileAt_set_self hi (some ⟨some k.nextFile, cloexec⟩)
  have hof : ∀ b : Holder P T, b ≠ .slot p i →
      (k.setProc p ((k.procs p).set i (some ⟨some k.nextFile, cloexec⟩))).fileOf held b =
        k.fileOf held b := fun b hb => Kernel.fileOf_set hi _ hb
  have hunheld : ∀ b : Holder P T, k.fileOf held b ≠ some k.nextFile := by
    intro b hb
    exact absurd (h.lt_nextFile hb) (lt_irrefl _)
  refine ⟨?_, ?_, ?_⟩
  · intro g
    show Tally _ (Function.update k.files k.nextFile ⟨1, 0⟩ g).refcnt
    by_cases hg : g = k.nextFile
    · subst hg
      rw [Function.update_self]
      refine Tally.one (a := Holder.slot p i) ?_
      intro b
      by_cases hb : b = .slot p i
      · subst hb
        exact ⟨fun _ => rfl, fun _ => hself⟩
      · refine ⟨fun hbf => ?_, fun hbs => absurd hbs hb⟩
        exact absurd ((hof b hb).symm.trans hbf) (hunheld b)
    · rw [Function.update_of_ne hg]
      refine (h.refcnt g).congr ?_
      intro b
      by_cases hb : b = .slot p i
      · subst hb
        refine ⟨fun hbf => ?_, fun hbf => ?_⟩
        · exact absurd (Option.some.inj (hself.symm.trans hbf)).symm hg
        · have hnone' : k.fileOf held (Holder.slot p i : Holder P T) = none := hnone
          rw [hnone'] at hbf
          cases hbf
      · have := hof b hb
        exact ⟨fun hbf => this.symm.trans hbf, fun hbf => this.trans hbf⟩
  · intro g
    show (Function.update k.files k.nextFile ⟨1, 0⟩ g).cleanups =
      if (Function.update k.files k.nextFile ⟨1, 0⟩ g).refcnt = 0 ∧ g < k.nextFile + 1 then 1 else 0
    by_cases hg : g = k.nextFile
    · subst hg
      simp
    · rw [Function.update_of_ne hg, h.cleanups g]
      have hiff : g < k.nextFile + 1 ↔ g < k.nextFile := by omega
      simp only [hiff]
  · intro g hg
    have hge : k.nextFile + 1 ≤ g := hg
    show (Function.update k.files k.nextFile ⟨1, 0⟩ g).refcnt = 0
    rw [Function.update_of_ne (by omega)]
    exact h.fresh g (by omega)

/-! ## The operations -/

/-- All counts and all slots are what they were; the table may have more free slots. -/
structure Kernel.Unchanged (k k' : Kernel P) : Prop where
  files : k'.files = k.files
  nextFile : k'.nextFile = k.nextFile
  slots : ∀ q j, 0 ≤ j → (k'.procs q).get j = (k.procs q).get j

omit [DecidableEq P] in
theorem Kernel.Grown.unchanged (h : k.Grown p none k') : k.Unchanged k' where
  files := h.files
  nextFile := h.nextFile
  slots := by
    intro q j hj
    by_cases hq : q = p
    · subst hq
      exact h.slots j hj (Option.some_ne_none j)
    · rw [h.others q hq]

/-- The descriptor `newfd`, which `dup2` is to replace, is open, and there is no memory. -/
def Kernel.Loses (k : Kernel P) (p : P) (newfd : ℤ) (flags : DupeFlags) : Prop :=
  flags.minimum = false ∧ newfd ≠ -1 ∧ 0 ≤ newfd ∧ ((k.procs p).get newfd).isSome ∧
    k.hasMemory = false

/-- `fd` is free now, at the cost of no other slot. -/
structure Chosen (k : Kernel P) (p : P) (newfd : ℤ) (flags : DupeFlags) (fd : ℤ) (k' : Kernel P) :
    Prop where
  nonneg : 0 ≤ fd
  lt : fd < (k'.procs p).fdCap
  free : k'.fileAt p fd.toNat = none
  others : ∀ j, 0 ≤ j → j ≠ fd → (k'.procs p).get j = (k.procs p).get j
  source : (k.procs p).get fd = none ∨ fd = newfd ∧ flags.minimum = false

omit [DecidableEq P] in
theorem Kernel.Allocated.fileAt_none {base : Kernel P} {fd : ℤ} (h : base.Allocated p (.ok fd) k') :
    k'.fileAt p fd.toNat = none := by
  obtain ⟨_, h0, _, _, hslot⟩ := h
  rw [Kernel.fileAt, Int.toNat_of_nonneg h0]
  rcases hslot with hslot | hslot
  · rw [hslot]
    rfl
  · rw [hslot]
    rfl

omit [DecidableEq P] in
theorem Kernel.Allocated.chosen {newfd fd : ℤ} {flags : DupeFlags}
    (h : k.Allocated p (.ok fd) k') : Chosen k p newfd flags fd k' where
  nonneg := h.2.1
  lt := h.2.2.1
  free := h.fileAt_none
  others := fun j hj hne => h.1.slots j hj (fun he => hne (Option.some.inj he))
  source := Or.inl h.2.2.2.1

theorem allocateFor_exact (h : Exact k held) (newfd : ℤ) (flags : DupeFlags) :
    (allocateFor p newfd flags).Ends env k
      (fun r k' => Exact k' held ∧ match r with
        | .error _ => ¬ k.Loses p newfd flags → k.Unchanged k'
        | .ok fd => Chosen k p newfd flags fd k') (fun _ => True) := by
  have hallocated : ∀ r k', k.Allocated p r k' → Exact k' held ∧ match r with
      | .error _ => ¬ k.Loses p newfd flags → k.Unchanged k'
      | .ok fd => Chosen k p newfd flags fd k' := by
    intro r k' hr
    refine ⟨h.allocated hr, ?_⟩
    cases r with
    | error e => exact fun _ => Kernel.Grown.unchanged hr
    | ok fd => exact hr.chosen
  by_cases hrange : -1 ≤ newfd ∧ (flags.minimum = false → newfd + 4 ≤ intMax)
  · rw [allocateFor, ends_ite]
    refine ⟨fun _ => ?_, fun hne => ?_⟩
    · exact fdAllocateNext_ends.mono hallocated (fun _ _ => trivial)
    · rw [ends_ite]
      refine ⟨fun _ => ?_, fun hmin => ?_⟩
      · exact (fdAllocateMin_ends (by omega)).mono hallocated (fun _ _ => trivial)
      · have hmin' : flags.minimum = false := by simpa using hmin
        have h0 : 0 ≤ newfd := by omega
        refine (fdAllocateAt_ends h0 (hrange.2 hmin')).mono ?_ (fun _ _ => trivial)
        intro r k' hr
        have hcast : ((newfd.toNat : ℕ) : ℤ) = newfd := Int.toNat_of_nonneg h0
        cases r with
        | error e =>
          rcases hr with hr | ⟨hsome, hlt, hm, hr⟩
          · exact hallocated (.error e) k' hr
          · have hcleared : Exact (k.cleared p newfd) held := by
              rw [← hcast]
              exact h.cleared (by omega)
            refine ⟨hcleared.allocated (r := .error e) hr, ?_⟩
            intro hno
            exact absurd ⟨hmin', hne, h0, hsome, hm⟩ hno
        | ok fd =>
          obtain ⟨rfl, ⟨_, hr⟩ | ⟨hlt, hr⟩⟩ := hr
          · exact hallocated _ k' hr
          · have hcleared : Exact (k.cleared p fd) held := by
              rw [← hcast]
              exact h.cleared (by omega)
            refine ⟨hcleared.allocated hr, hr.2.1, hr.2.2.1, hr.fileAt_none, ?_,
              Or.inr ⟨rfl, hmin'⟩⟩
            intro j hj hne'
            rw [hr.1.slots j hj (fun he => hne' (Option.some.inj he)),
              Kernel.get_cleared_of_ne h0 hlt hj hne']
  · exact (allocateFor_fails hrange).mono (fun _ _ hfalse => hfalse.elim) (fun _ _ => trivial)

/-- **`fd_duplicate`** keeps the counts exact; failing, it leaves everything as it was, unless
it has closed what it was to replace. -/
theorem fdDuplicate_exact (h : Exact k held) (oldfd newfd : ℤ) (flags : DupeFlags) :
    (fdDuplicate p oldfd newfd flags).Ends env k
      (fun r k' => Exact k' held ∧ ∀ e, r = .error e →
        ¬ ((k.procs p).Opened oldfd ∧ oldfd ≠ newfd ∧ k.Loses p newfd flags) → k.Unchanged k')
      (fun _ => True) := by
  have hsame : k.Unchanged k := ⟨rfl, rfl, fun _ _ _ => rfl⟩
  rw [fdDuplicate, ends_bind, ends_lookup]
  refine ⟨fun _ => trivial, fun _ _ => ⟨h, fun _ _ _ => hsame⟩, ?_⟩
  intro src hopen hget
  dsimp only
  rw [ends_ite, ends_bind]
  refine ⟨fun _ => ⟨h, fun _ _ _ => hsame⟩, fun hearly => ?_⟩
  refine (allocateFor_exact h newfd flags).imp ?_
  rintro r k₁ ⟨h₁, hr⟩
  cases r with
  | error e =>
    refine ⟨h₁, ?_⟩
    intro e' _ hno
    refine hr (fun hloses => hno ⟨hopen, ?_, hloses⟩)
    intro heq
    exact hearly ⟨hloses.1, heq⟩
  | ok fd =>
    simp only [ends_bind, ends_pure]
    have hne : oldfd ≠ fd := by
      rintro rfl
      rcases hr.source with hnone | ⟨heq, hmin⟩
      · rw [hget] at hnone
        cases hnone
      · exact hearly ⟨hmin, heq⟩
    have hsrc := hr.others oldfd hopen.1 hne
    refine (fdAssign_ends hr.nonneg hr.lt src flags).mono ?_ (fun _ _ => trivial)
    rintro _ k₂ ⟨f, hf, _, hk₂⟩
    refine ⟨?_, fun e he => by cases he⟩
    have hcast : ((fd.toNat : ℕ) : ℤ) = fd := Int.toNat_of_nonneg hr.nonneg
    have hlive : k₁.fileOf held (Holder.slot p oldfd.toNat : Holder P T) = some f := by
      show k₁.fileAt p oldfd.toNat = some f
      rw [Kernel.fileAt, Int.toNat_of_nonneg hopen.1, hsrc, hget]
      exact hf
    rw [hk₂, ← hcast]
    exact h₁.fill (by rw [hcast]; exact hr.lt) hr.free (h₁.refcnt_pos hlive).ne' _

/-- **`fd_alloc_file`** makes a file with one reference; failing, it leaves everything as it
was. -/
theorem fdAllocFile_exact (h : Exact k held) :
    (fdAllocFile p).Ends env k
      (fun r k' => Exact k' held ∧ match r with
        | .error _ => k.Unchanged k'
        | .ok fd => 0 ≤ fd ∧ fd < (k'.procs p).fdCap)
      (fun _ => True) := by
  rw [fdAllocFile, ends_bind]
  refine fdAllocateNext_ends.mono ?_ (fun _ hfalse => hfalse.elim)
  intro r k₁ hr
  have h₁ := h.allocated hr
  cases r with
  | error e => exact ⟨h₁, Kernel.Grown.unchanged hr⟩
  | ok fd =>
    obtain ⟨hgrown, h0, hlt, hfree, hslot⟩ := hr
    have hcast : ((fd.toNat : ℕ) : ℤ) = fd := Int.toNat_of_nonneg h0
    simp only [ends_bind, ends_readSlot]
    refine ⟨fun _ => ?_, fun _ => trivial⟩
    rcases hslot with hslot | hslot
    · rw [hslot]
      exact trivial
    · rw [hslot]
      simp only [ends_bind, newFile, ends_kzalloc]
      rw [ends_ite]
      have h₂ : Exact k₁.answered held := h₁.congr rfl rfl (fun _ => rfl)
      refine ⟨fun _ => ?_, fun _ => ?_⟩
      · simp only [ends_bind, ends_getState, ends_change, ends_pure, ends_writeSlot]
        refine ⟨fun _ => ⟨?_, h0, ?_⟩, fun _ => trivial⟩
        · have hnone : k₁.answered.fileAt p fd.toNat = none := by
            rw [Kernel.fileAt, hcast]
            show ((k₁.procs p).get fd).bind Fd.file = none
            rw [hslot]
            rfl
          have hcreate := h₂.create (p := p) (i := fd.toNat) (by rw [hcast]; exact hlt) hnone false
          rw [hcast] at hcreate
          exact hcreate
        · simpa using hlt
      · simp only [ends_pure, ends_bind]
        refine (fdClose_ends (s := k₁.answered) h0 hlt hslot).mono ?_ (fun _ _ => trivial)
        rintro _ k₂ rfl
        have hat : (k₁.answered.procs p).get (fd.toNat : ℕ) = some ⟨none, false⟩ := by
          rw [hcast]
          exact hslot
        have hclear := h₂.clear (p := p) (i := fd.toNat) (by rw [hcast]; exact hlt) hat
        rw [hcast] at hclear
        refine ⟨hclear, hgrown.files, hgrown.nextFile, ?_⟩
        intro q j hj
        by_cases hq : q = p
        · subst hq
          show ((Function.update k₁.procs q ((k₁.procs q).set fd none)) q).get j = _
          rw [Function.update_self, Process.get_set _ h0 hlt hj]
          by_cases hjf : j = fd
          · rw [if_pos hjf, hjf, hfree]
          · rw [if_neg hjf]
            exact hgrown.slots j hj (fun he => hjf (Option.some.inj he))
        · show ((Function.update k₁.procs p ((k₁.procs p).set fd none)) q).get j = _
          rw [Function.update_of_ne hq, hgrown.others q hq]

theorem Exact.flags (h : Exact k held) {i : ℕ} (hi : (i : ℤ) < (k.procs p).fdCap) {desc : Fd}
    (hget : (k.procs p).get i = some desc) (cloexec : Bool) :
    Exact (k.setProc p ((k.procs p).set i (some { desc with cloexec := cloexec }))) held := by
  have hself := Kernel.fileAt_set_self hi (some { desc with cloexec := cloexec })
  refine h.congr rfl rfl ?_
  intro a
  by_cases ha : a = .slot p i
  · subst ha
    have hat : k.fileAt p i = desc.file := Kernel.fileAt_of_get hget
    exact hself.trans hat.symm
  · exact Kernel.fileOf_set hi _ ha

theorem sysOpenat_exact (h : Exact k held) (cloexec : Bool) :
    (sysOpenat p cloexec).Ends env k (fun _ k' => Exact k' held) (fun _ => True) := by
  rw [sysOpenat, ends_bind]
  refine (fdAllocFile_exact h).imp ?_
  rintro r k₁ ⟨h₁, hr⟩
  cases r with
  | error e => exact h₁
  | ok fd =>
    have hcast : ((fd.toNat : ℕ) : ℤ) = fd := Int.toNat_of_nonneg hr.1
    simp only [ends_bind, ends_readSlot]
    refine ⟨fun _ => ?_, fun _ => trivial⟩
    cases hget : (k₁.procs p).get fd with
    | none => exact trivial
    | some desc =>
      simp only [ends_bind, ends_writeSlot, ends_pure]
      refine ⟨fun _ => ?_, fun _ => trivial⟩
      have hflags := h₁.flags (p := p) (i := fd.toNat) (by rw [hcast]; exact hr.2)
        (by rw [hcast]; exact hget) cloexec
      rw [hcast] at hflags
      exact hflags

theorem setFd_exact (h : Exact k held) (fd : ℤ) (arg : ℕ) :
    (setFd p fd arg).Ends env k (fun _ k' => Exact k' held) (fun _ => True) := by
  rw [setFd, ends_bind, ends_lookup]
  refine ⟨fun _ => trivial, fun _ _ => h, ?_⟩
  intro desc hopen hget
  dsimp only
  rw [ends_ite]
  refine ⟨fun _ => ?_, fun _ => h⟩
  simp only [ends_bind, ends_writeSlot, ends_pure]
  refine ⟨fun _ => ?_, fun _ => trivial⟩
  have hcast : ((fd.toNat : ℕ) : ℤ) = fd := Int.toNat_of_nonneg hopen.1
  have hflags := h.flags (p := p) (i := fd.toNat) (by rw [hcast]; exact hopen.2.1)
    (by rw [hcast]; exact hget) (decide (arg = 1))
  rw [hcast] at hflags
  exact hflags

theorem fdClose_exact (h : Exact k held) (fd : ℤ) :
    (fdClose p fd).Ends env k
      (fun _ k' => Exact k' held ∧
        ∀ j, 0 ≤ j → (k'.procs p).get j = if j = fd then none else (k.procs p).get j)
      (fun _ => True) := by
  by_cases hfd : 0 ≤ fd ∧ fd < (k.procs p).fdCap
  · cases hget : (k.procs p).get fd with
    | none =>
      rw [fdClose, ends_bind, ends_readSlot, hget]
      exact ⟨fun _ => trivial, fun _ => trivial⟩
    | some desc =>
      refine (fdClose_ends hfd.1 hfd.2 hget).mono ?_ (fun _ _ => trivial)
      rintro _ k' rfl
      have hcast : ((fd.toNat : ℕ) : ℤ) = fd := Int.toNat_of_nonneg hfd.1
      have hclear := h.clear (p := p) (i := fd.toNat) (by rw [hcast]; exact hfd.2)
        (by rw [hcast]; exact hget)
      rw [hcast] at hclear
      refine ⟨hclear, ?_⟩
      intro j hj
      rw [Kernel.setProc_procs, Function.update_self, Process.get_set _ hfd.1 hfd.2 hj]
  · rw [fdClose, ends_bind, ends_readSlot]
    exact ⟨fun h => absurd h hfd, fun _ => trivial⟩

theorem sysClose_exact (h : Exact k held) (fd : ℤ) :
    (sysClose p fd).Ends env k (fun _ k' => Exact k' held) (fun _ => True) := by
  rw [sysClose, ends_bind, ends_lookup]
  refine ⟨fun _ => trivial, fun _ _ => h, ?_⟩
  intro desc _ _
  simp only [ends_bind, ends_pure]
  exact (fdClose_exact h fd).imp (fun _ k' h' => h'.1)

theorem closeIf_exact (h : Exact k held) (cond : Fd → Bool) (fd : ℤ) :
    (closeIf p cond fd).Ends env k
      (fun _ k' => Exact k' held ∧ ∀ j, 0 ≤ j → (k'.procs p).get j =
        if j = fd ∧ ((k.procs p).get fd).any cond then none else (k.procs p).get j)
      (fun _ => True) := by
  rw [closeIf, ends_bind, ends_readSlot]
  refine ⟨fun _ => ?_, fun _ => trivial⟩
  cases hget : (k.procs p).get fd with
  | none => exact ⟨h, fun _ _ => by simp⟩
  | some desc =>
    dsimp only
    rw [ends_ite]
    refine ⟨fun hcond => ?_, fun hcond => ⟨h, fun j _ => by simp [hcond]⟩⟩
    refine (fdClose_exact h fd).imp ?_
    rintro _ k' ⟨h', hslots⟩
    refine ⟨h', ?_⟩
    intro j hj
    rw [hslots j hj]
    simp [hcond]

theorem closeOnExec_exact (h : Exact k held) :
    (closeOnExec p).Ends env k (fun _ k' => Exact k' held) (fun _ => True) := by
  rw [closeOnExec, ends_bind, ends_getProc]
  refine Ends.forEach (I := fun _ k' => Exact k' held) _ h ?_
  intro fd l k' h'
  exact (closeIf_exact h' _ fd).imp (fun _ k'' h'' => h''.1)

omit [DecidableEq P] in
theorem Process.mem_indices (proc : Process) {i : ℕ} :
    (i : ℤ) ∈ proc.indices ↔ (i : ℤ) < proc.fdCap := by
  simp [Process.indices, Process.fdCap]

omit [DecidableEq P] in
theorem Process.get_of_notMem (proc : Process) {i : ℕ} (h : (i : ℤ) ∉ proc.indices) :
    proc.get i = none := by
  rw [Process.mem_indices, not_lt] at h
  exact Process.get_of_le _ h

theorem Exact.replace (h : Exact k held) (hnone : ∀ i : ℕ, k.fileAt p i = none) {proc : Process}
    (hproc : ∀ i : ℕ, proc.get i = none) : Exact (k.setProc p proc) held := by
  refine h.congr rfl rfl ?_
  intro a
  cases a with
  | call t j => rfl
  | slot q i =>
    show (k.setProc p proc).fileAt q i = k.fileAt q i
    by_cases hq : q = p
    · subst hq
      rw [hnone i, Kernel.fileAt, Kernel.setProc_procs, Function.update_self, hproc i]
      rfl
    · rw [Kernel.fileAt, Kernel.setProc_procs, Function.update_of_ne hq]
      rfl

theorem closeAll_exact (h : Exact k held) :
    (closeAll p).Ends env k (fun _ k' => Exact k' held) (fun _ => True) := by
  rw [closeAll, ends_bind, ends_getProc, ends_bind]
  have hloop : (forEach (closeIf p (fun _ => true)) (k.procs p).indices).Ends env k
      (fun _ k' => Exact k' held ∧ ∀ i : ℕ, (i : ℤ) ∈ ([] : List ℤ) ∨ (k'.procs p).get i = none)
      (fun _ => True) := by
    refine Ends.forEach (I := fun l k' => Exact k' held ∧
      ∀ i : ℕ, (i : ℤ) ∈ l ∨ (k'.procs p).get i = none) _ ⟨h, ?_⟩ ?_
    · intro i
      by_cases hi : (i : ℤ) ∈ (k.procs p).indices
      · exact Or.inl hi
      · exact Or.inr (Process.get_of_notMem _ hi)
    · rintro fd l k' ⟨h', hrest⟩
      refine (closeIf_exact h' _ fd).imp ?_
      rintro _ k'' ⟨h'', hslots⟩
      refine ⟨h'', ?_⟩
      intro i
      rw [hslots i (Int.natCast_nonneg i)]
      rcases hrest i with hmem | hnone
      · rcases List.mem_cons.mp hmem with hfd | hmem
        · refine Or.inr ?_
          rw [← hfd]
          cases (k'.procs p).get i with
          | none => simp
          | some desc => simp
        · exact Or.inl hmem
      · refine Or.inr ?_
        rw [hnone, ite_self]
  refine hloop.imp ?_
  rintro _ k' ⟨h', hnone⟩
  rw [ends_change]
  refine h'.replace ?_ ?_
  · intro i
    have hi := (hnone i).resolve_left (by simp)
    rw [Kernel.fileAt, hi]
    rfl
  · intro i
    rfl

theorem cloneSlot_exact (h : Exact k held) {old new : P} {fd : ℤ} (h0 : 0 ≤ fd)
    (hlt : fd < (k.procs new).fdCap) (hnone : k.fileAt new fd.toNat = none) :
    (cloneSlot old new fd).Ends env k
      (fun _ k' => Exact k' held ∧ (k'.procs new).fdCap = (k.procs new).fdCap ∧
        ∀ i : ℕ, (i : ℤ) ≠ fd → k'.fileAt new i = k.fileAt new i)
      (fun _ => True) := by
  have hcast : ((fd.toNat : ℕ) : ℤ) = fd := Int.toNat_of_nonneg h0
  rw [cloneSlot, ends_bind, ends_readSlot]
  refine ⟨fun _ => ?_, fun _ => trivial⟩
  cases hget : (k.procs old).get fd with
  | none => exact ⟨h, rfl, fun _ _ => rfl⟩
  | some oldDesc =>
    simp only [ends_bind, ends_kzalloc, ends_check]
    refine ⟨fun _ => ?_, fun _ => trivial⟩
    cases hf : oldDesc.file with
    | none => exact trivial
    | some f =>
      simp only [ends_bind, ends_fileRef, ends_writeSlot]
      refine ⟨fun _ => ?_, fun _ => trivial⟩
      have h₁ : Exact k.answered held := h.congr rfl rfl (fun _ => rfl)
      have hlive : k.fileOf held (Holder.slot old fd.toNat : Holder P T) = some f := by
        show k.fileAt old fd.toNat = some f
        rw [Kernel.fileAt, hcast, hget]
        exact hf
      have hdesc : oldDesc = ⟨some f, oldDesc.cloexec⟩ := by
        rw [← hf]
      have hfill := h₁.fill (p := new) (i := fd.toNat) (f := f) (by rw [hcast]; exact hlt) hnone
        (h.refcnt_pos hlive).ne' oldDesc.cloexec
      rw [hcast, ← hdesc] at hfill
      refine ⟨hfill, ?_, ?_⟩
      · rw [Kernel.setProc_procs, Function.update_self, Process.fdCap_set]
        rfl
      · intro i hi
        have hset := Kernel.fileAt_set (k := k) h0 hlt (some oldDesc) new i
        rw [if_neg (fun hand => hi hand.2)] at hset
        exact hset

/-- **`fd_clone`** takes a reference for each descriptor of the new process. -/
theorem fdClone_exact (h : Exact k held) {old new : P} (hnew : (k.procs new).fds = none) :
    (fdClone old new).Ends env k (fun _ k' => Exact k' held) (fun _ => True) := by
  have hempty : ∀ i : ℕ, k.fileAt new i = none := by
    intro i
    rw [Kernel.fileAt, Process.get, hnew]
    rfl
  have hblank : ∀ i : ℕ, (k.procs old).blank.get i = none := by
    intro i
    simp only [Process.get, Process.blank, Option.getD_some, List.getElem?_replicate]
    split
    · rfl
    · rfl
  rw [fdClone, ends_bind, ends_getProc, ends_bind, ends_kzalloc, ends_bind, ends_check]
  refine ⟨fun _ => ?_, fun _ => trivial⟩
  rw [ends_bind, ends_change]
  have h₁ : Exact (k.answered.setProc new (k.procs old).blank) held := by
    have h₀ : Exact k.answered held := h.congr rfl rfl (fun _ => rfl)
    exact h₀.replace hempty hblank
  have hcap : (k.procs old).blank.fdCap = (k.procs old).fdCap := by
    simp [Process.fdCap, Process.blank]
  have hlist : ∀ fd ∈ (k.procs old).indices, 0 ≤ fd ∧ fd < (k.procs old).fdCap := by
    intro fd hfd
    obtain ⟨i, hi, rfl⟩ := List.mem_map.mp hfd
    exact ⟨Int.natCast_nonneg i, Int.ofNat_lt.mpr (List.mem_range.mp hi)⟩
  have hnodup : (k.procs old).indices.Nodup :=
    List.nodup_range.map Nat.cast_injective
  -- the slots of the rounds still to come hold nothing
  refine (Ends.forEach (I := fun l k' => Exact k' held ∧
    (k'.procs new).fdCap = (k.procs old).fdCap ∧ l.Nodup ∧
    ∀ fd ∈ l, 0 ≤ fd ∧ fd < (k.procs old).fdCap ∧ k'.fileAt new fd.toNat = none)
    _ ⟨h₁, ?_, hnodup, ?_⟩ ?_).imp (fun _ k' h' => h'.1)
  · rw [Kernel.setProc_procs, Function.update_self, hcap]
  · intro fd hfd
    refine ⟨(hlist fd hfd).1, (hlist fd hfd).2, ?_⟩
    rw [Kernel.fileAt, Kernel.setProc_procs, Function.update_self, hblank]
    rfl
  · rintro fd l k' ⟨h', hcap', hnd, hl⟩
    obtain ⟨h0, hlt, hnone⟩ := hl fd List.mem_cons_self
    obtain ⟨hnotin, hnd'⟩ := List.nodup_cons.mp hnd
    refine (cloneSlot_exact h' h0 (by rw [hcap']; exact hlt) hnone).imp ?_
    rintro _ k'' ⟨h'', hcap'', hslots⟩
    refine ⟨h'', hcap''.trans hcap', hnd', ?_⟩
    intro fd' hfd'
    obtain ⟨h0', hlt', hnone'⟩ := hl fd' (List.mem_cons_of_mem _ hfd')
    refine ⟨h0', hlt', ?_⟩
    rw [hslots, hnone']
    rw [Int.toNat_of_nonneg h0']
    intro heq
    exact hnotin (heq ▸ hfd')

/-! ## Calls in progress -/

omit [DecidableEq P] in
/-- **`getfile_ref`**: a call takes a reference to the file of an open descriptor. -/
theorem getfileRef_exact (h : Exact k held) {t : T} {j : ℕ} (hj : held t j = none) (fd : ℤ)
    {g : ℕ → T → ℕ → Option ℕ} (hheld : ∀ f, g f t j = some f ∧
      ∀ (t' : T) (j' : ℕ), (t' ≠ t ∨ j' ≠ j) → g f t' j' = held t' j') :
    (getfileRef p fd).Ends env k
      (fun r k' => match r with
        | none => k' = k
        | some f => Exact k' (g f))
      (fun _ => True) := by
  rw [getfileRef, ends_bind, ends_lookup]
  refine ⟨fun _ => trivial, fun _ _ => rfl, ?_⟩
  intro desc hopen hget
  dsimp only
  cases hf : desc.file with
  | none => exact trivial
  | some f =>
    simp only [ends_bind, ends_fileRef, ends_pure]
    have hlive : k.fileOf held (Holder.slot p fd.toNat : Holder P T) = some f := by
      show k.fileAt p fd.toNat = some f
      rw [Kernel.fileAt, Int.toNat_of_nonneg hopen.1, hget]
      exact hf
    refine h.ref (a := .call t j) hj (h.refcnt_pos hlive).ne' rfl rfl (hheld f).1 ?_
    intro b hb
    cases b with
    | slot q i => rfl
    | call t' j' =>
      refine (hheld f).2 t' j' ?_
      by_contra hno
      rw [not_or, not_not, not_not] at hno
      exact hb (by rw [hno.1, hno.2])

end

end FileTable
