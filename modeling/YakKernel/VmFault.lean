/-
# Faults respect the protection

Which faults on an entry of a user's map reach a failing assertion, and which rights the entry
of the page table has after the others.
-/
import YakKernel.VmLocks
import YakKernel.VmCarve
import YakKernel.VmMmioFault

namespace Vm

open Prog

/-! ## Rights -/

/-- `p` grants no right that `q` does not grant. -/
structure Prot.Within (p q : Prot) : Prop where
  read : p.read = true → q.read = true
  write : p.write = true → q.write = true
  execute : p.execute = true → q.execute = true
  user : p.user = true → q.user = true

theorem Prot.Within.refl (p : Prot) : p.Within p := ⟨id, id, id, id⟩

theorem Prot.Within.trans {p q r : Prot} (h : p.Within q) (h' : q.Within r) : p.Within r :=
  ⟨h'.read ∘ h.read, h'.write ∘ h.write, h'.execute ∘ h.execute, h'.user ∘ h.user⟩

theorem Prot.noWrite_within (p : Prot) : p.noWrite.Within p :=
  ⟨id, fun h => absurd h (by simp [Prot.noWrite]), id, id⟩

/-- The rights that a word in the page table grants: `ptePresent`, `pteWrite`, `pteNoExecute`
and `pteUser`, as the processor reads them. -/
def wordRights (w : Pmap.Pte) : Prot where
  read := w &&& Pmap.ptePresent ≠ 0
  write := w &&& Pmap.pteWrite ≠ 0
  execute := w &&& Pmap.pteNoExecute = 0
  user := w &&& Pmap.pteUser ≠ 0
  global := w &&& Pmap.pteGlobal ≠ 0

section Rights

variable {prot : Prot} {cache pg : ℕ}

theorem bits_and_of_low {mask : Pmap.Pte} (hmask : BitVec.ofNat 64 (pageToAddr pg) &&& mask = 0) :
    (⟨pageToAddr pg, prot, cache⟩ : Pte).bits &&& mask = flagBits prot cache &&& mask := by
  rw [Pte.bits, Pmap.pteMake_eq, BitVec.and_or_distrib_right, hmask]
  exact BitVec.or_zero

theorem pageToAddr_and_low {mask : Pmap.Pte} (hmask : mask.toNat < 2 ^ 12) :
    BitVec.ofNat 64 (pageToAddr pg) &&& mask = 0 := by
  apply BitVec.eq_of_toNat_eq
  rw [BitVec.toNat_and, BitVec.toNat_ofNat]
  show _ = 0
  apply Nat.eq_of_testBit_eq
  intro i
  rw [Nat.testBit_and, Nat.testBit_mod_two_pow, Nat.zero_testBit, pageToAddr,
    show pageSize = 2 ^ 12 from rfl, Nat.testBit_mul_two_pow]
  by_cases hi : 12 ≤ i
  · rw [Nat.testBit_lt_two_pow (hmask.trans_le (Nat.pow_le_pow_right (by omega) hi)),
      Bool.and_false]
  · simp [hi]

theorem flagBits_and {mask : Pmap.Pte} (hpwt : Pmap.ptePwt &&& mask = 0)
    (hpcd : Pmap.ptePcd &&& mask = 0) (hpat : Pmap.ptePat &&& mask = 0) :
    flagBits prot cache &&& mask = flagBits prot 3 &&& mask := by
  have hcache : Pmap.ptePatBits 0 (BitVec.ofNat 32 cache) &&& mask = 0 := by
    refine Pmap.ite_and_eq_zero (Pmap.or_and_eq_zero ?_ hpwt) (Pmap.ite_and_eq_zero hpwt
      (Pmap.ite_and_eq_zero BitVec.zero_and (Pmap.ite_and_eq_zero
        (Pmap.or_and_eq_zero hpwt hpwt) (Pmap.or_and_eq_zero hpcd hpwt))))
    exact hpat
  have hnone : Pmap.ptePatBits 0 (BitVec.ofNat 32 3) &&& mask = 0 := BitVec.zero_and
  unfold flagBits Pmap.pteFlags Pmap.pteMake
  simp only [BitVec.and_or_distrib_right, hcache, hnone]

/-- **The word grants what the protection grants**, where a protection that grants writing also
grants reading. -/
theorem wordRights_within (hprot : prot.write = true → prot.read = true) :
    (wordRights (⟨pageToAddr pg, prot, cache⟩ : Pte).bits).Within prot := by
  have hlow : ∀ mask : Pmap.Pte, mask.toNat < 2 ^ 12 → Pmap.ptePwt &&& mask = 0 →
      Pmap.ptePcd &&& mask = 0 → Pmap.ptePat &&& mask = 0 →
      (⟨pageToAddr pg, prot, cache⟩ : Pte).bits &&& mask = flagBits prot 3 &&& mask := by
    intro mask hmask hpwt hpcd hpat
    rw [bits_and_of_low (pageToAddr_and_low hmask), flagBits_and hpwt hpcd hpat]
  have hhigh : (⟨pageToAddr pg, prot, cache⟩ : Pte).bits &&& Pmap.pteNoExecute = 0 →
      flagBits prot 3 &&& Pmap.pteNoExecute = 0 := by
    intro h
    rw [Pte.bits, Pmap.pteMake_eq, BitVec.and_or_distrib_right] at h
    rw [← @flagBits_and _ cache _ (by decide) (by decide) (by decide)]
    exact (BitVec.or_eq_zero_iff.mp h).1
  have hpresent := hlow Pmap.ptePresent (by decide) (by decide) (by decide) (by decide)
  have hwrite := hlow Pmap.pteWrite (by decide) (by decide) (by decide) (by decide)
  have huser := hlow Pmap.pteUser (by decide) (by decide) (by decide) (by decide)
  have hall : ∀ r w x u g : Bool, (w = true → r = true) →
      (flagBits ⟨r, w, x, u, g⟩ 3 &&& Pmap.ptePresent ≠ 0 → r = true) ∧
      (flagBits ⟨r, w, x, u, g⟩ 3 &&& Pmap.pteWrite ≠ 0 → w = true) ∧
      (flagBits ⟨r, w, x, u, g⟩ 3 &&& Pmap.pteNoExecute = 0 → x = true) ∧
      (flagBits ⟨r, w, x, u, g⟩ 3 &&& Pmap.pteUser ≠ 0 → u = true) := by decide
  obtain ⟨r, w, x, u, g⟩ := prot
  obtain ⟨hr, hw, hx, hu⟩ := hall r w x u g hprot
  refine ⟨?_, ?_, ?_, ?_⟩
  · intro h
    rw [wordRights, decide_eq_true_eq, hpresent] at h
    exact hr h
  · intro h
    rw [wordRights, decide_eq_true_eq, hwrite] at h
    exact hw h
  · intro h
    rw [wordRights, decide_eq_true_eq] at h
    exact hx (hhigh h)
  · intro h
    rw [wordRights, decide_eq_true_eq, huser] at h
    exact hu h

end Rights

/-! ## Assertions and memory -/

/-- Allocations succeed from now on, and the page allocator hands out free pages, at each time
another one. -/
def Plenty (env : Env) (s : Vm) : Prop :=
  ∀ t, s.clock ≤ t → env.kmalloc t = true ∧ env.pmmAlloc t = some t ∧ (s.pages t).shares = 0

/-- An assertion fails for the reason `bad` alone; for this reason, and with memory, a call that
keeps its locks does not fail otherwise. -/
structure FailsFor (bad plenty : Prop) (e : Failure) : Prop where
  reason : e = .assertion → bad
  only : bad → plenty → e.Lawful → e = .assertion

section FailsFor

variable {bad plenty : Prop} {env : Env} {s s' : Vm} {m o a n offset : ℕ}

theorem FailsFor.waitsForOwn {l : Lock} : FailsFor bad plenty (.waitsForOwn l) :=
  ⟨nofun, fun _ _ h => absurd rfl (h.1 l)⟩

theorem FailsFor.notOwner {l : Lock} : FailsFor bad plenty (.notOwner l) :=
  ⟨nofun, fun _ _ h => absurd rfl (h.2 l)⟩

theorem FailsFor.assertion (h : bad) : FailsFor bad plenty .assertion :=
  ⟨fun _ => h, fun _ _ _ => rfl⟩

theorem FailsFor.of_not {e : Failure} (he : e ≠ .assertion) (h : bad → ¬ plenty) :
    FailsFor bad plenty e :=
  ⟨fun h' => absurd h' he, fun hbad hp => absurd hp (h hbad)⟩

/-- Only the pages and the locks differ. -/
structure SameHeap (s s' : Vm) : Prop where
  maps : s'.maps = s.maps
  objects : s'.objects = s.objects
  amaps : s'.amaps = s.amaps
  anons : s'.anons = s.anons
  heapNext : s'.heapNext = s.heapNext

theorem acquire_failsFor {l : Lock} {mode : LockMode} {Q : Unit → Vm → Prop}
    (h : Q () ((granted env s).setHeld l (some mode))) :
    (acquire l mode).Ends env s Q (FailsFor bad plenty) := by
  simp only [acquire, ends_bind, ends_getEnv, ends_getState, ends_check, ends_change]
  exact ⟨fun _ => h, fun _ => .waitsForOwn⟩

theorem release_failsFor {l : Lock} {mode : LockMode} {Q : Unit → Vm → Prop}
    (h : Q () (s.setHeld l none)) : (release l mode).Ends env s Q (FailsFor bad plenty) := by
  simp only [release, ends_bind, ends_getState, ends_check, ends_change]
  exact ⟨fun _ => h, fun _ => .notOwner⟩

theorem guardMutex_failsFor {α : Type} {l : Lock} {body : VmM α} {Q : α → Vm → Prop}
    (h : body.Ends env ((granted env s).setHeld l (some .exclusive))
      (fun r s' => Q r (s'.setHeld l none)) (FailsFor bad plenty)) :
    (guardMutex l body).Ends env s Q (FailsFor bad plenty) := by
  rw [guardMutex, ends_bind]
  refine acquire_failsFor ?_
  rw [ends_bind]
  refine h.imp ?_
  intro r s' hr
  rw [ends_bind]
  exact release_failsFor hr

theorem granted_same (hq : env.Undisturbed) {l : Lock} {mode : LockMode} :
    SameHeap s ((granted env s).setHeld l (some mode)) := by
  constructor
  all_goals
    show _ = _
    simp [hq _ _]

theorem plenty_granted (hq : env.Undisturbed) {l : Lock} {mode : LockMode}
    (h : Plenty env s) : Plenty env ((granted env s).setHeld l (some mode)) := by
  intro t ht
  have hclock : ((granted env s).setHeld l (some mode)).clock = s.clock + 1 := rfl
  have hpages : ((granted env s).setHeld l (some mode)).pages = s.pages := by
    simp [hq _ _]
  rw [hpages]
  exact h t (by omega)

/-! ## Pages and anons -/

theorem vmPagealloc_failsFor {vmobj : Option ℕ} (hp : plenty → Plenty env s) :
    (vmPagealloc vmobj offset).Ends env s
      (fun r s' => (r = none → ¬ plenty) ∧ (plenty → Plenty env s') ∧ SameHeap s s')
      (FailsFor bad plenty) := by
  have htick : SameHeap s s.tick := ⟨rfl, rfl, rfl, rfl, rfl⟩
  simp only [vmPagealloc, ends_bind, ends_getEnv, ends_getState, ends_change]
  cases halloc : env.pmmAlloc s.clock with
  | none =>
    have hno : ¬ plenty := by
      intro h
      obtain ⟨-, hpg, -⟩ := hp h s.clock le_rfl
      rw [halloc] at hpg
      cases hpg
    exact ⟨fun _ => hno, fun h => absurd h hno, htick⟩
  | some pg =>
    simp only [ends_bind, ends_check, ends_change, ends_pure]
    refine ⟨fun hfree => ⟨by simp, fun h => ?_, rfl, rfl, rfl, rfl, rfl⟩,
      fun hused => .of_not (by decide) (fun _ h => ?_)⟩
    · obtain ⟨-, hpg, -⟩ := hp h s.clock le_rfl
      rw [halloc] at hpg
      obtain rfl : pg = s.clock := Option.some_inj.mp hpg
      intro t ht
      have hclock : (s.tick.setPage s.clock ⟨1, vmobj, offset⟩).clock = s.clock + 1 := rfl
      rw [hclock] at ht
      obtain ⟨h1, h2, h3⟩ := hp h t (by omega)
      refine ⟨h1, h2, ?_⟩
      rw [setPage_pages, Function.update_of_ne (by omega)]
      exact h3
    · obtain ⟨-, hpg, hzero⟩ := hp h s.clock le_rfl
      rw [halloc] at hpg
      obtain rfl : pg = s.clock := Option.some_inj.mp hpg
      exact hused hzero

/-- **Looking a page up** fails the assertion of the pager where the offset is not that of a
page and no page is cached for it. -/
theorem vmLookuppage_failsFor (hq : env.Undisturbed) (hp : plenty → Plenty env s)
    (hbad : ¬ IsAligned offset → (s.objects o).memq.lookup offset = none → bad) :
    (vmLookuppage o offset).Ends env s
      (fun _ s' => (plenty → Plenty env s') ∧ s'.maps = s.maps ∧ s'.amaps = s.amaps ∧
        s'.anons = s.anons ∧ s'.heapNext = s.heapNext ∧
        (IsAligned offset ∨ (s.objects o).memq.lookup offset ≠ none))
      (FailsFor bad plenty) := by
  have hsame := @granted_same _ s hq (.object o) .exclusive
  have hp' : plenty → Plenty env ((granted env s).setHeld (.object o) (some .exclusive)) :=
    fun h => plenty_granted hq (hp h)
  unfold vmLookuppage
  refine guardMutex_failsFor ?_
  rw [ends_bind, ends_getState, hsame.objects]
  cases hcached : (s.objects o).memq.lookup offset with
  | some pg =>
    exact ⟨hp', hsame.maps, hsame.amaps, hsame.anons, hsame.heapNext,
      Or.inr (Option.some_ne_none pg)⟩
  | none =>
    simp only [anonPagerGet, ends_bind, ends_check]
    refine ⟨fun halign => ?_, fun halign => .assertion (hbad halign hcached)⟩
    refine (vmPagealloc_failsFor hp').imp ?_
    rintro (_ | pg) s₁ ⟨hnone, hp₁, h₁⟩
    · exact .of_not (by decide) (fun _ => hnone rfl)
    · simp only [ends_bind, pageZero, ends_change, ends_pure]
      exact ⟨hp₁, h₁.maps.trans hsame.maps, h₁.amaps.trans hsame.amaps,
        h₁.anons.trans hsame.anons, h₁.heapNext.trans hsame.heapNext, Or.inl halign⟩

theorem vmAnonCreate_failsFor {page : ℕ} (hp : plenty → Plenty env s) :
    (vmAnonCreate page offset).Ends env s
      (fun n s' => n = s.heapNext ∧ (plenty → Plenty env s') ∧
        s'.anons = Function.update s.anons n ⟨some page, offset, 1⟩)
      (FailsFor bad plenty) := by
  simp only [vmAnonCreate, kmalloc, ends_bind, ends_getEnv, ends_getState, ends_change, ends_ite,
    ends_pure, ends_fail]
  refine ⟨fun _ => ⟨trivial, fun h t ht => hp h t (by simp at ht; omega), rfl⟩,
    fun hfails => .of_not (by decide) (fun _ h => hfails ?_)⟩
  exact (hp h s.clock le_rfl).1

theorem vmAnonCopy_failsFor (hp : plenty → Plenty env s) (hpage : (s.anons n).page ≠ none) :
    (vmAnonCopy n).Ends env s
      (fun copied s' => copied = s.heapNext ∧
        ∃ dst, s'.anons = Function.update s.anons copied ⟨some dst, (s.anons n).offset, 1⟩)
      (FailsFor bad plenty) := by
  simp only [vmAnonCopy, ends_bind, ends_getState]
  cases hsrc : (s.anons n).page with
  | none => exact absurd hsrc hpage
  | some src =>
    simp only [ends_bind]
    refine (vmPagealloc_failsFor hp).imp ?_
    rintro (_ | dst) s₁ ⟨hnone, hp₁, h₁⟩
    · exact .of_not (by decide) (fun _ => hnone rfl)
    · simp only [ends_bind, memcpyPage, ends_change]
      refine (vmAnonCreate_failsFor (s := s₁.setData _ _) hp₁).imp ?_
      rintro copied s₂ ⟨rfl, -, hanons⟩
      exact ⟨h₁.heapNext, dst, by rw [hanons, setData_anons, h₁.anons]⟩

theorem vmAmapFillLocked_failsFor {backing : ℕ} (hp : plenty → Plenty env s)
    (hslot : s.slot a (amapIndex offset) = none) :
    (vmAmapFillLocked a offset backing).Ends env s
      (fun n s' => (plenty → Plenty env s') ∧ (s'.anons n).page ≠ none ∧
        (s'.anons n).refcnt = 1)
      (FailsFor bad plenty) := by
  simp only [vmAmapFillLocked, vmAmapLookup, lockedAmapLookup, ends_bind, if_true, ends_getState,
    hslot, ends_pure, ends_check]
  refine ⟨fun _ => (vmPagealloc_failsFor hp).imp ?_, fun h => absurd trivial h⟩
  rintro (_ | dst) s₁ ⟨hnone, hp₁, h₁⟩
  · exact .of_not (by decide) (fun _ => hnone rfl)
  · simp only [ends_bind, memcpyPage, ends_change]
    refine (vmAnonCreate_failsFor (s := s₁.setData _ _) hp₁).imp ?_
    rintro n s₂ ⟨rfl, hp₂, hanons⟩
    simp only [ends_pure]
    refine ⟨hp₂, ?_⟩
    show ((s₂.setSlot a _ _).anons _).page ≠ none ∧ ((s₂.setSlot a _ _).anons _).refcnt = 1
    rw [setSlot, setAmap_anons, hanons, Function.update_self]
    exact ⟨Option.some_ne_none dst, rfl⟩

/-! ## The paths of a fault -/

/-- An entry that grants no right beyond `prot` is in the page table. -/
def Installed (s : Vm) (m vpn : ℕ) (prot : Prot) : Prop :=
  ∃ pte, s.pte m vpn = some pte ∧ (wordRights pte.bits).Within prot

variable {prot p : Prot} {address cache pg : ℕ} {entry : MapEntry} {flags : FaultFlags}
  {panon : Option AmapIndex}

theorem pmapMap_failsFor (hbad : prot.read = false → bad) (hp : p.Within prot)
    (hread : p.read = prot.read) :
    (pmapMap m address (pageToAddr pg) p cache).Ends env s
      (fun _ s' => prot.read = true ∧ Installed s' m (address / pageSize) prot)
      (FailsFor bad plenty) := by
  simp only [pmapMap, ends_bind, ends_check, ends_change]
  refine ⟨fun hr => ?_, fun hr => .assertion (hbad ?_)⟩
  · refine ⟨hread ▸ hr, ⟨pageToAddr pg, p, cache⟩, ?_, ?_⟩
    · simp [Vm.pte]
    · exact (wordRights_within (fun _ => hr)).trans hp
  · rw [← hread]
    exact Bool.eq_false_iff.mpr hr

theorem breakCow_failsFor (hq : env.Undisturbed) (hp : plenty → Plenty env s)
    (hpage : (s.anons n).page ≠ none)
    (hn : (panon ≠ none ∧ n < s.heapNext) ∨ (s.anons n).refcnt = 1) :
    (breakCow a panon n pg prot flags).Ends env s
      (fun r _ => r.2.2.Within prot ∧ r.2.2.read = prot.read) (FailsFor bad plenty) := by
  simp only [breakCow, ends_bind, ends_getState, ends_ite, ends_pure]
  refine ⟨fun hshared => ⟨fun _ => ⟨prot.noWrite_within, rfl⟩,
    fun _ => ⟨fun _ => ?_, fun _ => ⟨.refl _, trivial⟩⟩⟩, fun _ => ⟨.refl _, trivial⟩⟩
  obtain ⟨hpanon, hlt⟩ : panon ≠ none ∧ n < s.heapNext := by
    rcases hn with hn | hn
    · exact hn
    · omega
  obtain ⟨i, rfl⟩ := Option.ne_none_iff_exists'.mp hpanon
  refine (vmAnonCopy_failsFor hp hpage).imp ?_
  rintro copied s₁ ⟨rfl, dst, hanons⟩
  have hother : s₁.anons n = s.anons n := by
    rw [hanons, Function.update_of_ne hlt.ne]
  -- the anon has another reference, so that it is not freed
  simp only [ends_bind, ends_change, vmAnonDeref, ends_getState, ends_ite, ends_pure]
  refine ⟨fun hlast => ?_, fun _ => release_failsFor (acquire_failsFor ?_)⟩
  · rw [setSlot, setAmap_anons, hother] at hlast
    omega
  have hcopied : ∀ anon : VmAnon,
      (((s₁.setSlot a i s.heapNext).setAnon n anon).anons s.heapNext).page = some dst := by
    intro anon
    rw [setAnon_anons, Function.update_of_ne hlt.ne', setSlot, setAmap_anons, hanons,
      Function.update_self]
  rw [(granted_same hq).anons, setHeld_anons, hcopied]
  exact ⟨.refl _, rfl⟩

theorem faultAnon_failsFor (hq : env.Undisturbed) (hp : plenty → Plenty env s)
    (hpage : (s.anons n).page ≠ none)
    (hn : (panon ≠ none ∧ n < s.heapNext) ∨ (s.anons n).refcnt = 1)
    (hbad : entry.protection.read = false → bad) :
    (faultAnon m a panon n address entry flags).Ends env s
      (fun _ s' => entry.protection.read = true ∧
        Installed s' m (address / pageSize) entry.protection)
      (FailsFor bad plenty) := by
  simp only [faultAnon, ends_bind, ends_getState]
  obtain ⟨pg, hpg⟩ := Option.ne_none_iff_exists'.mp hpage
  rw [hpg]
  simp only [ends_bind]
  refine (breakCow_failsFor hq hp hpage hn).imp ?_
  rintro ⟨n', pg', p⟩ s₁ ⟨hwithin, hread⟩
  refine (pmapMap_failsFor hbad hwithin hread).imp ?_
  intro _ s₂ h₂
  exact release_failsFor h₂

/-- The copy-on-write path: the page is that of the anon in the slot, or the object's. -/
theorem faultCow_failsFor (hq : env.Undisturbed) (hp : plenty → Plenty env s)
    (hanons : ∀ i n, s.slot a i = some n → (s.anons n).page ≠ none ∧ n < s.heapNext)
    (hbad : entry.protection.read = false → bad)
    (hoffset : s.slot a (amapIndex offset) = none → ¬ IsAligned offset →
      (s.objects o).memq.lookup offset = none → bad) :
    (faultCow m a o offset address entry flags).Ends env s
      (fun _ s' => entry.protection.read = true ∧
        Installed s' m (address / pageSize) entry.protection ∧
        (IsAligned offset ∨ (s.objects o).memq.lookup offset ≠ none ∨
          s.slot a (amapIndex offset) ≠ none))
      (FailsFor bad plenty) := by
  simp only [faultCow, vmAmapLookup, lockedAmapLookup, ends_bind, if_true, ends_getState]
  cases hslot : s.slot a (amapIndex offset) with
  | some n =>
    have hsame := @granted_same _ s hq (.anon n) .exclusive
    have hslot' : ((granted env s).setHeld (.anon n) (some .exclusive)).slot a
        (amapIndex offset) = some n := by
      rw [slot, hsame.amaps]
      exact hslot
    simp only [Bool.false_eq_true, if_false, ends_bind, ends_pure]
    refine acquire_failsFor ?_
    simp only [Option.bind_some, hslot']
    refine (faultAnon_failsFor hq (fun h => plenty_granted hq (hp h)) ?_
      (Or.inl ⟨Option.some_ne_none _, ?_⟩) hbad).imp
      (fun _ s' h => ⟨h.1, h.2, Or.inr (Or.inr (Option.some_ne_none _))⟩)
    · rw [hsame.anons]
      exact (hanons _ _ hslot).1
    · rw [hsame.heapNext]
      exact (hanons _ _ hslot).2
  | none =>
    simp only [Bool.false_eq_true, if_false, ends_pure, Option.bind_none, ends_bind]
    refine (vmLookuppage_failsFor hq hp (hoffset hslot)).imp ?_
    rintro pg s₁ ⟨hp₁, -, hamaps, -, -, hfound⟩
    have hfound' : IsAligned offset ∨ (s.objects o).memq.lookup offset ≠ none ∨
        (none : Option ℕ) ≠ none := hfound.imp_right Or.inl
    rw [ends_ite]
    refine ⟨fun _ => ?_, fun _ => ?_⟩
    · have hslot₁ : s₁.slot a (amapIndex offset) = none := by
        rw [slot, hamaps]
        exact hslot
      rw [ends_bind]
      refine (vmAmapFillLocked_failsFor hp₁ hslot₁).imp ?_
      rintro n s₂ ⟨hp₂, hpage, hrefcnt⟩
      have hsame := @granted_same _ s₂ hq (.anon n) .exclusive
      rw [ends_bind]
      refine acquire_failsFor ((faultAnon_failsFor hq (fun h => plenty_granted hq (hp₂ h)) ?_
        (Or.inr ?_) hbad).imp (fun _ s' h => ⟨h.1, h.2, hfound'⟩))
      · rw [hsame.anons]
        exact hpage
      · rw [hsame.anons]
        exact hrefcnt
    · exact (pmapMap_failsFor hbad entry.protection.noWrite_within rfl).imp
        (fun _ s' h => ⟨h.1, h.2, hfound'⟩)

/-- The page of the entry at an offset can be had: the offset is that of a page, or a page is
there already, in the object or in an anon. -/
def Backed (s : Vm) (entry : MapEntry) (offset : ℕ) : Prop :=
  IsAligned offset ∨
    (∃ o, entry.object = some o ∧ (s.objects o).memq.lookup offset ≠ none) ∨
    (entry.isCow = true ∧ ∃ a, entry.amap = some a ∧ s.slot a (amapIndex offset) ≠ none)

theorem faultObject_failsFor (hq : env.Undisturbed) (hp : plenty → Plenty env s)
    (hanons : ∀ a i n, s.slot a i = some n → (s.anons n).page ≠ none ∧ n < s.heapNext)
    (hobject : entry.object ≠ none) (hamap : entry.isCow = true → entry.amap ≠ none)
    (hbad : ¬ (entry.protection.read = true ∧ Backed s entry offset) → bad) :
    (faultObject m entry address offset flags).Ends env s
      (fun _ s' => entry.protection.read = true ∧ Backed s entry offset ∧
        Installed s' m (address / pageSize) entry.protection)
      (FailsFor bad plenty) := by
  have hread : entry.protection.read = false → bad := by
    intro h
    apply hbad
    rw [h]
    exact fun h' => absurd h'.1 Bool.false_ne_true
  obtain ⟨o, ho⟩ := Option.ne_none_iff_exists'.mp hobject
  simp only [faultObject, ho, ends_ite]
  refine ⟨fun hcow => ?_, fun hcow => ?_⟩
  · obtain ⟨a, ha⟩ := Option.ne_none_iff_exists'.mp (hamap hcow)
    have hsame := @granted_same _ s hq (.amap a) .exclusive
    have hslot : ∀ i, ((granted env s).setHeld (.amap a) (some .exclusive)).slot a i
        = s.slot a i := by
      intro i
      rw [slot, hsame.amaps, slot]
    simp only [ha]
    refine guardMutex_failsFor ((faultCow_failsFor (s := (granted env s).setHeld _ _) hq
      (fun h => plenty_granted hq (hp h)) ?_ hread ?_).imp ?_)
    · intro i n hi
      rw [hslot] at hi
      rw [hsame.anons, hsame.heapNext]
      exact hanons a i n hi
    · intro hempty halign hnone
      rw [hslot] at hempty
      rw [hsame.objects] at hnone
      apply hbad
      rintro ⟨-, h | ⟨o', ho', h⟩ | ⟨-, a', ha', h⟩⟩
      · exact halign h
      · rw [ho] at ho'
        obtain rfl := Option.some_inj.mp ho'
        exact h hnone
      · rw [ha] at ha'
        obtain rfl := Option.some_inj.mp ha'
        exact h hempty
    · rintro _ s' ⟨h1, h2, h3⟩
      rw [hslot, hsame.objects] at h3
      refine ⟨h1, ?_, h2⟩
      rcases h3 with h | h | h
      · exact Or.inl h
      · exact Or.inr (Or.inl ⟨o, ho, h⟩)
      · exact Or.inr (Or.inr ⟨hcow, a, ha, h⟩)
  · rw [ends_bind]
    refine (vmLookuppage_failsFor hq hp ?_).imp ?_
    · intro halign hnone
      apply hbad
      rintro ⟨-, h | ⟨o', ho', h⟩ | ⟨h, -⟩⟩
      · exact halign h
      · rw [ho] at ho'
        obtain rfl := Option.some_inj.mp ho'
        exact h hnone
      · exact hcow h
    · rintro pg s₁ ⟨-, -, -, -, -, hfound⟩
      refine (pmapMap_failsFor hread (.refl _) rfl).imp ?_
      rintro _ s' ⟨h1, h2⟩
      exact ⟨h1, hfound.imp_right (fun h => Or.inl ⟨o, ho, h⟩), h2⟩

theorem rwlockUpgradeToExclusive_failsFor (hq : env.Undisturbed) (hp : plenty → Plenty env s) :
    (rwlockUpgradeToExclusive m).Ends env s
      (fun _ s' => (plenty → Plenty env s') ∧ SameHeap s s') (FailsFor bad plenty) := by
  have htick : plenty → Plenty env s.tick := by
    intro h t ht
    have hclock : s.tick.clock = s.clock + 1 := rfl
    exact hp h t (by omega)
  simp only [rwlockUpgradeToExclusive, ends_bind, ends_getEnv, ends_getState, ends_change,
    ends_ite, ends_check]
  refine ⟨fun _ => ⟨fun _ => ⟨htick, rfl, rfl, rfl, rfl, rfl⟩, fun _ => .notOwner⟩, fun _ => ?_⟩
  refine release_failsFor (acquire_failsFor ⟨fun h => plenty_granted hq (htick h), ?_⟩)
  have hsame := @granted_same _ (s.tick.setHeld (.map m) none) hq (.map m) .exclusive
  exact ⟨hsame.maps, hsame.objects, hsame.amaps, hsame.anons, hsame.heapNext⟩

end FailsFor

/-! ## Faults of a user's map -/

/-- A map of a process, while the thread holds no lock: no devices, object entries with an
object and copy-on-write entries with an amap, entries at different addresses; the anons in the
slots of the amaps have pages. -/
structure UserMap (s : Vm) (m : ℕ) : Prop where
  noMmio : ∀ e ∈ s.tree m, e.type ≠ .mmio
  object : ∀ e ∈ s.tree m, e.type = .obj → e.object ≠ none
  amap : ∀ e ∈ s.tree m, e.type = .obj → e.isCow = true → e.amap ≠ none
  ptr : ∀ e ∈ s.tree m, ∀ e' ∈ s.tree m, e.ptr = e'.ptr → e = e'
  anons : ∀ a i n, s.slot a i = some n → (s.anons n).page ≠ none ∧ n < s.heapNext
  noMutex : NoMutex s.held
  unlocked : s.held (.map m) = none

/-- The offset in the backing of an entry that `vm_handle_fault` computes for an address. -/
def backingOffset (entry : MapEntry) (a : ℕ) : ℕ :=
  wadd (wsub (alignDown a) entry.base) entry.offset

section UserMap

variable {env : Env} {s : Vm} {m a : ℕ} {flags : FaultFlags} {entry : MapEntry}

theorem UserMap.fault (h : UserMap s m) (hq : env.Undisturbed)
    (hlookup : vmMapLookupEntryLocked (s.tree m) (alignDown a) = some entry)
    (htype : entry.type = .obj) (hflags : flags.write = true → entry.protection.write = true) :
    (vmHandleFault m a flags).Ends env s
      (fun rv s' => rv = .success ∧ entry.protection.read = true ∧
        Backed s entry (backingOffset entry a) ∧
        Installed s' m (alignDown a / pageSize) entry.protection)
      (FailsFor (¬ (entry.protection.read = true ∧ Backed s entry (backingOffset entry a)))
        (Plenty env s)) := by
  have hmem : entry ∈ s.tree m := List.mem_of_find?_eq_some hlookup
  have hsame := @granted_same _ s hq (.map m) .shared
  have htree : ((granted env s).setHeld (.map m) (some .shared)).tree m = s.tree m := by
    rw [tree, hsame.maps, tree]
  have hpermitted : (!entry.protection.write && flags.write) = false := by
    cases hw : flags.write
    · simp
    · simp [hflags hw]
  simp only [vmHandleFault, ends_bind]
  refine acquire_failsFor ?_
  simp only [ends_getState, htree, hlookup, htype, hpermitted, Bool.false_eq_true, if_false,
    ends_bind]
  refine (rwlockUpgradeToExclusive_failsFor hq (fun hp => plenty_granted hq hp)).imp ?_
  rintro _ s₁ ⟨hp₁, h₁⟩
  have htree₁ : s₁.tree m = s.tree m := by
    rw [tree, h₁.maps, hsame.maps, tree]
  have hfind : (s₁.tree m).find? (fun e => e.ptr = entry.ptr) = some entry := by
    rw [htree₁]
    cases hfind : (s.tree m).find? (fun e => e.ptr = entry.ptr) with
    | none => simpa using List.find?_eq_none.mp hfind entry hmem
    | some e =>
      have he := List.find?_some hfind
      rw [h.ptr e (List.mem_of_find?_eq_some hfind) entry hmem (by simpa using he)]
  have hslot : ∀ am i, s₁.slot am i = s.slot am i := by
    intro am i
    rw [slot, h₁.amaps, hsame.amaps, slot]
  have hbacked : Backed s₁ entry (backingOffset entry a)
      ↔ Backed s entry (backingOffset entry a) := by
    simp only [Backed, hslot, h₁.objects, hsame.objects]
  simp only [entryAt, ends_bind, ends_getEnv, ends_getState, hfind, ends_pure]
  refine (faultObject_failsFor hq hp₁ ?_ (h.object entry hmem htype) (h.amap entry hmem htype)
    ?_).imp ?_
  · intro am i n hi
    rw [hslot] at hi
    rw [h₁.anons, hsame.anons, h₁.heapNext, hsame.heapNext]
    exact h.anons am i n hi
  · rw [← hbacked]
    exact id
  · rintro _ s₂ ⟨hread, hb, hinst⟩
    exact release_failsFor ⟨trivial, hread, hbacked.mp hb, hinst⟩

end UserMap

end Vm
