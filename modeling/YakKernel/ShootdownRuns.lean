/-
# Stale translations, in every run

In every run `mapped_on` has each processor whose root is loaded, except while the processor is
opening the page table; and no translation is stale after a shootdown, if no word of the mask is
read meanwhile.
-/
import YakKernel.Shootdown

namespace Shootdown

set_option linter.unusedSectionVars false

variable {C P V I W : Type} {m : Machine C P I W} {s s' : State C P V I W} {c : C} {p : P}
  {v : V} {i : I}

/-! ## The invariant -/

/-- What holds at each place of `vm_map_activate`: the root and `current_map` of the processor, and
in which masks it is marked. -/
def Activation.Agrees (a : Activation P) (kernel root : P) (current : Option P)
    (marked : P → Bool) : Prop :=
  match a with
  | .idle => (current = some root ∨ (current = none ∧ root = kernel)) ∧
      ∀ p, marked p = true ↔ current = some p
  | .loaded old new => root = new ∧ current = old ∧ ∀ p, marked p = true ↔ old = some p
  | .stored old new => root = new ∧ current = some new ∧ ∀ p, marked p = true ↔ old = some p
  | .cleared new => root = new ∧ current = some new ∧ ∀ p, marked p = false

/-- The change of thread `i` is going to remove the translation of `v` from processor `c`. -/
structure State.Removes (m : Machine C P I W) (s : State C P V I W) (i : I) (c : C) (v : V)
    (ch : Change C P V W) : Prop where
  change : s.changes i = some ch
  pmap : ch.pmap = s.root c
  page : v ∈ ch.pages
  here : m.cpuOf i = c → v ∈ ch.unflushed
  there : m.cpuOf i ≠ c → match ch.phase with
    | .storing => True
    | .sending left todo => m.word c ∈ left ∨ c ∈ todo ∨ c ∈ ch.waiting

/-- **The invariant of the processors.** -/
def State.Marked (m : Machine C P I W) (s : State C P V I W) : Prop :=
  ∀ c, (s.activation c).Agrees m.kernel (s.root c) (s.current c) (fun p => s.mappedOn p c)

/-- **The invariant of the caches.** -/
structure State.Tracked (m : Machine C P I W) (s : State C P V I W) : Prop where
  present : ∀ c v pte, s.tlb c v = some pte → pte ≠ 0
  unflushed : ∀ i ch, s.changes i = some ch → ch.phase ≠ .storing → ch.unflushed = []
  removed : ∀ c v, s.Stale c v → ∃ i ch, s.Removes m i c v ch

/-! ## The masks -/

/-- The mask has a processor whose root is loaded, unless it is opening the page table. -/
theorem State.Marked.iff_not_opening (h : s.Marked m) (hroot : s.root c = p)
    (huser : p ≠ m.kernel) : s.mappedOn p c = true ↔ ¬ (s.activation c).Opening p := by
  have hc := h c
  cases ha : s.activation c with
  | idle =>
    rw [ha] at hc
    obtain ⟨hcur | ⟨_, hker⟩, hmarked⟩ := hc
    · have hin := (hmarked p).mpr (hcur.trans (congrArg some hroot))
      exact ⟨fun _ hno => hno, fun _ => hin⟩
    · exact absurd (hroot.symm.trans hker) huser
  | loaded old new =>
    rw [ha] at hc
    obtain ⟨hnew, _, hmarked⟩ := hc
    have hp : new = p := hnew.symm.trans hroot
    refine (hmarked p).trans ⟨fun hold hopen => hopen.2 hold, fun hno => ?_⟩
    by_contra hold
    exact hno ⟨hp, hold⟩
  | stored old new =>
    rw [ha] at hc
    obtain ⟨hnew, _, hmarked⟩ := hc
    have hp : new = p := hnew.symm.trans hroot
    refine (hmarked p).trans ⟨fun hold hopen => hopen.2 hold, fun hno => ?_⟩
    by_contra hold
    exact hno ⟨hp, hold⟩
  | cleared new =>
    rw [ha] at hc
    obtain ⟨hnew, _, hmarked⟩ := hc
    have hp : new = p := hnew.symm.trans hroot
    have hfalse : s.mappedOn p c = false := hmarked p
    rw [hfalse]
    exact ⟨fun hno => absurd hno Bool.false_ne_true, fun hno => absurd hp hno⟩

theorem State.Marked.root_of_opening (h : s.Marked m) (ho : (s.activation c).Opening p) :
    s.root c = p := by
  have hc := h c
  cases ha : s.activation c with
  | idle =>
    rw [ha] at ho
    exact ho.elim
  | loaded old new =>
    rw [ha] at hc ho
    exact hc.1.trans ho.1
  | stored old new =>
    rw [ha] at hc ho
    exact hc.1.trans ho.1
  | cleared new =>
    rw [ha] at hc ho
    exact hc.1.trans ho

section

variable [DecidableEq C]

theorem State.Marked.update (h : s.Marked m) (root : C → P) (current : C → Option P)
    (mappedOn : P → C → Bool) (c : C) (a : Activation P)
    (hself : a.Agrees m.kernel (root c) (current c) (fun p => mappedOn p c))
    (hother : ∀ c', c' ≠ c → root c' = s.root c' ∧ current c' = s.current c' ∧
      ∀ p, mappedOn p c' = s.mappedOn p c') :
    ({ s with
      root := root
      current := current
      mappedOn := mappedOn
      activation := Function.update s.activation c a } : State C P V I W).Marked m := by
  intro c'
  show (Function.update s.activation c a c').Agrees m.kernel (root c') (current c')
    (fun p => mappedOn p c')
  by_cases hc : c' = c
  · rw [hc, Function.update_self]
    exact hself
  · obtain ⟨hroot, hcurrent, hmapped⟩ := hother c' hc
    rw [Function.update_of_ne hc, hroot, hcurrent, funext hmapped]
    exact h c'

variable [DecidableEq P]

theorem State.setMapped_apply (s : State C P V I W) (p p' : P) (c c' : C) (b : Bool) :
    (s.setMapped p c b).mappedOn p' c' = if p' = p ∧ c' = c then b else s.mappedOn p' c' := by
  rw [State.setMapped_mappedOn]
  by_cases hp : p' = p
  · subst hp
    rw [Function.update_self]
    by_cases hc : c' = c
    · rw [hc, Function.update_self, if_pos ⟨rfl, rfl⟩]
    · rw [Function.update_of_ne hc, if_neg (fun hand => hc hand.2)]
  · rw [Function.update_of_ne hp, if_neg (fun hand => hp hand.1)]

/-! ## The steps of `vm_map_activate` -/

theorem State.clearOld_apply (s : State C P V I W) (c c' : C) (old : Option P) (p : P) :
    (s.clearOld c old).mappedOn p c' =
      if old = some p ∧ c' = c then false else s.mappedOn p c' := by
  cases old with
  | none => rw [if_neg (fun hand => by cases hand.1), State.clearOld]
  | some q =>
    rw [State.clearOld, State.setMapped_apply]
    by_cases hp : p = q
    · subst hp
      by_cases hc : c' = c
      · rw [if_pos ⟨rfl, hc⟩, if_pos ⟨rfl, hc⟩]
      · rw [if_neg (fun hand => hc hand.2), if_neg (fun hand => hc hand.2)]
    · rw [if_neg (fun hand => hp hand.1), if_neg (fun hand => hp (Option.some.inj hand.1).symm)]

theorem State.clearOld_frame (s : State C P V I W) (c : C) (old : Option P) :
    (s.clearOld c old).root = s.root ∧ (s.clearOld c old).current = s.current ∧
      (s.clearOld c old).activation = s.activation ∧ (s.clearOld c old).pte = s.pte ∧
      (s.clearOld c old).tlb = s.tlb ∧ (s.clearOld c old).changes = s.changes := by
  cases old with
  | none => exact ⟨rfl, rfl, rfl, rfl, rfl, rfl⟩
  | some q => exact ⟨rfl, rfl, rfl, rfl, rfl, rfl⟩

theorem State.Marked.activate [DecidableEq V] (h : s.Marked m) (hidle : s.activation c = .idle)
    (map : P) : (s.activate c map).Marked m := by
  have hc := h c
  rw [hidle] at hc
  obtain ⟨hcur, hmarked⟩ := hc
  rw [State.activate]
  by_cases hsame : s.current c = some map
  · rw [if_pos hsame]
    refine h.update s.root s.current s.mappedOn c _ ⟨?_, rfl, hmarked⟩
      (fun c' _ => ⟨rfl, rfl, fun _ => rfl⟩)
    rcases hcur with hcur | ⟨hcur, _⟩
    · rw [hsame] at hcur
      exact (Option.some.inj hcur).symm
    · rw [hsame] at hcur
      cases hcur
  · rw [if_neg hsame]
    refine h.update (Function.update s.root c map) s.current s.mappedOn c _
      ⟨Function.update_self _ _ _, rfl, hmarked⟩ ?_
    intro c' hc'
    exact ⟨Function.update_of_ne hc' _ _, rfl, fun _ => rfl⟩

theorem State.Marked.storeCurrent (h : s.Marked m) {old : Option P} {new : P}
    (ha : s.activation c = .loaded old new) :
    ({ s.setActivation c (.stored old new) with
      current := Function.update s.current c (some new) } : State C P V I W).Marked m := by
  have hc := h c
  rw [ha] at hc
  obtain ⟨hroot, _, hmarked⟩ := hc
  refine h.update s.root (Function.update s.current c (some new)) s.mappedOn c _
    ⟨hroot, Function.update_self _ _ _, hmarked⟩ ?_
  intro c' hc'
  exact ⟨rfl, Function.update_of_ne hc' _ _, fun _ => rfl⟩

theorem State.Marked.clearOld (h : s.Marked m) {old : Option P} {new : P}
    (ha : s.activation c = .stored old new) :
    ((s.clearOld c old).setActivation c (.cleared new)).Marked m := by
  have hc := h c
  rw [ha] at hc
  obtain ⟨hroot, hcurrent, hmarked⟩ := hc
  obtain ⟨fr, fc, fa, _, _, _⟩ := s.clearOld_frame c old
  have heq : (s.clearOld c old).setActivation c (.cleared new) =
      { s with
        root := s.root
        current := s.current
        mappedOn := (s.clearOld c old).mappedOn
        activation := Function.update s.activation c (.cleared new) } := by
    cases old with
    | none => rfl
    | some q => rfl
  rw [heq]
  refine h.update s.root s.current _ c _ ⟨hroot, hcurrent, ?_⟩ ?_
  · intro p
    show (s.clearOld c old).mappedOn p c = false
    rw [State.clearOld_apply]
    by_cases hold : old = some p
    · rw [if_pos ⟨hold, rfl⟩]
    · rw [if_neg (fun hand => hold hand.1)]
      rw [← Bool.not_eq_true]
      exact fun hm => hold ((hmarked p).mp hm)
  · intro c' hc'
    refine ⟨rfl, rfl, ?_⟩
    intro p
    rw [State.clearOld_apply, if_neg (fun hand => hc' hand.2)]

theorem State.Marked.setNew (h : s.Marked m) {new : P} (ha : s.activation c = .cleared new) :
    ((s.setMapped new c true).setActivation c .idle).Marked m := by
  have hc := h c
  rw [ha] at hc
  obtain ⟨hroot, hcurrent, hmarked⟩ := hc
  refine h.update s.root s.current (s.setMapped new c true).mappedOn c _ ⟨Or.inl ?_, ?_⟩ ?_
  · rw [hcurrent, hroot]
  · intro p
    show (s.setMapped new c true).mappedOn p c = true ↔ s.current c = some p
    rw [State.setMapped_apply, hcurrent, Option.some.injEq]
    by_cases hp : p = new
    · rw [if_pos ⟨hp, rfl⟩]
      exact ⟨fun _ => hp.symm, fun _ => rfl⟩
    · rw [if_neg (fun hand => hp hand.1)]
      have hfalse : s.mappedOn p c = false := hmarked p
      rw [hfalse]
      exact ⟨fun hno => absurd hno Bool.false_ne_true, fun hno => absurd hno.symm hp⟩
  · intro c' hc'
    refine ⟨rfl, rfl, ?_⟩
    intro p
    rw [State.setMapped_apply, if_neg (fun hand => hc' hand.2)]

/-- **Step lemma of the masks.** -/
theorem State.Marked.step [DecidableEq V] [DecidableEq I] [DecidableEq W] {e : Event C P V I W}
    (h : s.Marked m) (hs : step m s e = some s') : s'.Marked m := by
  cases e with
  | activate c map =>
    obtain ⟨hidle, hs⟩ := Option.ite_none_right_eq_some.mp hs
    rw [← Option.some.inj hs]
    exact h.activate hidle map
  | storeCurrent c =>
    simp only [Shootdown.step] at hs
    split at hs
    · rename_i old new ha
      rw [← Option.some.inj hs]
      exact h.storeCurrent ha
    · cases hs
  | clearOld c =>
    simp only [Shootdown.step] at hs
    split at hs
    · rename_i old new ha
      rw [← Option.some.inj hs]
      exact h.clearOld ha
    · cases hs
  | setNew c =>
    simp only [Shootdown.step] at hs
    split at hs
    · rename_i new ha
      rw [← Option.some.inj hs]
      exact h.setNew ha
    · cases hs
  | store i p v pte =>
    simp only [Shootdown.step] at hs
    split at hs
    · rw [← Option.some.inj hs]
      exact h
    · obtain ⟨_, hs⟩ := Option.ite_none_right_eq_some.mp hs
      rw [← Option.some.inj hs]
      exact h
  | mapFresh p v pte =>
    obtain ⟨_, hs⟩ := Option.ite_none_right_eq_some.mp hs
    rw [← Option.some.inj hs]
    exact h
  | invalidate i v =>
    obtain ⟨ch, _, rfl⟩ := Option.map_eq_some_iff.mp hs
    exact h
  | shootdown i =>
    obtain ⟨ch, _, hs⟩ := Option.bind_eq_some_iff.mp hs
    obtain ⟨_, hs⟩ := Option.ite_none_right_eq_some.mp hs
    split at hs
    · rw [← Option.some.inj hs]
      exact h
    · rw [← Option.some.inj hs]
      exact h
  | readWord i =>
    obtain ⟨ch, _, hs⟩ := Option.bind_eq_some_iff.mp hs
    split at hs
    · rw [← Option.some.inj hs]
      exact h
    · cases hs
  | send i =>
    obtain ⟨ch, _, hs⟩ := Option.bind_eq_some_iff.mp hs
    split at hs
    · rw [← Option.some.inj hs]
      exact h
    · cases hs
  | handle i c all =>
    obtain ⟨ch, _, hs⟩ := Option.bind_eq_some_iff.mp hs
    obtain ⟨_, hs⟩ := Option.ite_none_right_eq_some.mp hs
    rw [← Option.some.inj hs]
    exact h
  | finish i =>
    obtain ⟨ch, _, hs⟩ := Option.bind_eq_some_iff.mp hs
    obtain ⟨_, hs⟩ := Option.ite_none_right_eq_some.mp hs
    rw [← Option.some.inj hs]
    exact h
  | fill c v =>
    obtain ⟨_, hs⟩ := Option.ite_none_left_eq_some.mp hs
    rw [← Option.some.inj hs]
    exact h

/-! ## The steps of a change -/

theorem State.Removes.congr {ch : Change C P V W} (h : s.Removes m i c v ch)
    (hch : s'.changes i = s.changes i) (hroot : s'.root c = s.root c) : s'.Removes m i c v ch where
  change := hch.trans h.change
  pmap := h.pmap.trans hroot.symm
  page := h.page
  here := h.here
  there := h.there

theorem State.Tracked.of_stale (h : s.Tracked m) (hchanges : s'.changes = s.changes)
    (hpresent : ∀ c v pte, s'.tlb c v = some pte → pte ≠ 0)
    (hstale : ∀ c v, s'.Stale c v → s.Stale c v ∧ s'.root c = s.root c) : s'.Tracked m where
  present := hpresent
  unflushed := by
    rw [hchanges]
    exact h.unflushed
  removed := by
    intro c v hs
    obtain ⟨hold, hroot⟩ := hstale c v hs
    obtain ⟨i, ch, hr⟩ := h.removed c v hold
    exact ⟨i, ch, hr.congr (congrFun hchanges i) hroot⟩

/-- One change moves on: what is stale now it removes, or it was stale before and whoever removed
it still does. -/
theorem State.Tracked.moves (h : s.Tracked m) (i : I)
    (hother : ∀ i', i' ≠ i → s'.changes i' = s.changes i') (hroot : s'.root = s.root)
    (hpresent : ∀ c v pte, s'.tlb c v = some pte → pte ≠ 0)
    (hunflushed : ∀ ch, s'.changes i = some ch → ch.phase ≠ .storing → ch.unflushed = [])
    (hstale : ∀ c v, s'.Stale c v → (∃ ch, s'.Removes m i c v ch) ∨
      s.Stale c v ∧ ∀ ch, s.Removes m i c v ch → ∃ ch', s'.Removes m i c v ch') :
    s'.Tracked m where
  present := hpresent
  unflushed := by
    intro i' ch hch
    by_cases hi : i' = i
    · subst hi
      exact hunflushed ch hch
    · rw [hother i' hi] at hch
      exact h.unflushed i' ch hch
  removed := by
    intro c v hs
    rcases hstale c v hs with ⟨ch, hr⟩ | ⟨hold, hkeep⟩
    · exact ⟨i, ch, hr⟩
    · obtain ⟨i', ch', hr⟩ := h.removed c v hold
      by_cases hi : i' = i
      · subst hi
        obtain ⟨ch'', hr'⟩ := hkeep ch' hr
        exact ⟨i', ch'', hr'⟩
      · exact ⟨i', ch', hr.congr (hother i' hi) (congrFun hroot c)⟩

section

variable [DecidableEq I]

/-- A change moves on without an effect on the page tables and what is cached. -/
theorem State.Tracked.setChange (h : s.Tracked m) {ch : Change C P V W}
    {new : Option (Change C P V W)} (hch : s.changes i = some ch)
    (hunflushed : ∀ ch', new = some ch' → ch'.phase ≠ .storing → ch'.unflushed = [])
    (hremoves : ∀ c v, s.Stale c v → s.Removes m i c v ch →
      ∃ ch', (s.setChange i new).Removes m i c v ch') : (s.setChange i new).Tracked m := by
  refine h.moves i ?_ rfl h.present ?_ ?_
  · intro i' hi
    rw [State.setChange_changes, Function.update_of_ne hi]
  · intro ch' hch'
    rw [State.setChange_changes, Function.update_self] at hch'
    exact hunflushed ch' hch'
  · intro c v hs
    refine Or.inr ⟨hs, fun ch' hr => ?_⟩
    have hsame : ch' = ch := Option.some.inj (hr.change.symm.trans hch)
    rw [hsame] at hr
    exact hremoves c v hs hr

variable [DecidableEq V]

theorem State.setPte_apply (s : State C P V I W) (p p' : P) (v v' : V) (pte : ℕ) :
    (s.setPte p v pte).pte p' v' = if p' = p ∧ v' = v then pte else s.pte p' v' := by
  rw [State.setPte_pte]
  by_cases hp : p' = p
  · subst hp
    rw [Function.update_self]
    by_cases hv : v' = v
    · rw [hv, Function.update_self, if_pos ⟨rfl, rfl⟩]
    · rw [Function.update_of_ne hv, if_neg (fun hand => hv hand.2)]
  · rw [Function.update_of_ne hp, if_neg (fun hand => hp hand.1)]

/-- A store into a page table, by a change that has the page as one of its own and is still
storing. -/
theorem State.Tracked.store (h : s.Tracked m) {pte : ℕ} {ch : Change C P V W}
    (hpmap : ch.pmap = p) (hpage : v ∈ ch.pages) (hflush : v ∈ ch.unflushed)
    (hphase : ch.phase = .storing)
    (hkeep : ∀ c v' ch', s.Removes m i c v' ch' →
      ch'.pmap = p ∧ v' ∈ ch.pages ∧ (m.cpuOf i = c → v' ∈ ch.unflushed)) :
    ((s.setPte p v pte).setChange i (some ch)).Tracked m := by
  have hself : ((s.setPte p v pte).setChange i (some ch)).changes i = some ch :=
    Function.update_self _ _ _
  refine h.moves i ?_ rfl h.present ?_ ?_
  · intro i' hi
    exact Function.update_of_ne hi _ _
  · intro ch' hch' hsending
    rw [hself] at hch'
    rw [← Option.some.inj hch'] at hsending
    exact absurd hphase hsending
  · rintro c v' ⟨t, hcached, hne⟩
    change s.tlb c v' = some t at hcached
    change t ≠ (s.setPte p v pte).pte (s.root c) v' at hne
    rw [State.setPte_apply] at hne
    by_cases hhere : s.root c = p ∧ v' = v
    · obtain ⟨hroot, hv⟩ := hhere
      subst hv
      refine Or.inl ⟨ch, hself, hpmap.trans hroot.symm, hpage, fun _ => hflush, fun _ => ?_⟩
      rw [hphase]
      trivial
    · rw [if_neg hhere] at hne
      refine Or.inr ⟨⟨t, hcached, hne⟩, fun ch' hr => ?_⟩
      obtain ⟨hp', hpage', hflush'⟩ := hkeep c v' ch' hr
      refine ⟨ch, hself, hpmap.trans (hp'.symm.trans hr.pmap), hpage', hflush', fun _ => ?_⟩
      rw [hphase]
      trivial

theorem State.Tracked.mapFresh (h : s.Tracked m) {pte : ℕ} (hfree : s.pte p v = 0) :
    (s.setPte p v pte).Tracked m := by
  refine h.of_stale rfl h.present ?_
  rintro c v' ⟨t, hcached, hne⟩
  change s.tlb c v' = some t at hcached
  change t ≠ (s.setPte p v pte).pte (s.root c) v' at hne
  refine ⟨⟨t, hcached, ?_⟩, rfl⟩
  rw [State.setPte_apply] at hne
  by_cases hhere : s.root c = p ∧ v' = v
  · rw [hhere.1, hhere.2, hfree]
    exact h.present c v' t hcached
  · rw [if_neg hhere] at hne
    exact hne

theorem State.Tracked.invalidate (h : s.Tracked m) {ch : Change C P V W}
    (hch : s.changes i = some ch) :
    ((s.setTlb (m.cpuOf i) (Function.update (s.tlb (m.cpuOf i)) v none)).setChange i
      (some { ch with unflushed := ch.unflushed.filter (fun v' => v' ≠ v) })).Tracked m := by
  generalize hs' : (s.setTlb (m.cpuOf i) (Function.update (s.tlb (m.cpuOf i)) v none)).setChange i
    (some { ch with unflushed := ch.unflushed.filter (fun v' => v' ≠ v) }) = s'
  have hself : s'.changes i = some { ch with
      unflushed := ch.unflushed.filter (fun v' => v' ≠ v) } := by
    rw [← hs']
    exact Function.update_self _ _ _
  have hroot : s'.root = s.root := by rw [← hs']; rfl
  have hpte : s'.pte = s.pte := by rw [← hs']; rfl
  have hcached : ∀ c v' t, s'.tlb c v' = some t →
      s.tlb c v' = some t ∧ (m.cpuOf i = c → v' ≠ v) := by
    intro c v' t ht
    rw [← hs'] at ht
    change Function.update s.tlb (m.cpuOf i) (Function.update (s.tlb (m.cpuOf i)) v none) c v' =
      some t at ht
    by_cases hc : c = m.cpuOf i
    · subst hc
      rw [Function.update_self] at ht
      by_cases hv : v' = v
      · rw [hv, Function.update_self] at ht
        cases ht
      · rw [Function.update_of_ne hv] at ht
        exact ⟨ht, fun _ => hv⟩
    · rw [Function.update_of_ne hc] at ht
      exact ⟨ht, fun hno => absurd hno.symm hc⟩
  refine h.moves i ?_ hroot (fun c v' t ht => h.present c v' t (hcached c v' t ht).1) ?_ ?_
  · intro i' hi
    rw [← hs']
    exact Function.update_of_ne hi _ _
  · intro ch' hch' hsending
    rw [hself] at hch'
    rw [← Option.some.inj hch'] at hsending ⊢
    show ch.unflushed.filter (fun v' => v' ≠ v) = []
    rw [h.unflushed i ch hch hsending, List.filter_nil]
  · rintro c v' ⟨t, ht, hne⟩
    obtain ⟨hold, hv⟩ := hcached c v' t ht
    rw [hroot, hpte] at hne
    refine Or.inr ⟨⟨t, hold, hne⟩, fun ch' hr => ?_⟩
    have hsame : ch' = ch := Option.some.inj (hr.change.symm.trans hch)
    subst hsame
    refine ⟨_, hself, hr.pmap.trans (congrFun hroot c).symm, hr.page, fun hc => ?_, hr.there⟩
    exact List.mem_filter.mpr ⟨hr.here hc, decide_eq_true (hv hc)⟩

theorem State.Tracked.shootdown (h : s.Tracked m) {ch : Change C P V W}
    (hch : s.changes i = some ch) (hflushed : ch.unflushed = []) :
    (if m.cpus.length = 1 then s.setChange i none
      else s.setChange i (some { ch with phase := .sending m.words [] })).Tracked m := by
  by_cases hone : m.cpus.length = 1
  · rw [if_pos hone]
    refine h.setChange hch (fun ch' hno => by cases hno) ?_
    intro c v _ hr
    obtain ⟨c₀, hcpus⟩ := List.length_eq_one_iff.mp hone
    have hall : ∀ c', c' = c₀ := by
      intro c'
      have hin := m.mem_cpus c'
      rw [hcpus] at hin
      exact List.mem_singleton.mp hin
    have hin := hr.here ((hall _).trans (hall c).symm)
    rw [hflushed] at hin
    exact absurd hin List.not_mem_nil
  · rw [if_neg hone]
    refine h.setChange hch ?_ ?_
    · intro ch' hch' _
      rw [← Option.some.inj hch']
      exact hflushed
    · intro c v _ hr
      exact ⟨_, Function.update_self _ _ _, hr.pmap, hr.page, hr.here,
        fun _ => Or.inl (m.word_mem c)⟩

/-- A word of the mask is read: each processor of the word whose root is the page table is in the
mask, unless it is opening the page table. -/
theorem State.Tracked.readWord [DecidableEq W] (h : s.Tracked m) (hmarked : s.Marked m)
    {ch : Change C P V W} (hch : s.changes i = some ch) {w : W} {left : List W}
    (hphase : ch.phase = .sending (w :: left) [])
    (hsettled : ∀ c, c ≠ m.cpuOf i → m.word c = w → ¬ (s.activation c).Opening ch.pmap) :
    (s.setChange i (some { ch with phase := .sending left (s.targets m i ch.pmap w) })).Tracked
      m := by
  refine h.setChange hch ?_ ?_
  · intro ch' hch' _
    rw [← Option.some.inj hch']
    exact h.unflushed i ch hch (by rw [hphase]; exact fun hno => by cases hno)
  · intro c v _ hr
    refine ⟨_, Function.update_self _ _ _, hr.pmap, hr.page, hr.here, fun hc => ?_⟩
    have hplace := hr.there hc
    rw [hphase] at hplace
    show m.word c ∈ left ∨ c ∈ s.targets m i ch.pmap w ∨ c ∈ ch.waiting
    rcases hplace with hword | hno | hwaiting
    · rcases List.mem_cons.mp hword with hword | hword
      · refine Or.inr (Or.inl (List.mem_filter.mpr ⟨m.mem_cpus c, decide_eq_true ?_⟩))
        refine ⟨hword, ?_, Ne.symm hc⟩
        rw [State.bit]
        by_cases hker : ch.pmap = m.kernel
        · rw [decide_eq_true hker, Bool.true_or]
        · rw [(hmarked.iff_not_opening hr.pmap.symm hker).mpr
            (hsettled c (Ne.symm hc) hword), Bool.or_true]
      · exact Or.inl hword
    · exact absurd hno List.not_mem_nil
    · exact Or.inr (Or.inr hwaiting)

theorem State.Tracked.send (h : s.Tracked m) {ch : Change C P V W} (hch : s.changes i = some ch)
    {left : List W} {c : C} {todo : List C} (hphase : ch.phase = .sending left (c :: todo)) :
    (s.setChange i (some { ch with
      phase := .sending left todo
      waiting := c :: ch.waiting })).Tracked m := by
  refine h.setChange hch ?_ ?_
  · intro ch' hch' _
    rw [← Option.some.inj hch']
    exact h.unflushed i ch hch (by rw [hphase]; exact fun hno => by cases hno)
  · intro c' v _ hr
    refine ⟨_, Function.update_self _ _ _, hr.pmap, hr.page, hr.here, fun hc => ?_⟩
    have hplace := hr.there hc
    rw [hphase] at hplace
    show m.word c' ∈ left ∨ c' ∈ todo ∨ c' ∈ c :: ch.waiting
    rcases hplace with hword | htodo | hwaiting
    · exact Or.inl hword
    · rcases List.mem_cons.mp htodo with rfl | htodo
      · exact Or.inr (Or.inr List.mem_cons_self)
      · exact Or.inr (Or.inl htodo)
    · exact Or.inr (Or.inr (List.mem_cons_of_mem _ hwaiting))

theorem State.Tracked.handle (h : s.Tracked m) {ch : Change C P V W} (hch : s.changes i = some ch)
    (c : C) (all : Bool) :
    ((s.setTlb c (flushed (s.tlb c) ch.pages all)).setChange i
      (some { ch with waiting := ch.waiting.erase c })).Tracked m := by
  generalize hs' : (s.setTlb c (flushed (s.tlb c) ch.pages all)).setChange i
    (some { ch with waiting := ch.waiting.erase c }) = s'
  have hself : s'.changes i = some { ch with waiting := ch.waiting.erase c } := by
    rw [← hs']
    exact Function.update_self _ _ _
  have hroot : s'.root = s.root := by rw [← hs']; rfl
  have hpte : s'.pte = s.pte := by rw [← hs']; rfl
  have hcached : ∀ c' v t, s'.tlb c' v = some t →
      s.tlb c' v = some t ∧ (c' = c → v ∉ ch.pages) := by
    intro c' v t ht
    rw [← hs'] at ht
    change Function.update s.tlb c (flushed (s.tlb c) ch.pages all) c' v = some t at ht
    by_cases hc : c' = c
    · subst hc
      rw [Function.update_self, flushed] at ht
      by_cases hv : all ∨ v ∈ ch.pages
      · rw [if_pos hv] at ht
        cases ht
      · rw [if_neg hv] at ht
        exact ⟨ht, fun _ hin => hv (Or.inr hin)⟩
    · rw [Function.update_of_ne hc] at ht
      exact ⟨ht, fun hno => absurd hno hc⟩
  refine h.moves i ?_ hroot (fun c' v t ht => h.present c' v t (hcached c' v t ht).1) ?_ ?_
  · intro i' hi
    rw [← hs']
    exact Function.update_of_ne hi _ _
  · intro ch' hch' hsending
    rw [hself] at hch'
    rw [← Option.some.inj hch'] at hsending ⊢
    exact h.unflushed i ch hch hsending
  · rintro c' v ⟨t, ht, hne⟩
    obtain ⟨hold, hv⟩ := hcached c' v t ht
    rw [hroot, hpte] at hne
    refine Or.inr ⟨⟨t, hold, hne⟩, fun ch' hr => ?_⟩
    have hsame : ch' = ch := Option.some.inj (hr.change.symm.trans hch)
    subst hsame
    have hother : c' ≠ c := fun hc => hv hc hr.page
    refine ⟨_, hself, hr.pmap.trans (congrFun hroot c').symm, hr.page, hr.here, fun hc => ?_⟩
    have hplace := hr.there hc
    cases hphase : ch'.phase with
    | storing => trivial
    | sending left todo =>
      rw [hphase] at hplace
      rcases hplace with hword | htodo | hwaiting
      · exact Or.inl hword
      · exact Or.inr (Or.inl htodo)
      · exact Or.inr (Or.inr ((List.mem_erase_of_ne hother).mpr hwaiting))

theorem State.Tracked.finish (h : s.Tracked m) {ch : Change C P V W} (hch : s.changes i = some ch)
    (hphase : ch.phase = .sending [] []) (hwaiting : ch.waiting = []) :
    (s.setChange i none).Tracked m := by
  refine h.setChange hch (fun ch' hno => by cases hno) ?_
  intro c v _ hr
  exfalso
  by_cases hc : m.cpuOf i = c
  · have hin := hr.here hc
    rw [h.unflushed i ch hch (by rw [hphase]; exact fun hno => by cases hno)] at hin
    exact List.not_mem_nil hin
  · have hplace := hr.there hc
    rw [hphase, hwaiting] at hplace
    rcases hplace with hno | hno | hno
    · exact List.not_mem_nil hno
    · exact List.not_mem_nil hno
    · exact List.not_mem_nil hno

theorem State.Tracked.fill (h : s.Tracked m) (hpresent : s.pte (s.root c) v ≠ 0) :
    (s.setTlb c (Function.update (s.tlb c) v (some (s.pte (s.root c) v)))).Tracked m := by
  have hcached : ∀ c' v' t,
      Function.update s.tlb c (Function.update (s.tlb c) v (some (s.pte (s.root c) v))) c' v' =
        some t → s.tlb c' v' = some t ∨ t = s.pte (s.root c') v' ∧ t ≠ 0 := by
    intro c' v' t ht
    by_cases hc : c' = c
    · subst hc
      rw [Function.update_self] at ht
      by_cases hv : v' = v
      · subst hv
        rw [Function.update_self] at ht
        rw [← Option.some.inj ht]
        exact Or.inr ⟨rfl, hpresent⟩
      · rw [Function.update_of_ne hv] at ht
        exact Or.inl ht
    · rw [Function.update_of_ne hc] at ht
      exact Or.inl ht
  refine h.of_stale rfl ?_ ?_
  · intro c' v' t ht
    rcases hcached c' v' t ht with hold | ⟨_, hne⟩
    · exact h.present c' v' t hold
    · exact hne
  · rintro c' v' ⟨t, ht, hne⟩
    rcases hcached c' v' t ht with hold | ⟨heq, _⟩
    · exact ⟨⟨t, hold, hne⟩, rfl⟩
    · exact absurd heq hne

/-- The start of `vm_map_activate`: what was cached under the old root is lost. -/
theorem State.Tracked.activate (h : s.Tracked m) (c : C) (map : P) :
    (s.activate c map).Tracked m := by
  rw [State.activate]
  by_cases hsame : s.current c = some map
  · rw [if_pos hsame]
    exact h.of_stale rfl h.present (fun c' v hs => ⟨hs, rfl⟩)
  · rw [if_neg hsame]
    have hcached : ∀ c' v t, Function.update s.tlb c (fun _ => none) c' v = some t →
        s.tlb c' v = some t ∧ c' ≠ c := by
      intro c' v t ht
      by_cases hc : c' = c
      · rw [hc, Function.update_self] at ht
        cases ht
      · rw [Function.update_of_ne hc] at ht
        exact ⟨ht, hc⟩
    refine h.of_stale rfl (fun c' v t ht => h.present c' v t (hcached c' v t ht).1) ?_
    rintro c' v ⟨t, ht, hne⟩
    obtain ⟨hold, hc⟩ := hcached c' v t ht
    change t ≠ s.pte (Function.update s.root c map c') v at hne
    rw [Function.update_of_ne hc] at hne
    exact ⟨⟨t, hold, hne⟩, Function.update_of_ne hc _ _⟩

/-- **Step lemma of the caches.** -/
theorem State.Tracked.step [DecidableEq W] {e : Event C P V I W} (h : s.Tracked m)
    (hmarked : s.Marked m) (hsettled : Settled m s e) (hs : step m s e = some s') :
    s'.Tracked m := by
  cases e with
  | activate c map =>
    obtain ⟨_, hs⟩ := Option.ite_none_right_eq_some.mp hs
    rw [← Option.some.inj hs]
    exact h.activate c map
  | storeCurrent c =>
    simp only [Shootdown.step] at hs
    split at hs
    · rw [← Option.some.inj hs]
      exact h.of_stale rfl h.present (fun c' v hst => ⟨hst, rfl⟩)
    · cases hs
  | clearOld c =>
    simp only [Shootdown.step] at hs
    split at hs
    · rename_i old new ha
      rw [← Option.some.inj hs]
      cases old with
      | none => exact h.of_stale rfl h.present (fun c' v hst => ⟨hst, rfl⟩)
      | some q => exact h.of_stale rfl h.present (fun c' v hst => ⟨hst, rfl⟩)
    · cases hs
  | setNew c =>
    simp only [Shootdown.step] at hs
    split at hs
    · rw [← Option.some.inj hs]
      exact h.of_stale rfl h.present (fun c' v hst => ⟨hst, rfl⟩)
    · cases hs
  | store i p v pte =>
    simp only [Shootdown.step] at hs
    split at hs
    · rename_i hnone
      rw [← Option.some.inj hs]
      refine h.store rfl List.mem_cons_self List.mem_cons_self rfl ?_
      intro c v' ch' hr
      rw [hr.change] at hnone
      cases hnone
    · rename_i ch hch
      obtain ⟨⟨hp, hphase⟩, hs⟩ := Option.ite_none_right_eq_some.mp hs
      rw [← Option.some.inj hs]
      refine h.store hp List.mem_cons_self List.mem_cons_self hphase ?_
      intro c v' ch' hr
      have hsame : ch' = ch := Option.some.inj (hr.change.symm.trans hch)
      subst hsame
      exact ⟨hp, List.mem_cons_of_mem _ hr.page, fun hc => List.mem_cons_of_mem _ (hr.here hc)⟩
  | mapFresh p v pte =>
    obtain ⟨hfree, hs⟩ := Option.ite_none_right_eq_some.mp hs
    rw [← Option.some.inj hs]
    exact h.mapFresh hfree
  | invalidate i v =>
    obtain ⟨ch, hch, rfl⟩ := Option.map_eq_some_iff.mp hs
    exact h.invalidate hch
  | shootdown i =>
    obtain ⟨ch, hch, hs⟩ := Option.bind_eq_some_iff.mp hs
    obtain ⟨⟨_, hflushed⟩, hs⟩ := Option.ite_none_right_eq_some.mp hs
    rw [← apply_ite some] at hs
    rw [← Option.some.inj hs]
    exact h.shootdown hch hflushed
  | readWord i =>
    obtain ⟨ch, hch, hs⟩ := Option.bind_eq_some_iff.mp hs
    split at hs
    · rename_i w left hphase
      rw [← Option.some.inj hs]
      refine h.readWord hmarked hch hphase ?_
      intro c hc hword
      refine hsettled ch hch c (m.mem_cpus c) hc ?_
      rw [hphase, hword]
      rfl
    · cases hs
  | send i =>
    obtain ⟨ch, hch, hs⟩ := Option.bind_eq_some_iff.mp hs
    split at hs
    · rename_i left c todo hphase
      rw [← Option.some.inj hs]
      exact h.send hch hphase
    · cases hs
  | handle i c all =>
    obtain ⟨ch, hch, hs⟩ := Option.bind_eq_some_iff.mp hs
    obtain ⟨_, hs⟩ := Option.ite_none_right_eq_some.mp hs
    rw [← Option.some.inj hs]
    exact h.handle hch c all
  | finish i =>
    obtain ⟨ch, hch, hs⟩ := Option.bind_eq_some_iff.mp hs
    obtain ⟨⟨hphase, hwaiting⟩, hs⟩ := Option.ite_none_right_eq_some.mp hs
    rw [← Option.some.inj hs]
    exact h.finish hch hphase hwaiting
  | fill c v =>
    obtain ⟨hpresent, hs⟩ := Option.ite_none_left_eq_some.mp hs
    rw [← Option.some.inj hs]
    exact h.fill hpresent

end

/-! ## Every run -/

variable [DecidableEq V] [DecidableEq I] [DecidableEq W]

theorem State.Initial.marked (h : s.Initial m) : s.Marked m := by
  intro c
  rw [h.activation c]
  exact ⟨h.current c, fun p => h.mappedOn p c⟩

theorem State.Initial.tracked (h : s.Initial m) : s.Tracked m where
  present := by
    intro c v pte hcached
    rw [h.tlb c v] at hcached
    cases hcached
  unflushed := by
    intro i ch hch
    rw [h.changes i] at hch
    cases hch
  removed := by
    rintro c v ⟨pte, hcached, _⟩
    rw [h.tlb c v] at hcached
    cases hcached

/-- **Run lemma of the masks.** -/
theorem marked_of_reachable (h : (system V m).Reachable s) : s.Marked m := by
  refine h.invariant ?_ ?_
  · intro s₀ h₀
    exact State.Initial.marked h₀
  · intro s₁ e s₂ hI hs
    exact hI.step hs

/-- **Run lemma of the caches**, under the condition. -/
theorem tracked_of_reachable (h : (system V m).ReachableUnder (Settled m) s) :
    s.Marked m ∧ s.Tracked m := by
  refine @TransitionSystem.ReachableUnder.invariant _ _ (system V m) (Settled m)
    (fun s => s.Marked m ∧ s.Tracked m) ?_ ?_ s h
  · intro s₀ h₀
    exact ⟨State.Initial.marked h₀, State.Initial.tracked h₀⟩
  · rintro s₁ e s₂ ⟨hmarked, htracked⟩ hC hs
    exact ⟨hmarked.step hs, htracked.step hmarked hC hs⟩

/-- **When the masks are right.**  In every run, `mapped_on` of the user page tables has every
processor whose loaded root they are exactly while no processor is opening one. -/
theorem covers_iff (h : (system V m).Reachable s) :
    s.Covers m ↔ ∀ c p, p ≠ m.kernel → ¬ (s.activation c).Opening p := by
  have hmarked := marked_of_reachable h
  constructor
  · intro hcovers c p huser hopen
    have hroot := hmarked.root_of_opening hopen
    exact (hmarked.iff_not_opening hroot huser).mp (hcovers p c huser hroot) hopen
  · intro hno p c huser hroot
    exact (hmarked.iff_not_opening hroot huser).mpr (hno c p huser)

/-- **Masks and stale translations.**  If no word of a mask is read while another processor of the
word is opening the page table, no translation is stale after the shootdown; and the mask has every
processor whose root is loaded exactly while none is opening a user page table. -/
theorem shootdown_complete (h : (system V m).ReachableUnder (Settled m) s) :
    (s.Covers m ↔ ∀ c p, p ≠ m.kernel → ¬ (s.activation c).Opening p) ∧ s.NoneStale := by
  refine ⟨covers_iff h.reachable, ?_⟩
  intro c v hstale
  obtain ⟨i, ch, hr⟩ := (tracked_of_reachable h).2.removed c v hstale
  exact ⟨i, ch, hr.change, hr.pmap, hr.page⟩

/-! ## Two processors -/

/-- Two processors and a thread on one of them that unmaps the only page of a user page table. -/
def two : Machine Bool Bool Unit Unit where
  cpus := [false, true]
  mem_cpus := by decide
  word := fun _ => ()
  words := [()]
  word_mem := fun _ => List.mem_singleton.mpr rfl
  kernel := false
  cpuOf := fun _ => false

/-- The other processor runs on the user page table. -/
def twoInitial : State Bool Bool Unit Unit Unit where
  root := fun c => c
  current := fun c => some c
  activation := fun _ => .idle
  mappedOn := fun p c => decide (c = p)
  pte := fun _ _ => 1
  tlb := fun _ _ => none
  changes := fun _ => none

theorem twoInitial_initial : (system Unit two).init twoInitial where
  activation := fun _ => rfl
  current := fun _ => Or.inl rfl
  mappedOn := by decide
  tlb := fun _ _ => rfl
  changes := fun _ => rfl

/-- The page is unmapped while the other processor has its bit set: it is interrupted. -/
theorem shootdown_complete_two : ∃ s : State Bool Bool Unit Unit Unit,
    (system Unit two).ReachableUnder (Settled two) s ∧
    (s.root true = true ∧ s.tlb true () = none ∧ s.pte true () = 0 ∧ s.changes () = none) ∧
    (s.Covers two ↔ ∀ c p, p ≠ two.kernel → ¬ (s.activation c).Opening p) ∧ s.NoneStale := by
  obtain ⟨s, hs, hend⟩ := TransitionSystem.exists_reachableUnder_of_runUnder
    (C := Settled two) twoInitial_initial
    [.fill true (), .activate true true, .storeCurrent true, .clearOld true, .setNew true,
      .store () true () 0, .invalidate () (), .shootdown (), .readWord (), .send (),
      .handle () true false, .finish ()]
    (fun s => decide (s.root true = true ∧ s.tlb true () = none ∧ s.pte true () = 0 ∧
      s.changes () = none)) (by decide +kernel)
  exact ⟨s, hs, of_decide_eq_true hend, shootdown_complete hs⟩

/-- The processor activates its map again; between the clearing of its bit and the setting, the
page is unmapped, and the processor is not interrupted. -/
theorem reactivation_keeps_stale : ¬ ∀ s : State Bool Bool Unit Unit Unit,
    (system Unit two).Reachable s → s.Covers two ∧ s.NoneStale := by
  intro hall
  obtain ⟨s, hs, hend⟩ := TransitionSystem.exists_reachable_of_run twoInitial_initial
    [.fill true (), .activate true true, .storeCurrent true, .clearOld true,
      .store () true () 0, .invalidate () (), .shootdown (), .readWord (), .finish ()]
    (fun s => decide (s.root true = true ∧ s.tlb true () = some 1 ∧ s.pte true () = 0 ∧
      s.changes () = none)) (by decide +kernel)
  obtain ⟨hroot, hcached, hpte, hnone⟩ := of_decide_eq_true hend
  have hstale : s.Stale true () := by
    refine ⟨1, hcached, ?_⟩
    rw [hroot, hpte]
    exact Nat.one_ne_zero
  obtain ⟨i, ch, hch, _⟩ := (hall s hs).2 true () hstale
  rw [hnone] at hch
  cases hch

end

end Shootdown
