/-
# Interrupt slots

`core/irq/irq.c`: objects of drivers are put on the slots of interrupt vectors, several on one slot
when they may share it.  A call runs under `irq_lock` and is one step.  An object is put on a slot
once only: its place in the queue is in the object itself.
-/
import YakKernel.Roster
import YakKernel.Status
import YakKernel.TransitionSystem

namespace Irq

/-! ## Slots and objects -/

inductive Trigger where
  | any
  | edge
  | level
  deriving DecidableEq, Repr

inductive Polarity where
  | any
  | high
  | low
  deriving DecidableEq, Repr

/-- `struct pin_config` -/
structure PinConfig where
  trigger : Trigger
  polarity : Polarity
  deriving DecidableEq, Repr

/-- The flags of a call; nothing looks at `IRQ_FORCE`. -/
structure Flags where
  shareable : Bool
  moveable : Bool
  minIpl : Bool
  deriving DecidableEq, Repr

/-- `flags & (IRQ_SHAREABLE | IRQ_MOVEABLE)` -/
structure SlotFlags where
  shareable : Bool
  moveable : Bool
  deriving DecidableEq, Repr

def Flags.slotFlags (flags : Flags) : SlotFlags := ⟨flags.shareable, flags.moveable⟩

/-- `struct irq_slot` without its vector. -/
structure Slot (O : Type) where
  slotFlags : SlotFlags
  refcount : ℕ
  pinconf : PinConfig
  objs : List O

/-- The slots by vector, the slot of every object, and what was asked for it. -/
structure State (O : Type) where
  slots : ℕ → Slot O
  slot : O → Option ℕ
  flags : O → Flags
  pinconf : O → PinConfig

variable {O : Type} [DecidableEq O]

/-- `IRQ_SLOTS` -/
def irqSlots : ℕ := 224

/-- `IPL_TO_VEC` -/
def iplToVec (ipl : ℕ) : ℕ := 16 * ipl - 32

def iplClock : ℕ := 14
def iplHigh : ℕ := 15

/-- `pins_compatible` -/
def pinsCompatible (a b : PinConfig) : Bool :=
  (a.polarity = b.polarity || a.polarity = .any || b.polarity = .any) &&
    (a.trigger = b.trigger || b.trigger = .any || a.trigger = .any)

/-! ## The calls -/

/-- The tests of the loop of `irq_alloc_ipl`. -/
def State.passes (s : State O) (flags : Flags) (pinconf : PinConfig) (vec : ℕ) : Bool :=
  let slot := s.slots vec
  slot.refcount = 0 ||
    (slot.slotFlags.shareable && flags.shareable &&
      flags.moveable = slot.slotFlags.moveable && pinsCompatible slot.pinconf pinconf)

/-- One round of the loop of `irq_alloc_ipl`, with `min_count`. -/
def State.lessUsed (s : State O) (flags : Flags) (pinconf : PinConfig) (minCount : Option ℕ)
    (vec : ℕ) : Option ℕ :=
  if s.passes flags pinconf vec then
    match minCount with
    | none => some vec
    | some v => if (s.slots vec).refcount < (s.slots v).refcount then some vec else some v
  else minCount

/-- The loop. -/
def State.minCount (s : State O) (flags : Flags) (pinconf : PinConfig) (vecs : List ℕ) :
    Option ℕ :=
  vecs.foldl (s.lessUsed flags pinconf) none

/-- The end of both calls. -/
def State.attach (s : State O) (obj : O) (vec : ℕ) (flags : Flags) (pinconf : PinConfig) :
    State O where
  slots := Function.update s.slots vec
    { slotFlags := flags.slotFlags
      refcount := (s.slots vec).refcount + 1
      pinconf := pinconf
      objs := (s.slots vec).objs ++ [obj] }
  slot := Function.update s.slot obj (some vec)
  flags := Function.update s.flags obj flags
  pinconf := Function.update s.pinconf obj pinconf

/-- The vectors from `start` to `end`. -/
def vecs (start stop : ℕ) : List ℕ := List.range' start (stop - start)

/-- The vectors of one IPL. -/
def iplVecs (ipl : ℕ) : List ℕ := vecs (iplToVec ipl) (iplToVec ipl + 16)

/-- The vectors after `retry`: up to the clock's. -/
def retryVecs (ipl : ℕ) : List ℕ := vecs (iplToVec ipl) (iplToVec iplClock)

/-- `irq_alloc_ipl` -/
def irqAllocIpl (s : State O) (obj : O) (ipl : ℕ) (flags : Flags) (pinconf : PinConfig) :
    Status × State O :=
  match s.minCount flags pinconf (iplVecs ipl) with
  | some vec => (.success, s.attach obj vec flags pinconf)
  | none =>
    if flags.minIpl then
      match s.minCount flags pinconf (retryVecs ipl) with
      | some vec => (.success, s.attach obj vec flags pinconf)
      | none => (.noent, s)
    else (.noent, s)

/-- The tests of `irq_alloc_vec`. -/
def State.admits (s : State O) (flags : Flags) (pinconf : PinConfig) (vec : ℕ) : Bool :=
  let slot := s.slots vec
  slot.refcount = 0 ||
    (flags.shareable && slot.slotFlags.shareable && pinsCompatible slot.pinconf pinconf)

/-- `irq_alloc_vec` -/
def irqAllocVec (s : State O) (obj : O) (vec : ℕ) (flags : Flags) (pinconf : PinConfig) :
    Status × State O :=
  if s.admits flags pinconf vec then (.success, s.attach obj vec flags pinconf) else (.noent, s)

inductive Event (O : Type)
  | allocIpl (obj : O) (ipl : ℕ) (flags : Flags) (pinconf : PinConfig)
  | allocVec (obj : O) (vec : ℕ) (flags : Flags) (pinconf : PinConfig)

/-- A call for an object that is on no slot yet, within the bounds of `slots`. -/
def step (s : State O) : Event O → Option (State O)
  | .allocIpl obj ipl flags pinconf =>
    if s.slot obj = none ∧ 2 ≤ ipl ∧ ipl ≤ iplHigh then
      some (irqAllocIpl s obj ipl flags pinconf).2
    else none
  | .allocVec obj vec flags pinconf =>
    if s.slot obj = none ∧ vec < irqSlots then some (irqAllocVec s obj vec flags pinconf).2
    else none

/-- `irq_init` -/
def irqInit : State O where
  slots _ := ⟨⟨false, false⟩, 0, ⟨.any, .any⟩, []⟩
  slot _ := none
  flags _ := ⟨false, false, false⟩
  pinconf _ := ⟨.any, .any⟩

def system (O : Type) [DecidableEq O] : TransitionSystem (State O) (Event O) where
  init s := s = irqInit
  step := step

/-! ## The slot that is taken -/

variable {s : State O} {flags : Flags} {pinconf : PinConfig} {v w : ℕ} {obj : O}

/-- `v` is used less than `w`, or as much and comes first. -/
def State.Precedes (s : State O) (v w : ℕ) : Prop :=
  (s.slots v).refcount < (s.slots w).refcount ∨
    ((s.slots v).refcount = (s.slots w).refcount ∧ v ≤ w)

instance (s : State O) (v w : ℕ) : Decidable (s.Precedes v w) :=
  inferInstanceAs (Decidable (_ ∨ _))

omit [DecidableEq O] in
theorem State.precedes_refl (s : State O) (v : ℕ) : s.Precedes v v := Or.inr ⟨rfl, le_rfl⟩

omit [DecidableEq O] in
theorem State.Precedes.trans {u : ℕ} (h : s.Precedes u v) (h' : s.Precedes v w) :
    s.Precedes u w := by
  unfold State.Precedes at *
  omega

/-- The first of the least used slots among those that pass. -/
def State.IsLeast (s : State O) (flags : Flags) (pinconf : PinConfig) (vecs : List ℕ) (v : ℕ) :
    Prop :=
  v ∈ vecs ∧ s.passes flags pinconf v = true ∧
    ∀ w ∈ vecs, s.passes flags pinconf w = true → s.Precedes v w

/-- What the loop knows of the slots that it has seen. -/
structure State.Found (s : State O) (flags : Flags) (pinconf : PinConfig) (seen : List ℕ)
    (minCount : Option ℕ) : Prop where
  none : minCount = none → ∀ w ∈ seen, s.passes flags pinconf w = false
  some : ∀ v, minCount = some v → s.IsLeast flags pinconf seen v

omit [DecidableEq O] in
theorem State.Found.step {seen : List ℕ} {minCount : Option ℕ} {vec : ℕ}
    (h : s.Found flags pinconf seen minCount) (hseen : ∀ w ∈ seen, w < vec) :
    s.Found flags pinconf (seen ++ [vec]) (s.lessUsed flags pinconf minCount vec) := by
  unfold State.lessUsed
  by_cases hpass : s.passes flags pinconf vec = true
  · rw [if_pos hpass]
    cases minCount with
    | none =>
      refine ⟨by simp, ?_⟩
      rintro v hv
      obtain rfl := Option.some.inj hv
      refine ⟨by simp, hpass, ?_⟩
      intro w hw hwpass
      rcases List.mem_append.1 hw with hw | hw
      · rw [h.none rfl w hw] at hwpass
        simp at hwpass
      · rw [List.mem_singleton.1 hw]
        exact s.precedes_refl _
    | some v₀ =>
      obtain ⟨hmem, hpass₀, hleast⟩ := h.some v₀ rfl
      have hlt := hseen v₀ hmem
      by_cases hless : (s.slots vec).refcount < (s.slots v₀).refcount
      · simp only [if_pos hless]
        refine ⟨by simp, ?_⟩
        rintro v hv
        obtain rfl := Option.some.inj hv
        refine ⟨by simp, hpass, ?_⟩
        intro w hw hwpass
        rcases List.mem_append.1 hw with hw | hw
        · exact State.Precedes.trans (Or.inl hless) (hleast w hw hwpass)
        · rw [List.mem_singleton.1 hw]
          exact s.precedes_refl _
      · simp only [if_neg hless]
        refine ⟨by simp, ?_⟩
        rintro v hv
        obtain rfl := Option.some.inj hv
        refine ⟨List.mem_append_left _ hmem, hpass₀, ?_⟩
        intro w hw hwpass
        rcases List.mem_append.1 hw with hw | hw
        · exact hleast w hw hwpass
        · rw [List.mem_singleton.1 hw]
          unfold State.Precedes
          omega
  · rw [if_neg hpass]
    constructor
    · intro hnone w hw
      rcases List.mem_append.1 hw with hw | hw
      · exact h.none hnone w hw
      · rw [List.mem_singleton.1 hw]
        simpa using hpass
    · intro v hv
      obtain ⟨hmem, hpass₀, hleast⟩ := h.some v hv
      refine ⟨List.mem_append_left _ hmem, hpass₀, ?_⟩
      intro w hw hwpass
      rcases List.mem_append.1 hw with hw | hw
      · exact hleast w hw hwpass
      · rw [List.mem_singleton.1 hw] at hwpass
        exact absurd hwpass hpass

omit [DecidableEq O] in
theorem State.found_foldl (vecs : List ℕ) : ∀ (seen : List ℕ) (minCount : Option ℕ),
    (seen ++ vecs).Pairwise (· < ·) → s.Found flags pinconf seen minCount →
    s.Found flags pinconf (seen ++ vecs) (vecs.foldl (s.lessUsed flags pinconf) minCount) := by
  induction vecs with
  | nil =>
    intro seen minCount _ h
    rw [List.append_nil]
    exact h
  | cons vec vecs ih =>
    intro seen minCount hsorted h
    have hseen : ∀ w ∈ seen, w < vec := fun w hw =>
      (List.pairwise_append.1 hsorted).2.2 w hw vec List.mem_cons_self
    rw [List.append_cons] at hsorted ⊢
    exact ih _ _ hsorted (h.step hseen)

omit [DecidableEq O] in
/-- **The slot that is taken.** -/
theorem State.found_minCount {vecs : List ℕ} (hsorted : vecs.Pairwise (· < ·)) :
    s.Found flags pinconf vecs (s.minCount flags pinconf vecs) :=
  State.found_foldl vecs [] none hsorted ⟨by simp, by simp⟩

theorem pairwise_vecs (start stop : ℕ) : (vecs start stop).Pairwise (· < ·) :=
  List.pairwise_lt_range'

/-! ## What the slots keep -/

/-- The objects of a slot. -/
def State.objs (s : State O) (vec : ℕ) : List O := (s.slots vec).objs

/-- Two objects may be on one slot. -/
def State.MayShare (s : State O) (o o' : O) : Prop :=
  ((s.flags o).shareable = true ∧ (s.flags o').shareable = true) ∧
    pinsCompatible (s.pinconf o) (s.pinconf o') = true

/-- The objects of every slot, and how many they are; the slot has the flags and the pins of the
last one. -/
structure Inv (s : State O) : Prop where
  onSlot : Roster.Lists s.slot s.objs
  refcount : ∀ vec, (s.slots vec).refcount = (s.objs vec).length
  last : ∀ vec obj, (s.objs vec).getLast? = some obj →
    (s.slots vec).slotFlags = (s.flags obj).slotFlags ∧ (s.slots vec).pinconf = s.pinconf obj
  share : ∀ vec, (s.objs vec).Pairwise s.MayShare

theorem pinsCompatible_comm (a b : PinConfig) : pinsCompatible a b = pinsCompatible b a := by
  obtain ⟨trigger, polarity⟩ := a
  obtain ⟨trigger', polarity'⟩ := b
  cases trigger <;> cases trigger' <;> cases polarity <;> cases polarity' <;> rfl

instance (s : State O) : Std.Symm s.MayShare :=
  ⟨fun _ _ h => ⟨⟨h.1.2, h.1.1⟩, by rw [pinsCompatible_comm, h.2]⟩⟩

omit [DecidableEq O] in
theorem Inv.mayShare {vec : ℕ} (h : Inv s) {o o' : O} (ho : o ∈ s.objs vec) (ho' : o' ∈ s.objs vec)
    (hne : o ≠ o') : s.MayShare o o' :=
  (h.share vec).forall ho ho' hne

omit [DecidableEq O] in
theorem Inv.all_shareable {vec : ℕ} (h : Inv s)
    (hshare : (s.slots vec).slotFlags.shareable = true) :
    ∀ o ∈ s.objs vec, (s.flags o).shareable = true := by
  intro o ho
  obtain ⟨last, hlast⟩ : ∃ last, (s.objs vec).getLast? = some last := by
    cases hlast : (s.objs vec).getLast? with
    | none =>
      rw [List.getLast?_eq_none_iff] at hlast
      rw [hlast] at ho
      exact absurd ho List.not_mem_nil
    | some last => exact ⟨last, rfl⟩
  by_cases hol : o = last
  · rw [hol]
    rw [(h.last vec last hlast).1] at hshare
    exact hshare
  · exact (h.mayShare ho (List.mem_of_getLast? hlast) hol).1.1

/-- **A step.**  An object joins the objects of a slot when they may share it and the pins of all of
them are compatible. -/
theorem Inv.attach {vec : ℕ} (h : Inv s) (hobj : s.slot obj = none)
    (hshare : ∀ o ∈ s.objs vec, flags.shareable = true ∧ (s.flags o).shareable = true)
    (hpins : ∀ o ∈ s.objs vec, pinsCompatible (s.pinconf o) pinconf = true) :
    Inv (s.attach obj vec flags pinconf) := by
  have hobjs : (s.attach obj vec flags pinconf).objs =
      Function.update s.objs vec (s.objs vec ++ [obj]) := by
    funext v
    by_cases hv : v = vec
    · subst hv
      simp [State.objs, State.attach]
    · simp [State.objs, State.attach, hv]
  -- the objects that were there have what they had
  have hother : ∀ v, ∀ o ∈ s.objs v, o ≠ obj := by
    rintro v o ho rfl
    rw [h.onSlot.mem_list_iff, hobj] at ho
    simp at ho
  have hflags : ∀ v, ∀ o ∈ s.objs v, (s.attach obj vec flags pinconf).flags o = s.flags o :=
    fun v o ho => Function.update_of_ne (hother v o ho) _ _
  have hpinconf : ∀ v, ∀ o ∈ s.objs v,
      (s.attach obj vec flags pinconf).pinconf o = s.pinconf o :=
    fun v o ho => Function.update_of_ne (hother v o ho) _ _
  have hnew : (s.attach obj vec flags pinconf).flags obj = flags := Function.update_self ..
  have hnewpins : (s.attach obj vec flags pinconf).pinconf obj = pinconf :=
    Function.update_self ..
  constructor
  · rw [hobjs]
    exact h.onSlot.append hobj
  · intro v
    rw [hobjs]
    by_cases hv : v = vec
    · subst hv
      simp [State.attach, h.refcount v]
    · simp [State.attach, hv, h.refcount v]
  · intro v o hlast
    rw [hobjs] at hlast
    by_cases hv : v = vec
    · subst hv
      rw [Function.update_self, List.getLast?_concat] at hlast
      obtain rfl := Option.some.inj hlast
      rw [hnew, hnewpins]
      simp [State.attach]
    · rw [Function.update_of_ne hv] at hlast
      have hmem := List.mem_of_getLast? hlast
      rw [hflags v o hmem, hpinconf v o hmem]
      simp only [State.attach, Function.update_of_ne hv]
      exact h.last v o hlast
  · intro v
    rw [hobjs]
    have hshared : ∀ v, (s.objs v).Pairwise (s.attach obj vec flags pinconf).MayShare := by
      intro v
      refine (h.share v).imp_of_mem fun {o o'} ho ho' hoo' => ?_
      unfold State.MayShare
      rw [hflags v o ho, hflags v o' ho', hpinconf v o ho, hpinconf v o' ho']
      exact hoo'
    by_cases hv : v = vec
    · subst hv
      rw [Function.update_self]
      refine List.pairwise_append.2 ⟨hshared v, List.pairwise_singleton _ _, ?_⟩
      intro o ho o' ho'
      rw [List.mem_singleton.1 ho']
      unfold State.MayShare
      rw [hflags v o ho, hpinconf v o ho, hnew, hnewpins]
      exact ⟨⟨(hshare o ho).2, (hshare o ho).1⟩, hpins o ho⟩
    · rw [Function.update_of_ne hv]
      exact hshared v

omit [DecidableEq O] in
/-- The objects of a slot that is free or shareable may share it with a new one. -/
theorem Inv.shareable_of_passes {vec : ℕ} (h : Inv s)
    (hshare : (s.slots vec).refcount = 0 ∨
      (flags.shareable = true ∧ (s.slots vec).slotFlags.shareable = true)) :
    ∀ o ∈ s.objs vec, flags.shareable = true ∧ (s.flags o).shareable = true := by
  intro o ho
  rcases hshare with hzero | ⟨hnew, hslot⟩
  · rw [h.refcount, List.length_eq_zero_iff] at hzero
    rw [hzero] at ho
    exact absurd ho List.not_mem_nil
  · exact ⟨hnew, h.all_shareable hslot o ho⟩

/-! ## Calls -/

/-- The slot that `irq_alloc_ipl` takes: the first of the least used ones among those of the IPL, or
else among those after `retry`. -/
def State.Takes (s : State O) (ipl : ℕ) (flags : Flags) (pinconf : PinConfig) (vec : ℕ) : Prop :=
  s.IsLeast flags pinconf (iplVecs ipl) vec ∨
    ((∀ w ∈ iplVecs ipl, s.passes flags pinconf w = false) ∧ flags.minIpl = true ∧
      s.IsLeast flags pinconf (retryVecs ipl) vec)

/-- The new object is compatible with every object of the slot that it joins, and not only with the
last one. -/
def Careful (s : State O) : Event O → Prop
  | .allocIpl _ ipl flags pinconf => ∀ vec, s.Takes ipl flags pinconf vec →
      ∀ o ∈ s.objs vec, pinsCompatible (s.pinconf o) pinconf = true
  | .allocVec _ vec flags pinconf => s.admits flags pinconf vec = true →
      ∀ o ∈ s.objs vec, pinsCompatible (s.pinconf o) pinconf = true

omit [DecidableEq O] in
theorem State.passes_share {vec : ℕ} (h : s.passes flags pinconf vec = true) :
    (s.slots vec).refcount = 0 ∨
      (flags.shareable = true ∧ (s.slots vec).slotFlags.shareable = true) := by
  simp only [State.passes, Bool.or_eq_true, Bool.and_eq_true, decide_eq_true_eq] at h
  exact h.imp_right fun h => ⟨h.1.1.2, h.1.1.1⟩

omit [DecidableEq O] in
theorem State.admits_share {vec : ℕ} (h : s.admits flags pinconf vec = true) :
    (s.slots vec).refcount = 0 ∨
      (flags.shareable = true ∧ (s.slots vec).slotFlags.shareable = true) := by
  simp only [State.admits, Bool.or_eq_true, Bool.and_eq_true, decide_eq_true_eq] at h
  exact h.imp_right fun h => h.1

/-- `irq_alloc_ipl` puts the object on the slot that it takes, or finds none that passes. -/
theorem irqAllocIpl_cases (s : State O) (obj : O) (ipl : ℕ) (flags : Flags)
    (pinconf : PinConfig) :
    (∃ vec, s.Takes ipl flags pinconf vec ∧ s.passes flags pinconf vec = true ∧
      irqAllocIpl s obj ipl flags pinconf = (.success, s.attach obj vec flags pinconf)) ∨
    ((∀ w ∈ iplVecs ipl, s.passes flags pinconf w = false) ∧
      (flags.minIpl = true → ∀ w ∈ retryVecs ipl, s.passes flags pinconf w = false) ∧
      irqAllocIpl s obj ipl flags pinconf = (.noent, s)) := by
  have hfound : s.Found flags pinconf (iplVecs ipl) (s.minCount flags pinconf (iplVecs ipl)) :=
    State.found_minCount (pairwise_vecs _ _)
  have hretry : s.Found flags pinconf (retryVecs ipl) (s.minCount flags pinconf (retryVecs ipl)) :=
    State.found_minCount (pairwise_vecs _ _)
  unfold irqAllocIpl
  cases hfirst : s.minCount flags pinconf (iplVecs ipl) with
  | some vec =>
    have hleast := hfound.some vec hfirst
    exact Or.inl ⟨vec, Or.inl hleast, hleast.2.1, rfl⟩
  | none =>
    by_cases hmin : flags.minIpl = true
    · simp only [if_pos hmin]
      cases hsecond : s.minCount flags pinconf (retryVecs ipl) with
      | some vec =>
        have hleast := hretry.some vec hsecond
        exact Or.inl ⟨vec, Or.inr ⟨hfound.none hfirst, hmin, hleast⟩, hleast.2.1, rfl⟩
      | none => exact Or.inr ⟨hfound.none hfirst, fun _ => hretry.none hsecond, rfl⟩
    · simp only [if_neg hmin]
      exact Or.inr ⟨hfound.none hfirst, fun h => absurd h hmin, trivial⟩

/-- **What one call preserves.** -/
theorem Inv.step {s' : State O} {e : Event O} (h : Inv s) (hcareful : Careful s e)
    (hs : step s e = some s') : Inv s' := by
  cases e with
  | allocIpl obj ipl flags pinconf =>
    simp only [Irq.step] at hs
    by_cases hcall : s.slot obj = none ∧ 2 ≤ ipl ∧ ipl ≤ iplHigh
    · rw [if_pos hcall, Option.some.injEq] at hs
      subst hs
      rcases irqAllocIpl_cases s obj ipl flags pinconf with
        ⟨vec, htakes, hpass, hcall'⟩ | ⟨-, -, hcall'⟩
      · rw [hcall']
        exact h.attach hcall.1 (h.shareable_of_passes (State.passes_share hpass))
          (hcareful vec htakes)
      · rw [hcall']
        exact h
    · rw [if_neg hcall] at hs
      simp at hs
  | allocVec obj vec flags pinconf =>
    simp only [Irq.step] at hs
    by_cases hcall : s.slot obj = none ∧ vec < irqSlots
    · rw [if_pos hcall, Option.some.injEq] at hs
      subst hs
      unfold irqAllocVec
      by_cases hadmit : s.admits flags pinconf vec = true
      · rw [if_pos hadmit]
        exact h.attach hcall.1 (h.shareable_of_passes (State.admits_share hadmit))
          (hcareful hadmit)
      · rw [if_neg hadmit]
        exact h
    · rw [if_neg hcall] at hs
      simp at hs

theorem inv_of_reachable (h : (system O).ReachableUnder Careful s) : Inv s := by
  refine h.invariant ?_ fun s e s' hinv hcareful hs => hinv.step hcareful hs
  intro s hinit
  have hs : s = irqInit := hinit
  subst hs
  refine ⟨Roster.Lists.empty, fun _ => rfl, ?_, fun _ => List.Pairwise.nil⟩
  intro vec obj hlast
  simp [irqInit, State.objs] at hlast

/-! ## Slots that stay compatible -/

/-- The vectors that a call of `irq_alloc_ipl` may use. -/
def permittedVecs (ipl : ℕ) (flags : Flags) : List ℕ :=
  iplVecs ipl ++ if flags.minIpl then retryVecs ipl else []

/-- A slot is free, or the new object may share it with all that are on it. -/
def State.Usable (s : State O) (flags : Flags) (pinconf : PinConfig) (vec : ℕ) : Prop :=
  s.objs vec = [] ∨
    (flags.shareable = true ∧ flags.moveable = (s.slots vec).slotFlags.moveable ∧
      ∀ o ∈ s.objs vec, (s.flags o).shareable = true ∧
        pinsCompatible (s.pinconf o) pinconf = true)

/-- The slots are shared by compatible objects, and a call fails only when no slot is usable. -/
structure Compatible (s : State O) : Prop where
  refcount : ∀ vec, (s.objs vec).Nodup ∧ (s.slots vec).refcount = (s.objs vec).length
  slot : ∀ vec o, o ∈ s.objs vec ↔ s.slot o = some vec
  shareable : ∀ vec, ∀ o ∈ s.objs vec, ∀ o' ∈ s.objs vec, o ≠ o' →
    (s.flags o).shareable = true ∧ (s.flags o').shareable = true
  compatible : ∀ vec, ∀ o ∈ s.objs vec, ∀ o' ∈ s.objs vec, o ≠ o' →
    pinsCompatible (s.pinconf o) (s.pinconf o') = true
  noent : ∀ obj ipl flags pinconf, (irqAllocIpl s obj ipl flags pinconf).1 = .noent →
    ∀ vec ∈ permittedVecs ipl flags, ¬ s.Usable flags pinconf vec

omit [DecidableEq O] in
theorem Inv.passes_of_usable {vec : ℕ} (h : Inv s) (husable : s.Usable flags pinconf vec) :
    s.passes flags pinconf vec = true := by
  simp only [State.passes, Bool.or_eq_true, Bool.and_eq_true, decide_eq_true_eq]
  by_cases hempty : s.objs vec = []
  · left
    rw [h.refcount, hempty, List.length_nil]
  · right
    obtain ⟨hshare, hmove, hobjs⟩ := husable.resolve_left hempty
    obtain ⟨last, hlast⟩ := Option.ne_none_iff_exists'.1 (mt List.getLast?_eq_none_iff.1 hempty)
    obtain ⟨hflags, hpinconf⟩ := h.last vec last hlast
    obtain ⟨hlastShare, hlastPins⟩ := hobjs last (List.mem_of_getLast? hlast)
    rw [hpinconf]
    refine ⟨⟨⟨?_, hshare⟩, hmove⟩, hlastPins⟩
    rw [hflags]
    exact hlastShare

/-- **Shared slots stay compatible** in every run in which a new object is compatible with all the
objects of the slot that it joins. -/
theorem slots_compatible (s : State O) (h : (system O).ReachableUnder Careful s) :
    Compatible s := by
  have hinv := inv_of_reachable h
  refine ⟨fun vec => ⟨hinv.onSlot.nodup_list vec, hinv.refcount vec⟩,
    fun vec o => hinv.onSlot.mem_list_iff,
    fun vec o ho o' ho' hne => (hinv.mayShare ho ho' hne).1,
    fun vec o ho o' ho' hne => (hinv.mayShare ho ho' hne).2, ?_⟩
  intro obj ipl flags pinconf hnoent vec hvec husable
  have hpass := hinv.passes_of_usable husable
  rcases irqAllocIpl_cases s obj ipl flags pinconf with ⟨v, -, -, hcall⟩ | ⟨hfirst, hsecond, -⟩
  · rw [hcall] at hnoent
    simp at hnoent
  · rcases List.mem_append.1 hvec with hvec | hvec
    · rw [hfirst vec hvec] at hpass
      simp at hpass
    · by_cases hmin : flags.minIpl = true
      · rw [if_pos hmin] at hvec
        rw [hsecond hmin vec hvec] at hpass
        simp at hpass
      · rw [if_neg hmin] at hvec
        exact absurd hvec List.not_mem_nil

/-- Objects `0`, `1`, ... ask for vector 0 one after the other and allow others there. -/
def onVecZero (triggers : List Trigger) : List (Event ℕ) :=
  triggers.zipIdx.map fun t => .allocVec t.2 0 ⟨true, false, false⟩ ⟨t.1, .any⟩

/-- An object that does not care joins one that wants edges. -/
theorem slots_compatible_two : ∃ s : State ℕ, (system ℕ).ReachableUnder Careful s ∧
    s.objs 0 = [0, 1] ∧ Compatible s := by
  have hfirst : (system ℕ).ReachableUnder Careful
      (irqInit.attach 0 0 ⟨true, false, false⟩ ⟨.edge, .any⟩) := by
    refine .step (.init rfl) (e := .allocVec 0 0 ⟨true, false, false⟩ ⟨.edge, .any⟩) ?_ rfl
    intro _ o ho
    exact absurd ho List.not_mem_nil
  have hsecond : (system ℕ).ReachableUnder Careful
      ((irqInit.attach 0 0 ⟨true, false, false⟩ ⟨.edge, .any⟩).attach 1 0 ⟨true, false, false⟩
        ⟨.any, .any⟩) := by
    refine .step hfirst (e := .allocVec 1 0 ⟨true, false, false⟩ ⟨.any, .any⟩) ?_ rfl
    intro _ o ho
    rw [List.mem_singleton.1 ho]
    rfl
  exact ⟨_, hsecond, rfl, slots_compatible _ hsecond⟩

/-- An object that wants levels joins the two, of which one wants edges. -/
theorem slots_incompatible : ¬ ∀ s : State ℕ, (system ℕ).Reachable s → Compatible s := by
  intro h
  obtain ⟨s, hs, hobjs⟩ := TransitionSystem.exists_reachable_of_run
    (show (system ℕ).init irqInit from rfl) (onVecZero [.edge, .any, .level])
    (fun s => decide (s.objs 0 = [0, 1, 2] ∧
      pinsCompatible (s.pinconf 0) (s.pinconf 2) = false)) (by decide)
  obtain ⟨hlist, hpins⟩ := of_decide_eq_true hobjs
  have hcompat := (h s hs).compatible 0 0 (by simp [hlist]) 2 (by simp [hlist]) (by decide)
  rw [hpins] at hcompat
  simp at hcompat

end Irq
