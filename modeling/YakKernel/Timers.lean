/-
# Timers

`core/timer.c`: every processor has a heap of timers, ordered by their deadlines.  A section under
`timer_lock` and the lock of the timer is one step; between the two sections of `timer_uninstall`
and between the reading of the clock and the section of `timer_update` anything may happen.  The
root of a heap is any timer that none is earlier than.
-/
import YakKernel.TransitionSystem
import Mathlib.Tactic

namespace Timers

/-! ## Timers and heaps -/

/-- The states of a timer. -/
inductive TimerState where
  | unused
  | queued
  | canceled
  | fired
  deriving DecidableEq

/-- `struct timer`.  When it was installed last, for how long, and when it fired are recorded. -/
structure Timer (C : Type) where
  cpu : Option C
  deadline : ℕ
  state : TimerState
  signalCount : ℕ
  installedAt : ℕ
  nsDelta : ℕ
  firedAt : ℕ
  deriving DecidableEq

/-- Where a processor is in `timer_update`: not in it, about to read the clock, or with the time
it has read. -/
inductive Update where
  | idle
  | looping
  | read (currTime : ℕ)
  deriving DecidableEq

variable {T C U : Type}

/-- The clock, the timers, the heaps, the processors in `timer_update`, and the threads between
the sections of `timer_uninstall` with the timer and the processor they have read. -/
structure State (T C U : Type) where
  now : ℕ
  timers : T → Timer C
  heap : C → List T
  updates : C → Update
  uninstalls : U → Option (T × C)

/-- The steps.  `uninstall` is the first section of `timer_uninstall` and `remove` the second;
`readTime` and `expire` are a round of `timer_update`, with the root of the heap. -/
inductive Event (T C U : Type) where
  | tick (time : ℕ)
  | install (c : C) (timer : T) (nsDelta : ℕ)
  | uninstall (u : U) (timer : T)
  | remove (u : U)
  | reset (timer : T)
  | dpc (c : C)
  | readTime (c : C)
  | expire (c : C) (root : Option T)

/-! ## The steps -/

/-- The timer as `timer_init` leaves it. -/
def Timer.init : Timer C where
  cpu := none
  deadline := 0
  state := .unused
  signalCount := 0
  installedAt := 0
  nsDelta := 0
  firedAt := 0

/-- The timer as `timer_install` leaves it. -/
def Timer.installed (timer : Timer C) (c : C) (now nsDelta : ℕ) : Timer C :=
  { timer with
    cpu := some c
    state := .queued
    deadline := (now + nsDelta) % 2 ^ 64
    signalCount := 0
    installedAt := now
    nsDelta := nsDelta }

/-- The timer as `timer_uninstall` leaves it. -/
def Timer.uninstalled (timer : Timer C) : Timer C :=
  { timer with cpu := none, state := .canceled }

/-- The timer as `timer_update` leaves it. -/
def Timer.expired (timer : Timer C) (now : ℕ) : Timer C :=
  { timer with cpu := none, state := .fired, signalCount := 1, firedAt := now }

section

variable [DecidableEq T]

@[simps -fullyApplied]
def State.setTimer (s : State T C U) (t : T) (timer : Timer C) : State T C U :=
  { s with timers := Function.update s.timers t timer }

variable [DecidableEq C]

@[simps -fullyApplied]
def State.setHeap (s : State T C U) (c : C) (l : List T) : State T C U :=
  { s with heap := Function.update s.heap c l }

@[simps -fullyApplied]
def State.setUpdate (s : State T C U) (c : C) (u : Update) : State T C U :=
  { s with updates := Function.update s.updates c u }

/-- `timer_install`, on processor `c`; a timer that is installed already is busy. -/
def State.install (s : State T C U) (c : C) (t : T) (nsDelta : ℕ) : State T C U :=
  if (s.timers t).cpu.isSome then s
  else (s.setTimer t ((s.timers t).installed c s.now nsDelta)).setHeap c (t :: s.heap c)

/-- The second section of `timer_uninstall`: another processor may have got to the timer first. -/
def State.remove (s : State T C U) (t : T) (c : C) : State T C U :=
  if (s.timers t).cpu ≠ some c ∨ (s.timers t).state ≠ .queued then s
  else (s.setTimer t (s.timers t).uninstalled).setHeap c ((s.heap c).erase t)

/-- The section of `timer_update`: it returns, or takes the root. -/
def State.expire (s : State T C U) (c : C) (currTime : ℕ) (root : Option T) : State T C U :=
  match root with
  | none => s.setUpdate c .idle
  | some t =>
    if (s.timers t).deadline > currTime then s.setUpdate c .idle
    else ((s.setTimer t ((s.timers t).expired s.now)).setHeap c ((s.heap c).erase t)).setUpdate c
      .looping

end

/-- What `HEAP_EMPTY` and `HEAP_PEEK` answer: the root is a timer that none is earlier than. -/
def State.IsRoot (s : State T C U) (c : C) : Option T → Prop
  | none => s.heap c = []
  | some t => t ∈ s.heap c ∧ ∀ t' ∈ s.heap c, (s.timers t).deadline ≤ (s.timers t').deadline

instance [DecidableEq T] (s : State T C U) (c : C) : ∀ root, Decidable (s.IsRoot c root)
  | none => inferInstanceAs (Decidable (s.heap c = []))
  | some t => inferInstanceAs (Decidable (t ∈ s.heap c ∧
      ∀ t' ∈ s.heap c, (s.timers t).deadline ≤ (s.timers t').deadline))

/-- The time that the processor has read. -/
def Update.time : Update → Option ℕ
  | .read currTime => some currTime
  | _ => none

variable [DecidableEq T] [DecidableEq C] [DecidableEq U]

/-- The step of an event. -/
def step (s : State T C U) (e : Event T C U) : Option (State T C U) :=
  match e with
  | .tick time => if s.now ≤ time ∧ time < 2 ^ 64 then some { s with now := time } else none
  | .install c t nsDelta => if nsDelta < 2 ^ 64 then some (s.install c t nsDelta) else none
  | .uninstall u t =>
    if (s.uninstalls u).isNone then
      if (s.timers t).state = .queued then
        (s.timers t).cpu.map (fun c =>
          { s with uninstalls := Function.update s.uninstalls u (some (t, c)) })
      else some s
    else none
  | .remove u => (s.uninstalls u).map (fun r =>
      { s.remove r.1 r.2 with uninstalls := Function.update s.uninstalls u none })
  | .reset t =>
    if (s.timers t).state ≠ .queued then
      some (s.setTimer t { s.timers t with signalCount := 0 })
    else none
  | .dpc c => if s.updates c = .idle then some (s.setUpdate c .looping) else none
  | .readTime c => if s.updates c = .looping then some (s.setUpdate c (.read s.now)) else none
  | .expire c root =>
    if s.IsRoot c root then (s.updates c).time.map (fun time => s.expire c time root) else none

/-- No timer is installed. -/
def initial (now : ℕ) : State T C U where
  now := now
  timers := fun _ => Timer.init
  heap := fun _ => []
  updates := fun _ => .idle
  uninstalls := fun _ => none

variable (T C U) in
/-- Timers, from any time on. -/
def system : TransitionSystem (State T C U) (Event T C U) where
  init := fun s => ∃ now < 2 ^ 64, s = initial now
  step := step

/-! ## What is to hold -/

/-- **The condition on a step.**  The deadline of a timer does not wrap around. -/
def NoWrap (s : State T C U) : Event T C U → Prop
  | .install _ _ nsDelta => s.now + nsDelta < 2 ^ 64
  | _ => True

/-- A timer that has fired did so when its time was over. -/
def State.NotEarly (s : State T C U) : Prop :=
  ∀ t, (s.timers t).state = .fired →
    (s.timers t).installedAt + (s.timers t).nsDelta ≤ (s.timers t).firedAt

omit [DecidableEq U] in
/-- A queued timer is in the heap of its processor, once, and a timer is in no other. -/
def State.Placed (s : State T C U) : Prop :=
  ∀ t c, (s.heap c).count t =
    if (s.timers t).state = .queued ∧ (s.timers t).cpu = some c then 1 else 0

/-- When `timer_update` returns, the heap has no timer that is due at the time it has read. -/
def State.Drained (s : State T C U) : Prop :=
  ∀ c root time s', s.updates c = .read time → step s (.expire c root) = some s' →
    s'.updates c = .idle → ∀ t ∈ s'.heap c, time < (s'.timers t).deadline

/-! ## The invariant -/

/-- **The invariant.** -/
structure State.Inv (s : State T C U) : Prop where
  placed : s.Placed
  cpu_iff : ∀ t, (s.timers t).cpu ≠ none ↔ (s.timers t).state = .queued
  read_le : ∀ c time, s.updates c = .read time → time ≤ s.now
  deadline : ∀ t, (s.timers t).state = .queued →
    (s.timers t).deadline = (s.timers t).installedAt + (s.timers t).nsDelta
  notEarly : s.NotEarly

variable {s s' : State T C U} {t : T} {c : C} {e : Event T C U}

omit [DecidableEq U] in
theorem State.Placed.queued (h : s.Placed) (ht : t ∈ s.heap c) :
    (s.timers t).state = .queued ∧ (s.timers t).cpu = some c := by
  by_contra hno
  have hcount := h t c
  rw [if_neg hno] at hcount
  exact absurd ht (List.count_eq_zero.mp hcount)

omit [DecidableEq U] in
/-- One timer is put into the heap of its processor, or into none; the others stay. -/
theorem State.Placed.update (h : s.Placed) {timer : Timer C} {l : List T}
    (hself : ∀ c', (if c' = c then l.count t else (s.heap c').count t) =
      if timer.state = .queued ∧ timer.cpu = some c' then 1 else 0)
    (hother : ∀ t', t' ≠ t → l.count t' = (s.heap c).count t') :
    ((s.setTimer t timer).setHeap c l).Placed := by
  intro t' c'
  rw [State.setHeap_heap, State.setHeap_timers, State.setTimer_timers, State.setTimer_heap]
  by_cases ht : t' = t
  · subst ht
    rw [Function.update_self, ← hself c']
    by_cases hc : c' = c
    · rw [if_pos hc, hc, Function.update_self]
    · rw [if_neg hc, Function.update_of_ne hc]
  · rw [Function.update_of_ne ht, ← h t' c']
    by_cases hc : c' = c
    · rw [hc, Function.update_self, hother t' ht]
    · rw [Function.update_of_ne hc]

omit [DecidableEq U] in
theorem State.Placed.erase (h : s.Placed) (hq : (s.timers t).state = .queued)
    (hcpu : (s.timers t).cpu = some c) {timer : Timer C} (hcpu' : timer.cpu = none) :
    ((s.setTimer t timer).setHeap c ((s.heap c).erase t)).Placed := by
  refine h.update ?_ ?_
  · intro c'
    have hgone : ¬ (timer.state = .queued ∧ timer.cpu = some c') := by
      rintro ⟨_, hsome⟩
      rw [hcpu'] at hsome
      cases hsome
    rw [if_neg hgone, List.count_erase_self]
    have hcount := h t c'
    rw [hcpu] at hcount
    by_cases hc : c' = c
    · subst hc
      rw [if_pos ⟨hq, rfl⟩] at hcount
      rw [if_pos rfl, hcount]
    · rw [if_neg (fun hand => hc (Option.some.inj hand.2).symm)] at hcount
      rw [if_neg hc]
      exact hcount
  · intro t' ht'
    exact List.count_erase_of_ne ht'

omit [DecidableEq C] [DecidableEq U] in
/-- What holds of the new state of a timer, and of the others, holds of all. -/
theorem State.forall_timers {p : Timer C → Prop} (h : ∀ t, p (s.timers t)) {timer : Timer C}
    (hp : p timer) (t' : T) : p ((s.setTimer t timer).timers t') := by
  rw [State.setTimer_timers]
  by_cases ht : t' = t
  · rw [ht, Function.update_self]
    exact hp
  · rw [Function.update_of_ne ht]
    exact h t'

omit [DecidableEq U] in
theorem State.Inv.install (h : s.Inv) {nsDelta : ℕ} (hwrap : s.now + nsDelta < 2 ^ 64) :
    (s.install c t nsDelta).Inv := by
  rw [State.install]
  by_cases hbusy : (s.timers t).cpu.isSome = true
  · rw [if_pos hbusy]
    exact h
  · rw [if_neg hbusy]
    have hidle : (s.timers t).state ≠ .queued := by
      intro hq
      have hsome := (h.cpu_iff t).mpr hq
      rw [← Option.isSome_iff_ne_none] at hsome
      exact hbusy hsome
    refine ⟨?_, ?_, h.read_le, ?_, ?_⟩
    · refine h.placed.update ?_ ?_
      · intro c'
        have hcount := h.placed t c'
        rw [if_neg (fun hand => hidle hand.1)] at hcount
        by_cases hc : c' = c
        · subst hc
          rw [if_pos rfl, if_pos ⟨rfl, rfl⟩, List.count_cons_self, hcount]
        · rw [if_neg hc, if_neg (fun hand => hc (Option.some.inj hand.2).symm), hcount]
      · intro t' ht'
        rw [List.count_cons_of_ne ht'.symm]
    · refine State.forall_timers (p := fun timer => timer.cpu ≠ none ↔ timer.state = .queued)
        h.cpu_iff ?_
      exact ⟨fun _ => rfl, fun _ => Option.some_ne_none c⟩
    · refine State.forall_timers (p := fun timer => timer.state = .queued →
        timer.deadline = timer.installedAt + timer.nsDelta) h.deadline ?_
      intro _
      exact Nat.mod_eq_of_lt hwrap
    · refine State.forall_timers (p := fun timer => timer.state = .fired →
        timer.installedAt + timer.nsDelta ≤ timer.firedAt) h.notEarly ?_
      intro hfired
      cases hfired

omit [DecidableEq U] in
theorem State.Inv.remove (h : s.Inv) (t : T) (c : C) : (s.remove t c).Inv := by
  rw [State.remove]
  by_cases hno : (s.timers t).cpu ≠ some c ∨ (s.timers t).state ≠ .queued
  · rw [if_pos hno]
    exact h
  · rw [if_neg hno]
    rw [not_or, not_not, not_not] at hno
    refine ⟨h.placed.erase hno.2 hno.1 rfl, ?_, h.read_le, ?_, ?_⟩
    · refine State.forall_timers (p := fun timer => timer.cpu ≠ none ↔ timer.state = .queued)
        h.cpu_iff ?_
      exact ⟨fun hne => absurd rfl hne, fun hq => by cases hq⟩
    · refine State.forall_timers (p := fun timer => timer.state = .queued →
        timer.deadline = timer.installedAt + timer.nsDelta) h.deadline ?_
      intro hq
      cases hq
    · refine State.forall_timers (p := fun timer => timer.state = .fired →
        timer.installedAt + timer.nsDelta ≤ timer.firedAt) h.notEarly ?_
      intro hfired
      cases hfired

omit [DecidableEq U] in
theorem State.Inv.setUpdate (h : s.Inv) {u : Update} (hu : ∀ time, u = .read time → time ≤ s.now) :
    (s.setUpdate c u).Inv := by
  refine ⟨h.placed, h.cpu_iff, ?_, h.deadline, h.notEarly⟩
  intro c' time htime
  rw [State.setUpdate_updates] at htime
  by_cases hc : c' = c
  · rw [hc, Function.update_self] at htime
    exact hu time htime
  · rw [Function.update_of_ne hc] at htime
    exact h.read_le c' time htime

omit [DecidableEq U] in
/-- The section of `timer_update`: the root fires when its deadline has passed. -/
theorem State.Inv.expire (h : s.Inv) {time : ℕ} (htime : time ≤ s.now) {root : Option T}
    (hroot : s.IsRoot c root) : (s.expire c time root).Inv := by
  cases root with
  | none => exact h.setUpdate (fun time htime => by cases htime)
  | some t =>
    rw [State.expire]
    by_cases hlater : (s.timers t).deadline > time
    · rw [if_pos hlater]
      exact h.setUpdate (fun time htime => by cases htime)
    · rw [if_neg hlater]
      obtain ⟨hq, hcpu⟩ := h.placed.queued hroot.1
      have hdeadline := h.deadline t hq
      refine State.Inv.setUpdate ?_ (fun time htime => by cases htime)
      refine ⟨h.placed.erase hq hcpu rfl, ?_, h.read_le, ?_, ?_⟩
      · refine State.forall_timers (p := fun timer => timer.cpu ≠ none ↔ timer.state = .queued)
          h.cpu_iff ?_
        exact ⟨fun hne => absurd rfl hne, fun hq => by cases hq⟩
      · refine State.forall_timers (p := fun timer => timer.state = .queued →
          timer.deadline = timer.installedAt + timer.nsDelta) h.deadline ?_
        intro hq
        cases hq
      · refine State.forall_timers (p := fun timer => timer.state = .fired →
          timer.installedAt + timer.nsDelta ≤ timer.firedAt) h.notEarly ?_
        intro _
        show (s.timers t).installedAt + (s.timers t).nsDelta ≤ s.now
        omega

/-- **Step lemma.**  Every step in which no deadline wraps keeps the invariant. -/
theorem State.Inv.step (h : s.Inv) (hC : NoWrap s e) (hs : step s e = some s') : s'.Inv := by
  cases e with
  | tick time =>
    obtain ⟨⟨hle, _⟩, hs⟩ := Option.ite_none_right_eq_some.mp hs
    rw [← Option.some.inj hs]
    exact ⟨h.placed, h.cpu_iff, fun c t htime => (h.read_le c t htime).trans hle, h.deadline,
      h.notEarly⟩
  | install c t nsDelta =>
    obtain ⟨_, hs⟩ := Option.ite_none_right_eq_some.mp hs
    rw [← Option.some.inj hs]
    exact h.install hC
  | uninstall u t =>
    obtain ⟨_, hs⟩ := Option.ite_none_right_eq_some.mp hs
    split at hs
    · obtain ⟨c, _, rfl⟩ := Option.map_eq_some_iff.mp hs
      exact ⟨h.placed, h.cpu_iff, h.read_le, h.deadline, h.notEarly⟩
    · rw [← Option.some.inj hs]
      exact h
  | remove u =>
    obtain ⟨⟨t, c⟩, _, rfl⟩ := Option.map_eq_some_iff.mp hs
    have hr := h.remove t c
    exact ⟨hr.placed, hr.cpu_iff, hr.read_le, hr.deadline, hr.notEarly⟩
  | reset t =>
    obtain ⟨hidle, hs⟩ := Option.ite_none_right_eq_some.mp hs
    rw [← Option.some.inj hs]
    refine ⟨?_, ?_, h.read_le, ?_, ?_⟩
    · intro t' c'
      refine (h.placed t' c').trans ?_
      rw [State.setTimer_timers]
      by_cases ht : t' = t
      · rw [ht, Function.update_self]
      · rw [Function.update_of_ne ht]
    · exact State.forall_timers (p := fun timer => timer.cpu ≠ none ↔ timer.state = .queued)
        h.cpu_iff (h.cpu_iff t)
    · exact State.forall_timers (p := fun timer => timer.state = .queued →
        timer.deadline = timer.installedAt + timer.nsDelta) h.deadline (h.deadline t)
    · exact State.forall_timers (p := fun timer => timer.state = .fired →
        timer.installedAt + timer.nsDelta ≤ timer.firedAt) h.notEarly (h.notEarly t)
  | dpc c =>
    obtain ⟨_, hs⟩ := Option.ite_none_right_eq_some.mp hs
    rw [← Option.some.inj hs]
    exact h.setUpdate (fun time htime => by cases htime)
  | readTime c =>
    obtain ⟨_, hs⟩ := Option.ite_none_right_eq_some.mp hs
    rw [← Option.some.inj hs]
    refine h.setUpdate ?_
    intro time htime
    cases htime
    exact le_refl _
  | expire c root =>
    obtain ⟨hroot, hs⟩ := Option.ite_none_right_eq_some.mp hs
    obtain ⟨time, htime, rfl⟩ := Option.map_eq_some_iff.mp hs
    refine h.expire (h.read_le c time ?_) hroot
    cases hu : s.updates c with
    | idle =>
      rw [hu] at htime
      cases htime
    | looping =>
      rw [hu] at htime
      cases htime
    | read currTime =>
      rw [hu] at htime
      cases htime
      rfl

theorem State.drained (s : State T C U) : s.Drained := by
  intro c root time s' hu hs hidle t ht
  obtain ⟨hroot, hs⟩ := Option.ite_none_right_eq_some.mp hs
  rw [hu] at hs
  have hs' : s.expire c time root = s' := Option.some.inj hs
  subst hs'
  cases root with
  | none =>
    have hnil : s.heap c = [] := hroot
    rw [State.expire, State.setUpdate_heap, hnil] at ht
    cases ht
  | some r =>
    rw [State.expire] at hidle ht ⊢
    by_cases hlater : (s.timers r).deadline > time
    · rw [if_pos hlater] at ht ⊢
      exact lt_of_lt_of_le hlater (hroot.2 t ht)
    · rw [if_neg hlater, State.setUpdate_updates, Function.update_self] at hidle
      cases hidle

/-! ## Every run -/

omit [DecidableEq U] in
theorem initial_inv {now : ℕ} : (initial now : State T C U).Inv where
  placed := by
    intro t c
    rw [if_neg (fun hand => by cases hand.1)]
    rfl
  cpu_iff := by
    intro t
    exact ⟨fun hne => absurd rfl hne, fun hq => by cases hq⟩
  read_le := by
    intro c time htime
    cases htime
  deadline := by
    intro t hq
    cases hq
  notEarly := by
    intro t hfired
    cases hfired

/-- **Timers.**  In every run in which no deadline wraps around, no timer fires before its time, a
queued timer is in the heap of its processor and in no other, and a heap that `timer_update`
returns from has no timer that is due. -/
theorem timers_in_time (h : (system T C U).ReachableUnder NoWrap s) :
    s.NotEarly ∧ s.Placed ∧ s.Drained := by
  have hinv : s.Inv := by
    refine h.invariant ?_ ?_
    · rintro _ ⟨now, _, rfl⟩
      exact initial_inv
    · intro s e s' hs hC hstep
      exact hs.step hC hstep
  exact ⟨hinv.notEarly, hinv.placed, s.drained⟩

instance (s : State T C U) : ∀ e, Decidable (NoWrap s e)
  | .install _ _ nsDelta => inferInstanceAs (Decidable (s.now + nsDelta < 2 ^ 64))
  | .tick _ | .uninstall .. | .remove _ | .reset _ | .dpc _ | .readTime _ | .expire .. =>
    .isTrue trivial

/-- A timer fires on one processor while another is cancelled. -/
theorem timers_in_time_two : ∃ s : State Bool Bool Unit,
    (system Bool Bool Unit).ReachableUnder NoWrap s ∧
      ((s.timers true).state = .fired ∧ (s.timers true).firedAt = 12 ∧
        (s.timers false).state = .canceled) ∧ s.NotEarly ∧ s.Placed ∧ s.Drained := by
  obtain ⟨s, hs, hend⟩ := (system Bool Bool Unit).exists_reachableUnder_of_runUnder
    (C := NoWrap) (show (system Bool Bool Unit).init (initial 5) from ⟨5, by decide, rfl⟩)
    [.install true true 7, .install true false 9, .dpc true, .tick 12, .uninstall () false,
      .readTime true, .expire true (some true), .remove (), .readTime true, .expire true none]
    (fun s => decide ((s.timers true).state = .fired ∧ (s.timers true).firedAt = 12 ∧
      (s.timers false).state = .canceled)) (by decide +kernel)
  exact ⟨s, hs, of_decide_eq_true hend, timers_in_time hs⟩

/-- A deadline wraps around, and the timer fires at once. -/
theorem timer_fires_early : ∃ s : State Unit Unit Unit,
    (system Unit Unit Unit).Reachable s ∧ ¬ s.NotEarly := by
  obtain ⟨s, hs, hend⟩ := (system Unit Unit Unit).exists_reachable_of_run
    (show (system Unit Unit Unit).init (initial 5) from ⟨5, by decide, rfl⟩)
    [.install () () (2 ^ 64 - 1), .dpc (), .readTime (), .expire () (some ())]
    (fun s => decide ((s.timers ()).state = .fired ∧ ¬ (s.timers ()).installedAt +
      (s.timers ()).nsDelta ≤ (s.timers ()).firedAt)) (by decide +kernel)
  refine ⟨s, hs, ?_⟩
  intro hearly
  obtain ⟨hfired, hlt⟩ := of_decide_eq_true hend
  exact hlt (hearly () hfired)

end Timers
