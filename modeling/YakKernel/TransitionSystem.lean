/-
# Transition systems with conditions on their steps

A system is a set of initial states and an executable guarded step function:
`step s e` is `some s'` when the event `e` can happen in `s`, and `none` when it
cannot.  A condition on steps `C` singles out the runs all of whose steps meet
`C`; `Reachable` is the case in which every step is allowed.
-/
import Mathlib.Data.Option.Basic
import Mathlib.Logic.Function.Basic

/-! ## Systems and their runs -/

/-- A transition system with initial states `init` and a guarded step function. -/
structure TransitionSystem (S E : Type*) where
  init : S → Prop
  step : S → E → Option S

namespace TransitionSystem

variable {S E : Type*} (sys : TransitionSystem S E)

/-- The states reached by runs whose steps all meet the condition `C`. -/
inductive ReachableUnder (C : S → E → Prop) : S → Prop
  | init {s : S} : sys.init s → ReachableUnder C s
  | step {s s' : S} {e : E} :
      ReachableUnder C s → C s e → sys.step s e = some s' → ReachableUnder C s'

/-- The states reached by any run at all. -/
def Reachable (s : S) : Prop := sys.ReachableUnder (fun _ _ => True) s

variable {sys}

/-- **Invariant rule.**  What holds initially and is preserved by every step that
meets `C` holds in every state reached under `C`. -/
theorem ReachableUnder.invariant {C : S → E → Prop} {Inv : S → Prop}
    (hinit : ∀ s, sys.init s → Inv s)
    (hstep : ∀ s e s', Inv s → C s e → sys.step s e = some s' → Inv s')
    {s : S} (h : sys.ReachableUnder C s) : Inv s := by
  induction h with
  | init h0 => exact hinit _ h0
  | step _ hC hs ih => exact hstep _ _ _ ih hC hs

theorem Reachable.invariant {Inv : S → Prop}
    (hinit : ∀ s, sys.init s → Inv s)
    (hstep : ∀ s e s', Inv s → sys.step s e = some s' → Inv s')
    {s : S} (h : sys.Reachable s) : Inv s :=
  ReachableUnder.invariant hinit (fun s e s' hI _ hs => hstep s e s' hI hs) h

theorem ReachableUnder.mono {C C' : S → E → Prop} (hCC : ∀ s e, C s e → C' s e)
    {s : S} (h : sys.ReachableUnder C s) : sys.ReachableUnder C' s := by
  induction h with
  | init h0 => exact .init h0
  | step _ hC hs ih => exact .step ih (hCC _ _ hC) hs

theorem ReachableUnder.reachable {C : S → E → Prop} {s : S}
    (h : sys.ReachableUnder C s) : sys.Reachable s :=
  h.mono (fun _ _ _ => trivial)

/-! ## Replaying a list of events -/

variable (sys)

/-- Replay `evs` from `s`; `none` when some event on the way cannot happen. -/
def run (s : S) (evs : List E) : Option S := evs.foldlM sys.step s

/-- Replay `evs` from `s`, checking `C` before every step. -/
def runUnder (C : S → E → Prop) [∀ s e, Decidable (C s e)] (s : S) (evs : List E) : Option S :=
  evs.foldlM (fun s e => if C s e then sys.step s e else none) s

variable {sys}

theorem ReachableUnder.runUnder {C : S → E → Prop} [∀ s e, Decidable (C s e)]
    {s : S} (hs : sys.ReachableUnder C s) :
    ∀ (evs : List E) {s' : S}, sys.runUnder C s evs = some s' → sys.ReachableUnder C s' := by
  intro evs
  induction evs generalizing s with
  | nil =>
    intro s' h
    cases h
    exact hs
  | cons e evs ih =>
    intro s' h
    simp only [TransitionSystem.runUnder, List.foldlM_cons] at h
    by_cases hC : C s e
    · cases hstep : sys.step s e with
      | none => simp [hC, hstep] at h
      | some s₁ =>
        simp only [hC, hstep, if_true] at h
        exact ih (.step hs hC hstep) h
    · simp [hC] at h

/-- A property seen at the end of a replay under `C` from a state reached under `C` is the
property of such a state. -/
theorem ReachableUnder.exists_runUnder {C : S → E → Prop} [∀ s e, Decidable (C s e)]
    {s₀ : S} (h₀ : sys.ReachableUnder C s₀) (evs : List E) (p : S → Bool)
    (h : (sys.runUnder C s₀ evs).any p = true) :
    ∃ s, sys.ReachableUnder C s ∧ p s = true := by
  cases hr : sys.runUnder C s₀ evs with
  | none => simp [hr] at h
  | some s =>
    rw [hr] at h
    exact ⟨s, h₀.runUnder evs hr, h⟩

/-- A property seen at the end of a replay from a reachable state is the property of a reachable
state. -/
theorem Reachable.exists_run {s₀ : S} (h₀ : sys.Reachable s₀) (evs : List E) (p : S → Bool)
    (h : (sys.run s₀ evs).any p = true) :
    ∃ s, sys.Reachable s ∧ p s = true := by
  refine ReachableUnder.exists_runUnder (C := fun _ _ => True) h₀ evs p ?_
  simpa [TransitionSystem.runUnder, TransitionSystem.run] using h

/-- A property seen at the end of a replay under `C` is the property of a state
reached under `C`. -/
theorem exists_reachableUnder_of_runUnder {C : S → E → Prop} [∀ s e, Decidable (C s e)]
    {s₀ : S} (h₀ : sys.init s₀) (evs : List E) (p : S → Bool)
    (h : (sys.runUnder C s₀ evs).any p = true) :
    ∃ s, sys.ReachableUnder C s ∧ p s = true :=
  (ReachableUnder.init h₀).exists_runUnder evs p h

/-- A property seen at the end of a replay is the property of a reachable state. -/
theorem exists_reachable_of_run {s₀ : S} (h₀ : sys.init s₀) (evs : List E) (p : S → Bool)
    (h : (sys.run s₀ evs).any p = true) :
    ∃ s, sys.Reachable s ∧ p s = true := by
  have hstart : sys.Reachable s₀ := .init h₀
  exact hstart.exists_run evs p h

end TransitionSystem
