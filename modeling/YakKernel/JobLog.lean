/-
# Logs of jobs

A log, newest action first, of what happened to jobs that wait in a queue, each with an argument:
they are put in, refused, cancelled, taken out and run.  A lawful log puts in a job only while it
does not wait, takes it out with the argument it was put in with, and runs at once what it takes.
The counting lemma says that every job put in is run once, or cancelled, or is still waiting or
about to run.
-/
import Mathlib.Data.List.Count

namespace JobLog

variable {K X : Type*}

/-- What can happen to job `k` with argument `x`. -/
inductive Action (K X : Type*) where
  | put (k : K) (x : X)
  | refused (k : K) (x : X)
  | cancel (k : K) (x : X)
  | take (k : K) (x : X)
  | run (k : K) (x : X)
  deriving DecidableEq

/-- The argument with which a job waits. -/
def queued [DecidableEq K] (k : K) : List (Action K X) → Option X
  | [] => none
  | .put j x :: log => if j = k then some x else queued k log
  | .cancel j _ :: log | .take j _ :: log => if j = k then none else queued k log
  | .refused _ _ :: log | .run _ _ :: log => queued k log

/-- The job that has been taken and not yet run. -/
def running : List (Action K X) → Option (K × X)
  | [] => none
  | .take k x :: _ => some (k, x)
  | .run _ _ :: _ => none
  | .put _ _ :: log | .refused _ _ :: log | .cancel _ _ :: log => running log

/-- **Lawful logs.** -/
def Lawful [DecidableEq K] : List (Action K X) → Prop
  | [] => True
  | .put k _ :: log => queued k log = none ∧ Lawful log
  | .refused k _ :: log => queued k log ≠ none ∧ Lawful log
  | .cancel k x :: log => queued k log = some x ∧ Lawful log
  | .take k x :: log => queued k log = some x ∧ running log = none ∧ Lawful log
  | .run k x :: log => running log = some (k, x) ∧ Lawful log

section

variable [DecidableEq K] {k j : K} {x : X} {log : List (Action K X)}

/-! ## One action -/

@[simp]
theorem queued_put_self : queued k (.put k x :: log) = some x := if_pos rfl

@[simp]
theorem queued_take_self : queued k (.take k x :: log) = none := if_pos rfl

@[simp]
theorem queued_cancel_self : queued k (.cancel k x :: log) = none := if_pos rfl

theorem queued_put_of_ne (h : j ≠ k) : queued k (.put j x :: log) = queued k log := if_neg h

theorem queued_take_of_ne (h : j ≠ k) : queued k (.take j x :: log) = queued k log := if_neg h

theorem queued_cancel_of_ne (h : j ≠ k) : queued k (.cancel j x :: log) = queued k log := if_neg h

/-! ## Counting -/

/-- **Every job that is put in** is run once with its argument, or cancelled, or waits, or is about
to run. -/
theorem Lawful.count [DecidableEq X] (h : Lawful log) (k : K) (x : X) :
    log.count (.put k x) = log.count (.run k x) + log.count (.cancel k x) +
      (queued k log).toList.count x + (running log).toList.count (k, x) := by
  induction log with
  | nil => rfl
  | cons a log ih =>
    cases a with
    | put j y =>
      have hih := ih h.2
      by_cases hj : j = k
      · subst hj
        rw [h.1] at hih
        by_cases hy : y = x
        · subst hy
          simp [running, hih]
          omega
        · simp [running, hih, hy]
      · simp [queued_put_of_ne hj, running, hih, hj]
    | refused j y =>
      have hih := ih h.2
      simp [queued, running, hih]
    | cancel j y =>
      have hih := ih h.2
      by_cases hj : j = k
      · subst hj
        rw [h.1] at hih
        by_cases hy : y = x
        · subst hy
          simp [running, hih]
          omega
        · simp [running, hih, hy]
      · simp [queued_cancel_of_ne hj, running, hih, hj]
    | take j y =>
      have hih := ih h.2.2
      rw [h.2.1] at hih
      by_cases hj : j = k
      · subst hj
        rw [h.1] at hih
        by_cases hy : y = x
        · subst hy
          simp [running, hih]
        · simp [running, hih, hy]
      · simp [queued_take_of_ne hj, running, hih, hj]
    | run j y =>
      have hih := ih h.2
      rw [h.1] at hih
      by_cases hj : j = k
      · subst hj
        by_cases hy : y = x
        · subst hy
          simp [queued, running, hih]
          omega
        · simp [queued, running, hih, hy]
      · simp [queued, running, hih, hj]

end

end JobLog
