/-
# Transducers

A machine reads letters and writes.  It reads a word in one run or in several, and at the start
of a run `restart` makes it forget something.  Several runs do what one run does when nothing is
forgotten between them.
-/
import Mathlib.Data.List.Basic

namespace Transducer

variable {S I O : Type*}

/-- One run: the state at the end, and what is written. -/
def run (step : S → I → S × List O) : S → List I → S × List O
  | s, [] => (s, [])
  | s, i :: is => ((run step (step s i).1 is).1, (step s i).2 ++ (run step (step s i).1 is).2)

/-- Several runs, one after the other. -/
def runs (step : S → I → S × List O) (restart : S → S) : S → List (List I) → S × List O
  | s, [] => (s, [])
  | s, is :: iss =>
    ((runs step restart (run step (restart s) is).1 iss).1,
      (run step (restart s) is).2 ++ (runs step restart (run step (restart s) is).1 iss).2)

variable {step : S → I → S × List O} {restart : S → S} {s : S} {is js : List I}
  {iss : List (List I)}

theorem run_append : run step s (is ++ js) =
    ((run step (run step s is).1 js).1,
      (run step s is).2 ++ (run step (run step s is).1 js).2) := by
  induction is generalizing s with
  | nil => rfl
  | cons i is ih =>
    rw [List.cons_append, run, ih]
    simp only [run, List.append_assoc]

/-- **Runs that may be joined.**  Nothing is forgotten after any run but the last. -/
theorem runs_eq_run (hne : iss ≠ []) (h : ∀ is ∈ iss.dropLast, ∀ s,
    restart (run step (restart s) is).1 = (run step (restart s) is).1) :
    runs step restart s iss = run step (restart s) iss.flatten := by
  induction iss generalizing s with
  | nil => exact absurd rfl hne
  | cons is iss ih =>
    cases iss with
    | nil =>
      rw [List.flatten_cons, List.flatten_nil, List.append_nil]
      simp only [runs, List.append_nil]
    | cons js iss =>
      rw [List.dropLast_cons_of_ne_nil (List.cons_ne_nil js iss)] at h
      have hrest := ih (s := (run step (restart s) is).1) (List.cons_ne_nil js iss)
        fun ks hks => h ks (List.mem_cons_of_mem is hks)
      rw [h is List.mem_cons_self s] at hrest
      rw [List.flatten_cons, run_append, runs, hrest]

end Transducer
