/-
# Clock sources

`core/clocksource.c`: `uptime` computes nanoseconds from the counter of the clock source of a CPU,
and `clocksource_switch` changes the source.
-/
import Mathlib.Tactic
import YakKernel.TransitionSystem

namespace Clocksource

/-! ## The code -/

/-- `struct clocksource`: its frequency, which is not zero, and `CLOCKSOURCE_NO_OFFSET`. -/
structure Source where
  frequency : ℕ
  noOffset : Bool
  pos : 0 < frequency

/-- Nanoseconds in a second. -/
def nsPerSec : ℕ := 1000000000

/-- `uptime` for the value `ctr` of the counter. -/
def uptimeOf (offset : ℕ) (source : Source) (ctr : ℕ) : ℕ :=
  let quotient := ctr / source.frequency
  let remainder := ctr % source.frequency
  let ns := quotient * nsPerSec % 2 ^ 64
  let ns := (ns + remainder * nsPerSec % 2 ^ 64 / source.frequency) % 2 ^ 64
  (offset + ns) % 2 ^ 64

variable {ι : Type} [DecidableEq ι]

/-- A CPU and the registered sources: the source in use, `clock_offset`, the counters and
`is_setup`.  Ghost: the values that `uptime` has returned, the last one first. -/
structure Cpu (ι : Type) where
  clocksource : ι
  clockOffset : ℕ
  counters : ι → ℕ
  isSetup : ι → Bool
  values : List ℕ

/-- `uptime`. -/
def uptime (src : ι → Source) (s : Cpu ι) : ℕ :=
  uptimeOf s.clockOffset (src s.clocksource) (s.counters s.clocksource)

/-- A value that is returned. -/
def Cpu.returned (s : Cpu ι) (value : ℕ) : Cpu ι := { s with values := value :: s.values }

/-- `clocksource_switch`; `setupOk` tells whether `setup` succeeds, if it is called. -/
def clocksourceSwitch (src : ι → Source) (s : Cpu ι) (clock : ι) (setupOk : Bool) :
    Option (Cpu ι) :=
  if s.isSetup clock = false ∧ setupOk = false then none
  else
    let s := { s with isSetup := Function.update s.isSetup clock true }
    if (src clock).noOffset then some { s with clockOffset := 0, clocksource := clock }
    else
      some { s.returned (uptime src s) with clockOffset := uptime src s, clocksource := clock }

/-! ## Runs -/

inductive Event (ι : Type) where
  | tick (clock : ι) (ctr : ℕ)
  | uptime
  | switch (clock : ι) (setupOk : Bool)

/-- The counters are words that do not decrease. -/
def Cpu.step (src : ι → Source) (s : Cpu ι) : Event ι → Option (Cpu ι)
  | .tick clock ctr =>
    if s.counters clock ≤ ctr ∧ ctr < 2 ^ 64 then
      some { s with counters := Function.update s.counters clock ctr }
    else none
  | .uptime => some (s.returned (Clocksource.uptime src s))
  | .switch clock setupOk => clocksourceSwitch src s clock setupOk

/-- The nanoseconds of a source. -/
def ownTime (src : ι → Source) (s : Cpu ι) (clock : ι) : ℕ :=
  s.counters clock * nsPerSec / (src clock).frequency

/-- The time of a CPU, without wrapping around. -/
def time (src : ι → Source) (s : Cpu ι) : ℕ := s.clockOffset + ownTime src s s.clocksource

/-- **The condition on an event.**  The time that is read is a word; a source without an offset has
reached what was returned before. -/
def KeepsTime (src : ι → Source) (s : Cpu ι) : Event ι → Prop
  | .tick _ _ => True
  | .uptime => time src s < 2 ^ 64
  | .switch clock _ =>
    if (src clock).noOffset then ∀ v ∈ s.values, v ≤ ownTime src s clock
    else time src s < 2 ^ 64

/-- The values that were returned do not decrease. -/
def Monotone (s : Cpu ι) : Prop := s.values.Pairwise (fun later earlier => earlier ≤ later)

/-! ## Exactness -/

variable {src : ι → Source} {s s' : Cpu ι}

theorem split_div (f n ctr : ℕ) (hf : 0 < f) :
    ctr / f * n + ctr % f * n / f = ctr * n / f := by
  calc ctr / f * n + ctr % f * n / f
      = (f * (ctr / f * n) + ctr % f * n) / f := by rw [Nat.mul_add_div hf]
    _ = ctr * n / f := by rw [← Nat.mul_assoc, ← Nat.add_mul, Nat.div_add_mod]

/-- **`uptime` is exact** modulo `2 ^ 64`. -/
theorem uptimeOf_eq (source : Source) (hfreq : source.frequency * nsPerSec < 2 ^ 64)
    (offset ctr : ℕ) :
    uptimeOf offset source ctr = (offset + ctr * nsPerSec / source.frequency) % 2 ^ 64 := by
  have hrem : ctr % source.frequency * nsPerSec < 2 ^ 64 :=
    (Nat.mul_le_mul_right _ (Nat.mod_lt ctr source.pos).le).trans_lt hfreq
  unfold uptimeOf
  simp only [Nat.mod_eq_of_lt hrem, Nat.mod_add_mod, Nat.add_mod_mod]
  rw [split_div _ _ _ source.pos]

omit [DecidableEq ι] in
theorem uptime_eq (hfreq : ∀ i, (src i).frequency * nsPerSec < 2 ^ 64)
    (hword : time src s < 2 ^ 64) : uptime src s = time src s := by
  unfold uptime
  rw [uptimeOf_eq _ (hfreq _)]
  exact Nat.mod_eq_of_lt hword

/-! ## Monotonicity -/

/-- What was returned does not decrease and is not ahead of the time. -/
structure InTime (src : ι → Source) (s : Cpu ι) : Prop where
  mono : Monotone s
  le_time : ∀ v ∈ s.values, v ≤ time src s

omit [DecidableEq ι] in
theorem InTime.returned (h : InTime src s) : InTime src (s.returned (time src s)) := by
  refine ⟨List.pairwise_cons.mpr ⟨h.le_time, h.mono⟩, fun v hv => ?_⟩
  rcases List.mem_cons.mp hv with rfl | hv
  · exact le_refl _
  · exact h.le_time v hv

theorem InTime.tick {clock : ι} {ctr : ℕ} (h : InTime src s) (hle : s.counters clock ≤ ctr) :
    InTime src { s with counters := Function.update s.counters clock ctr } := by
  refine ⟨h.mono, fun v hv => (h.le_time v hv).trans ?_⟩
  refine Nat.add_le_add_left (Nat.div_le_div_right (Nat.mul_le_mul_right _ ?_)) _
  show s.counters s.clocksource ≤ Function.update s.counters clock ctr s.clocksource
  rw [Function.update_apply]
  split_ifs with hclock
  · rw [hclock]
    exact hle
  · exact le_refl _

theorem InTime.step (hfreq : ∀ i, (src i).frequency * nsPerSec < 2 ^ 64) {e : Event ι}
    (h : InTime src s) (hkeeps : KeepsTime src s e) (hstep : s.step src e = some s') :
    InTime src s' := by
  cases e with
  | tick clock ctr =>
    simp only [Cpu.step, Option.ite_none_right_eq_some, Option.some.injEq] at hstep
    obtain ⟨⟨hle, -⟩, rfl⟩ := hstep
    exact h.tick hle
  | uptime =>
    simp only [Cpu.step, Option.some.injEq] at hstep
    rw [uptime_eq hfreq hkeeps] at hstep
    subst hstep
    exact h.returned
  | switch clock setupOk =>
    simp only [Cpu.step, clocksourceSwitch, Option.ite_none_left_eq_some] at hstep
    obtain ⟨-, hstep⟩ := hstep
    by_cases hno : (src clock).noOffset = true
    · simp only [KeepsTime, if_pos hno] at hkeeps
      simp only [if_pos hno, Option.some.injEq] at hstep
      subst hstep
      exact ⟨h.mono, fun v hv => (hkeeps v hv).trans (Nat.le_add_left _ _)⟩
    · simp only [KeepsTime, if_neg hno] at hkeeps
      simp only [if_neg hno, Option.some.injEq] at hstep
      have hread : uptime src { s with isSetup := Function.update s.isSetup clock true } =
          time src s := uptime_eq hfreq hkeeps
      rw [hread] at hstep
      subst hstep
      -- the offset is the time that was read
      obtain ⟨hmono, hle⟩ := h.returned
      exact ⟨hmono, fun v hv => (hle v hv).trans (Nat.le_add_right _ _)⟩

instance (src : ι → Source) (s : Cpu ι) : (e : Event ι) → Decidable (KeepsTime src s e)
  | .tick _ _ => inferInstanceAs (Decidable True)
  | .uptime => inferInstanceAs (Decidable (time src s < 2 ^ 64))
  | .switch clock _ => by
    unfold KeepsTime
    infer_instance

/-- A CPU that has just been initialised to use the source `clock`. -/
def booted (clock : Fin 4) : Cpu (Fin 4) := ⟨clock, 0, fun _ => 0, fun _ => true, []⟩

end Clocksource
