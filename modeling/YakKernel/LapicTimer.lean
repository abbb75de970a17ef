/-
# Arming the timer of the local APIC

`plat_arm_timer` in `arch/x86_64/apic.c`: a deadline becomes an initial count of timer ticks, which
`lapic_write` puts into a register of 32 bits.
-/
import YakKernel.VmemSegments

namespace Lapic

open Vmem

/-! ## The code -/

/-- `TIMER_INFINITE`. -/
def timerInfinite : ℕ := 2 ^ 64 - 1

/-- Nanoseconds in a millisecond. -/
def nsPerMs : ℕ := 1000000

/-- `lapic_write`: the register holds a `uint32_t`. -/
def lapicWrite (value : ℕ) : ℕ := value % 2 ^ 32

/-- `DIV_ROUNDUP` of words. -/
def divRoundup (a b : ℕ) : ℕ := wadd a (b - 1) / b

/-- `ticks` for a given `delta`. -/
def ticks (delta ticksPerMs : ℕ) : ℕ := divRoundup delta nsPerMs * ticksPerMs % 2 ^ 64

/-- `plat_arm_timer` at the uptime `now`: the initial count that it writes. -/
def platArmTimer (deadline now ticksPerMs : ℕ) : ℕ :=
  if deadline = timerInfinite then lapicWrite 0
  else
    let delta := wsub deadline now
    if ticks delta ticksPerMs ≤ 0 ∨ delta ≤ 0 then lapicWrite 1
    else lapicWrite (ticks delta ticksPerMs)

/-! ## Arming in time -/

/-- The milliseconds of a span of time, rounded up. -/
def wholeMs (ns : ℕ) : ℕ := (ns + (nsPerMs - 1)) / nsPerMs

/-- **The timer is armed in time**: the count does not disarm it; it is not larger than the ticks
until the deadline; and it is one when the deadline has passed. -/
structure ArmsInTime (deadline now ticksPerMs count : ℕ) : Prop where
  armed : count ≠ 0
  inTime : now < deadline → count ≤ wholeMs (deadline - now) * ticksPerMs
  passed : deadline ≤ now → count = 1

/-- **The condition.**  Before the deadline: the ticks until then are not a multiple of `2 ^ 32`
(of `2 ^ 64` they may be, and the sum that rounds up may wrap around).  After it: less than a
millisecond has passed, or the ticks of the difference of the words are one or nothing by chance. -/
def Reaches (deadline now ticksPerMs : ℕ) : Prop :=
  (now < deadline → 2 ^ 32 ∣ wholeMs (deadline - now) * ticksPerMs →
    2 ^ 64 ∣ wholeMs (deadline - now) * ticksPerMs ∨ 2 ^ 64 < deadline - now + nsPerMs) ∧
  (deadline ≤ now → now < deadline + nsPerMs ∨
    2 ^ 64 ∣ wholeMs (2 ^ 64 + deadline - now) * ticksPerMs ∨
    wholeMs (2 ^ 64 + deadline - now) * ticksPerMs % 2 ^ 32 = 1)

variable {deadline now ticksPerMs delta : ℕ}

theorem lapicWrite_mod (n : ℕ) : lapicWrite (n % 2 ^ 64) = n % 2 ^ 32 :=
  Nat.mod_mod_of_dvd n (Nat.pow_dvd_pow 2 (by decide))

theorem divRoundup_eq (h : delta + nsPerMs ≤ 2 ^ 64) :
    divRoundup delta nsPerMs = wholeMs delta := by
  have hms : nsPerMs = 1000000 := rfl
  unfold divRoundup wholeMs
  rw [wadd_of_lt (by omega)]

theorem divRoundup_of_wrap (hlt : delta < 2 ^ 64) (h : 2 ^ 64 < delta + nsPerMs) :
    divRoundup delta nsPerMs = 0 := by
  have hms : nsPerMs = 1000000 := rfl
  unfold divRoundup wadd
  rw [Nat.mod_eq_sub_mod (by omega), Nat.mod_eq_of_lt (by omega), Nat.div_eq_of_lt (by omega)]

theorem wholeMs_pos (h : 0 < delta) : 0 < wholeMs delta := by
  have hms : nsPerMs = 1000000 := rfl
  exact Nat.div_pos (by omega) (by omega)

/-- **What is written** for a difference of words that is not zero. -/
theorem platArmTimer_spec (hfinite : deadline ≠ timerInfinite) (hpos : 0 < wsub deadline now) :
    platArmTimer deadline now ticksPerMs =
      if 2 ^ 64 ∣ divRoundup (wsub deadline now) nsPerMs * ticksPerMs then 1
      else divRoundup (wsub deadline now) nsPerMs * ticksPerMs % 2 ^ 32 := by
  unfold platArmTimer
  rw [if_neg hfinite]
  by_cases hzero : 2 ^ 64 ∣ divRoundup (wsub deadline now) nsPerMs * ticksPerMs
  · have hticks : ticks (wsub deadline now) ticksPerMs = 0 := Nat.mod_eq_zero_of_dvd hzero
    rw [if_pos hzero]
    simp only [hticks, le_refl, true_or, if_true]
    rfl
  · have hticks : ticks (wsub deadline now) ticksPerMs ≠ 0 :=
      fun h => hzero (Nat.dvd_of_mod_eq_zero h)
    rw [if_neg hzero]
    simp only [Nat.le_zero, hticks, hpos.ne', or_self, if_false]
    exact lapicWrite_mod _

/-- **Arming the timer** is in time exactly under the condition. -/
theorem armsInTime_iff (hfinite : deadline ≠ timerInfinite) (hdeadline : deadline < 2 ^ 64)
    (hnow : now < 2 ^ 64) (hticks : 1 ≤ ticksPerMs) :
    ArmsInTime deadline now ticksPerMs (platArmTimer deadline now ticksPerMs) ↔
      Reaches deadline now ticksPerMs := by
  have hms : nsPerMs = 1000000 := rfl
  rcases Nat.lt_or_ge now deadline with hbefore | hafter
  · -- the deadline is ahead
    have hdelta : wsub deadline now = deadline - now := wsub_of_le hbefore.le hdeadline
    have hpos : 0 < deadline - now := Nat.sub_pos_of_lt hbefore
    have hone : 1 ≤ wholeMs (deadline - now) * ticksPerMs :=
      Nat.mul_pos (wholeMs_pos hpos) hticks
    have hspec := @platArmTimer_spec deadline now ticksPerMs hfinite (by rw [hdelta]; exact hpos)
    rw [hdelta] at hspec
    have hleft : ¬ deadline ≤ now := Nat.not_le.mpr hbefore
    by_cases hwrap : 2 ^ 64 < deadline - now + nsPerMs
    · rw [divRoundup_of_wrap (by omega) hwrap, Nat.zero_mul, if_pos (Nat.dvd_zero _)] at hspec
      rw [hspec]
      exact iff_of_true ⟨Nat.one_ne_zero, fun _ => hone, fun h => absurd h hleft⟩
        ⟨fun _ _ => Or.inr hwrap, fun h => absurd h hleft⟩
    rw [divRoundup_eq (Nat.not_lt.mp hwrap)] at hspec
    rw [hspec]
    by_cases hmult : 2 ^ 64 ∣ wholeMs (deadline - now) * ticksPerMs
    · rw [if_pos hmult]
      exact iff_of_true ⟨Nat.one_ne_zero, fun _ => hone, fun h => absurd h hleft⟩
        ⟨fun _ _ => Or.inl hmult, fun h => absurd h hleft⟩
    rw [if_neg hmult]
    constructor
    · intro h
      exact ⟨fun _ hhalf => absurd (Nat.mod_eq_zero_of_dvd hhalf) h.armed,
        fun hpassed => absurd hpassed hleft⟩
    · intro h
      refine ⟨fun hzero => ?_, fun _ => Nat.mod_le _ _, fun hpassed => absurd hpassed hleft⟩
      rcases h.1 hbefore (Nat.dvd_of_mod_eq_zero hzero) with hbad | hbad
      · exact hmult hbad
      · exact hwrap hbad
  · -- it has passed
    have hleft : ¬ now < deadline := Nat.not_lt.mpr hafter
    rcases Nat.eq_or_lt_of_le hafter with rfl | hlate
    · have hzero : wsub deadline deadline = 0 := by
        rw [wsub_of_le (le_refl _) hdeadline, Nat.sub_self]
      have hwrite : platArmTimer deadline deadline ticksPerMs = 1 := by
        unfold platArmTimer
        rw [if_neg hfinite]
        simp only [hzero, le_refl, or_true, if_true]
        rfl
      rw [hwrite]
      exact iff_of_true ⟨Nat.one_ne_zero, fun h => absurd h hleft, fun _ => rfl⟩
        ⟨fun h => absurd h hleft, fun _ => Or.inl (by omega)⟩
    have hdelta : wsub deadline now = 2 ^ 64 + deadline - now := by
      unfold wsub
      rw [Nat.add_comm deadline, Nat.mod_eq_of_lt (by omega)]
    have hspec := @platArmTimer_spec deadline now ticksPerMs hfinite (by rw [hdelta]; omega)
    rw [hdelta] at hspec
    by_cases hshort : now < deadline + nsPerMs
    · rw [divRoundup_of_wrap (by omega) (by omega), Nat.zero_mul, if_pos (Nat.dvd_zero _)] at hspec
      rw [hspec]
      exact iff_of_true ⟨Nat.one_ne_zero, fun h => absurd h hleft, fun _ => rfl⟩
        ⟨fun h => absurd h hleft, fun _ => Or.inl hshort⟩
    rw [divRoundup_eq (by omega)] at hspec
    rw [hspec]
    by_cases hmult : 2 ^ 64 ∣ wholeMs (2 ^ 64 + deadline - now) * ticksPerMs
    · rw [if_pos hmult]
      exact iff_of_true ⟨Nat.one_ne_zero, fun h => absurd h hleft, fun _ => rfl⟩
        ⟨fun h => absurd h hleft, fun _ => Or.inr (Or.inl hmult)⟩
    rw [if_neg hmult]
    constructor
    · intro h
      exact ⟨fun hbefore => absurd hbefore hleft, fun _ => Or.inr (Or.inr (h.passed hafter))⟩
    · intro h
      have hchance := ((h.2 hafter).resolve_left hshort).resolve_left hmult
      rw [hchance]
      exact ⟨Nat.one_ne_zero, fun hbefore => absurd hbefore hleft, fun _ => rfl⟩

/-- Ten milliseconds at 62500 ticks for each. -/
theorem armsInTime_ten : ArmsInTime 15000000 5000000 62500 (platArmTimer 15000000 5000000 62500) :=
  (armsInTime_iff (by decide) (by decide) (by decide) (by decide)).mpr
    ⟨fun _ h => absurd h (by decide), fun h => absurd h (by decide)⟩

/-- A deadline that is 2 ms ago is armed as if it were ahead; and one that is 65.536 s ahead, at
65536 ticks for each millisecond, disarms the timer. -/
theorem not_armsInTime :
    ¬ ArmsInTime 5000000 7000000 62500 (platArmTimer 5000000 7000000 62500) ∧
      ¬ ArmsInTime 65536000000 0 65536 (platArmTimer 65536000000 0 65536) := by
  constructor
  · intro h
    have hone := h.passed (by decide)
    exact absurd hone (by decide +kernel)
  · intro h
    exact h.armed (by decide +kernel)

end Lapic
