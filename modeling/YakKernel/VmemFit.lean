/-
# Finding a fit

`vmem_xalloc` on an arena without a source: it succeeds exactly if a free segment, cut to the
bounds, is large enough, and the best fit takes the smallest such segment.  The search starts
at the class of the size, which holds smaller segments too, and ends with the first class that
has a candidate.
-/
import YakKernel.VmemRuns

namespace Vmem

open SegmentQueue

variable {s s' : Arena} {size minaddr maxaddr : ℕ} {flags : Flags} {t best at_ : ℕ}
variable {tag : VmemTag}

/-! ## What can serve a request -/

/-- The start of a segment cut to the bounds. -/
def clipStart (minaddr : ℕ) (tag : VmemTag) : ℕ := max tag.start minaddr

/-- The end of a segment cut to the bounds; there is no bound at `NULL`. -/
def clipEnd (maxaddr : ℕ) (tag : VmemTag) : ℕ :=
  if maxaddr = 0 then tag.start + tag.size else min (tag.start + tag.size) maxaddr

/-- The free segment `t`, cut to the bounds, has at least `size` bytes. -/
def CanServe (s : Arena) (size minaddr maxaddr t : ℕ) : Prop :=
  t ∈ s.allTags ∧ (s.tags t).type = .free ∧
    clipStart minaddr (s.tags t) + size ≤ clipEnd maxaddr (s.tags t)

theorem CanServe.size_le (h : CanServe s size minaddr maxaddr t) : size ≤ (s.tags t).size := by
  have hfit := h.2.2
  unfold clipStart clipEnd at hfit
  split_ifs at hfit <;> omega

/-! ## The best of a list -/

variable {fit : VmemTag → Option ℕ}

variable {spans : List Span}

/-- A request that the arena can be asked. -/
structure Request (s : Arena) (size minaddr maxaddr : ℕ) (flags : Flags) : Prop where
  size_ge : 2 ≤ size
  min_lt : minaddr < 2 ^ 64
  max_lt : maxaddr < 2 ^ 64
  bounds : maxaddr = 0 ∨ minaddr < maxaddr
  /-- the reserve, for requests that do not refill it -/
  reserve : flags.populate = true → 2 ≤ s.freetags.length

/-- The segment `t` serves the request at `at_`. -/
structure Serves (s s' : Arena) (size minaddr maxaddr : ℕ) (flags : Flags) (t at_ : ℕ) :
    Prop where
  can : CanServe s size minaddr maxaddr t
  taken : s'.tags t = ⟨.allocated, at_, size⟩
  start_le : (s.tags t).start ≤ at_
  le_end : at_ + size ≤ (s.tags t).start + (s.tags t).size
  min_le : minaddr ≤ at_
  le_max : maxaddr = 0 ∨ at_ + size ≤ maxaddr
  best : flags.bestfit = true → flags.instantfit = false →
    ∀ u, CanServe s size minaddr maxaddr u → (s.tags t).size ≤ (s.tags u).size

end Vmem
