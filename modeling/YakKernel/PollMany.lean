/-
# Polling several objects

`poll_many` in `core/wait.c`, which `sched_wait_many` calls for `WAIT_MODE_POLL`: it looks at the
objects in rounds.  The `break` after an acquisition leaves the loop over the objects only, so the
next round may acquire again.
-/
import YakKernel.Kobject

namespace PollMany

open Kobject

variable {T O : Type*} [DecidableEq O]

/-! ## The code -/

/-- What the rest of the system does: the readings of `uptime`, and what happens to the objects
before the poll looks at the object number `i` in the round `r`. -/
structure Environment (T O : Type*) where
  uptime : ℕ → ℕ
  interfere : ℕ → ℕ → (O → Kobject T) → O → Kobject T

/-- A poll: the objects and the status, `none` for `YAK_TIMEOUT` and `some i` for
`YAK_WAIT_SUCCESS + i`.  Ghosts: the objects acquired, the last one first, and how often an object
was looked at after that. -/
structure Poll (T O : Type*) where
  objs : O → Kobject T
  ret : Option ℕ
  taken : List ℕ
  late : ℕ

/-- `POLL_ONCE`. -/
def pollOnce : ℕ := 0

/-- `TIMEOUT_INFINITE`. -/
def timeoutInfinite : ℕ := 2 ^ 64 - 1

/-- `has_timeout`. -/
def HasTimeout (timeout : ℕ) : Prop := timeout ≠ pollOnce ∧ timeout ≠ timeoutInfinite

instance (timeout : ℕ) : Decidable (HasTimeout timeout) :=
  inferInstanceAs (Decidable (timeout ≠ pollOnce ∧ timeout ≠ timeoutInfinite))

/-- The check at the beginning of the round `r`; the first reading of `uptime` made the
deadline. -/
def Expired (env : Environment T O) (timeout r : ℕ) : Prop :=
  HasTimeout timeout ∧ (env.uptime 0 + timeout) % 2 ^ 64 ≤ env.uptime (r + 1)

instance (env : Environment T O) (timeout r : ℕ) : Decidable (Expired env timeout r) :=
  inferInstanceAs (Decidable (HasTimeout timeout ∧ _ ≤ _))

/-- The loop over the objects in the round `r`, from the object number `i` on. -/
def scan (env : Environment T O) (r : ℕ) : List O → ℕ → Poll T O → Poll T O
  | [], _, s => s
  | o :: rest, i, s =>
    let objs := env.interfere r i s.objs
    let late := if s.taken = [] then s.late else s.late + 1
    if (objs o).isObjSignaled then
      ⟨Function.update objs o (objs o).objMaybeAcquire, some i, i :: s.taken, late⟩
    else scan env r rest (i + 1) ⟨objs, s.ret, s.taken, late⟩

/-- The outer loop of `poll_many` from the round `r` on. -/
def pollLoop (env : Environment T O) (objects : List O) (timeout : ℕ) :
    ℕ → ℕ → Poll T O → Option (Poll T O)
  | 0, _, _ => none
  | fuel + 1, r, s =>
    if Expired env timeout r then some s
    else if timeout ≠ pollOnce then
      pollLoop env objects timeout fuel (r + 1) (scan env r objects 0 s)
    else some (scan env r objects 0 s)

/-- `poll_many`. -/
def pollMany (env : Environment T O) (objects : List O) (timeout : ℕ) (world : O → Kobject T)
    (fuel : ℕ) : Option (Poll T O) :=
  pollLoop env objects timeout fuel 0 ⟨world, none, [], 0⟩

/-! ## What is signalled -/

/-- The loop over the objects finds one that is signalled. -/
def ScanFinds (env : Environment T O) (r : ℕ) : List O → ℕ → (O → Kobject T) → Prop
  | [], _, _ => False
  | o :: rest, i, world =>
    (env.interfere r i world o).isObjSignaled = true ∨
      ScanFinds env r rest (i + 1) (env.interfere r i world)

/-- The objects after a loop that finds none. -/
def quietScan (env : Environment T O) (r : ℕ) : List O → ℕ → (O → Kobject T) → O → Kobject T
  | [], _, world => world
  | _ :: rest, i, world => quietScan env r rest (i + 1) (env.interfere r i world)

/-- The objects before the round `r` when no round before it has found one. -/
def quiet (env : Environment T O) (objects : List O) (world : O → Kobject T) :
    ℕ → O → Kobject T
  | 0 => world
  | r + 1 => quietScan env r objects 0 (quiet env objects world r)

/-- The round `r` is the first to find a signalled object, if no round before it does. -/
def Finds (env : Environment T O) (objects : List O) (world : O → Kobject T) (r : ℕ) : Prop :=
  ScanFinds env r objects 0 (quiet env objects world r)

/-- **At most one signal is taken**: what is returned tells the one object that was acquired, and
no object was looked at after that; and the poll ends if the timeout is finite or some object is
signalled. -/
structure TakesOne (env : Environment T O) (objects : List O) (timeout : ℕ)
    (world : O → Kobject T) : Prop where
  result : ∀ fuel s, pollMany env objects timeout world fuel = some s →
    s.late = 0 ∧ ((s.taken = [] ∧ s.ret = none) ∨ ∃ i, s.taken = [i] ∧ s.ret = some i)
  ends : timeout ≠ timeoutInfinite ∨ (∃ r, Finds env objects world r) →
    ∃ fuel s, pollMany env objects timeout world fuel = some s

/-- **The condition**: the objects are looked at once, or when a round finds a signalled object
for the first time, the deadline has passed at the next check. -/
def EndsInTime (env : Environment T O) (objects : List O) (timeout : ℕ)
    (world : O → Kobject T) : Prop :=
  timeout = pollOnce ∨ ∀ r, (∀ k ≤ r, ¬ Expired env timeout k) →
    (∀ k < r, ¬ Finds env objects world k) → Finds env objects world r →
    Expired env timeout (r + 1)

/-! ## One round -/

variable {env : Environment T O} {objects l : List O} {timeout r i fuel : ℕ}
  {world : O → Kobject T} {s s' : Poll T O}

theorem scan_of_quiet (h : ¬ ScanFinds env r l i world) :
    scan env r l i ⟨world, none, [], 0⟩ = ⟨quietScan env r l i world, none, [], 0⟩ := by
  induction l generalizing i world with
  | nil => rfl
  | cons o rest ih =>
    simp only [ScanFinds, not_or] at h
    simp only [scan, if_neg h.1, if_true, quietScan]
    exact ih h.2

theorem scan_of_finds (h : ScanFinds env r l i world) :
    ∃ j, (scan env r l i ⟨world, none, [], 0⟩).taken = [j] ∧
      (scan env r l i ⟨world, none, [], 0⟩).ret = some j ∧
      (scan env r l i ⟨world, none, [], 0⟩).late = 0 := by
  induction l generalizing i world with
  | nil => exact h.elim
  | cons o rest ih =>
    simp only [scan, if_true]
    by_cases hsig : (env.interfere r i world o).isObjSignaled = true
    · rw [if_pos hsig]
      exact ⟨i, rfl, rfl, rfl⟩
    · rw [if_neg hsig]
      exact ih (h.resolve_left hsig)

theorem scan_grows (s : Poll T O) :
    s.late ≤ (scan env r l i s).late ∧ (s.taken ≠ [] → (scan env r l i s).taken ≠ []) := by
  induction l generalizing i s with
  | nil => exact ⟨le_refl _, fun h => h⟩
  | cons o rest ih =>
    have hle : s.late ≤ if s.taken = [] then s.late else s.late + 1 := by
      split_ifs
      · exact le_refl _
      · exact Nat.le_succ _
    simp only [scan]
    by_cases hsig : (env.interfere r i s.objs o).isObjSignaled = true
    · rw [if_pos hsig]
      exact ⟨hle, fun _ => List.cons_ne_nil _ _⟩
    · rw [if_neg hsig]
      obtain ⟨hlate, htaken⟩ := @ih (i + 1) ⟨env.interfere r i s.objs, s.ret, s.taken,
        if s.taken = [] then s.late else s.late + 1⟩
      exact ⟨hle.trans hlate, htaken⟩

theorem scan_late (hl : l ≠ []) (htaken : s.taken ≠ []) : s.late < (scan env r l i s).late := by
  obtain ⟨o, rest, rfl⟩ := List.exists_cons_of_ne_nil hl
  simp only [scan, if_neg htaken]
  split_ifs
  · exact Nat.lt_succ_self _
  · exact (@scan_grows T O _ env rest r (i + 1) ⟨_, s.ret, s.taken, s.late + 1⟩).1

/-! ## The rounds -/

/-- A poll that has acquired nothing yet. -/
def waiting (world : O → Kobject T) : Poll T O := ⟨world, none, [], 0⟩

/-- Nothing happens in the rounds before `r`: they are made, and find nothing. -/
def QuietBefore (env : Environment T O) (objects : List O) (timeout : ℕ) (world : O → Kobject T)
    (r : ℕ) : Prop :=
  ∀ k < r, ¬ Expired env timeout k ∧ ¬ Finds env objects world k

theorem pollLoop_quiet (honce : timeout ≠ pollOnce) (hrun : ¬ Expired env timeout r)
    (hquiet : ¬ Finds env objects world r) :
    pollLoop env objects timeout (fuel + 1) r (waiting (quiet env objects world r)) =
      pollLoop env objects timeout fuel (r + 1) (waiting (quiet env objects world (r + 1))) := by
  have hscan : scan env r objects 0 (waiting (quiet env objects world r)) =
      waiting (quiet env objects world (r + 1)) := scan_of_quiet hquiet
  rw [pollLoop, if_neg hrun, if_pos honce, hscan]

theorem pollMany_quiet (honce : timeout ≠ pollOnce)
    (h : pollMany env objects timeout world fuel = some s)
    (hquiet : QuietBefore env objects timeout world r) :
    ∃ fuel', pollLoop env objects timeout fuel' r (waiting (quiet env objects world r)) =
      some s := by
  induction r with
  | zero => exact ⟨fuel, h⟩
  | succ r ih =>
    obtain ⟨fuel', hloop⟩ := ih (fun k hk => hquiet k (Nat.lt_succ_of_lt hk))
    obtain ⟨hrun, hnone⟩ := hquiet r (Nat.lt_succ_self r)
    cases fuel' with
    | zero => cases hloop
    | succ fuel' =>
      rw [pollLoop_quiet honce hrun hnone] at hloop
      exact ⟨fuel', hloop⟩

theorem pollLoop_grows (h : pollLoop env objects timeout fuel r s = some s') :
    s.late ≤ s'.late := by
  induction fuel generalizing r s with
  | zero => cases h
  | succ fuel ih =>
    rw [pollLoop] at h
    split_ifs at h
    · cases h
      exact le_refl _
    · exact (scan_grows s).1.trans (ih h)
    · cases h
      exact (scan_grows s).1

theorem pollLoop_ends {k : ℕ} (hle : r ≤ k) (hexp : Expired env timeout k) (s : Poll T O) :
    ∃ fuel s', pollLoop env objects timeout fuel r s = some s' := by
  obtain ⟨d, rfl⟩ := Nat.exists_eq_add_of_le hle
  clear hle
  induction d generalizing r s with
  | zero =>
    rw [Nat.add_zero] at hexp
    exact ⟨1, s, by rw [pollLoop, if_pos hexp]⟩
  | succ d ih =>
    by_cases hnow : Expired env timeout r
    · exact ⟨1, s, by rw [pollLoop, if_pos hnow]⟩
    · have hexp' : Expired env timeout (r + 1 + d) := by
        rwa [Nat.add_assoc, Nat.add_comm 1 d]
      obtain ⟨fuel, s', hs'⟩ := ih (scan env r objects 0 s) hexp'
      refine ⟨fuel + 1, s', ?_⟩
      rw [pollLoop, if_neg hnow, if_pos hexp.1.1]
      exact hs'

theorem pollLoop_infinite (hinf : timeout = timeoutInfinite) :
    pollLoop env objects timeout fuel r s = none := by
  induction fuel generalizing r s with
  | zero => rfl
  | succ fuel ih =>
    have hrun : ¬ Expired env timeout r := fun h => h.1.2 hinf
    have honce : timeout ≠ pollOnce := by
      rw [hinf]
      decide
    rw [pollLoop, if_neg hrun, if_pos honce]
    exact ih

/-! ## When one signal is taken -/

/-- The status of a poll that was right. -/
def Right (s : Poll T O) : Prop :=
  s.late = 0 ∧ ((s.taken = [] ∧ s.ret = none) ∨ ∃ i, s.taken = [i] ∧ s.ret = some i)

omit [DecidableEq O] in
theorem right_waiting (world : O → Kobject T) : Right (waiting world) :=
  ⟨rfl, Or.inl ⟨rfl, rfl⟩⟩

theorem right_scan (hfinds : ScanFinds env r l i world) :
    Right (scan env r l i (waiting world)) := by
  obtain ⟨j, htaken, hret, hlate⟩ := scan_of_finds hfinds
  exact ⟨hlate, Or.inr ⟨j, htaken, hret⟩⟩

theorem right_round (env : Environment T O) (r : ℕ) (l : List O) (i : ℕ) (world : O → Kobject T) :
    Right (scan env r l i (waiting world)) := by
  by_cases hfinds : ScanFinds env r l i world
  · exact right_scan hfinds
  · have hscan : scan env r l i (waiting world) = waiting (quietScan env r l i world) :=
      scan_of_quiet hfinds
    rw [hscan]
    exact right_waiting _

/-- **Under the condition** what the loop returns is right. -/
theorem right_of_endsInTime (honce : timeout ≠ pollOnce)
    (h : EndsInTime env objects timeout world)
    (hquiet : QuietBefore env objects timeout world r)
    (hrun : pollLoop env objects timeout fuel r (waiting (quiet env objects world r)) = some s) :
    Right s := by
  induction fuel generalizing r with
  | zero => cases hrun
  | succ fuel ih =>
    by_cases hexp : Expired env timeout r
    · rw [pollLoop, if_pos hexp] at hrun
      cases hrun
      exact right_waiting _
    by_cases hfinds : Finds env objects world r
    · -- the check after the round that finds one ends the poll
      have hexp' : Expired env timeout (r + 1) := by
        refine h.resolve_left honce r (fun k hk => ?_) (fun k hk => (hquiet k hk).2) hfinds
        rcases Nat.lt_or_eq_of_le hk with hk | rfl
        · exact (hquiet k hk).1
        · exact hexp
      rw [pollLoop, if_neg hexp, if_pos honce] at hrun
      cases fuel with
      | zero => cases hrun
      | succ fuel =>
        rw [pollLoop, if_pos hexp'] at hrun
        cases hrun
        exact right_scan hfinds
    · rw [pollLoop_quiet honce hexp hfinds] at hrun
      refine ih (fun k hk => ?_) hrun
      rcases Nat.lt_succ_iff_lt_or_eq.mp hk with hk | rfl
      · exact hquiet k hk
      · exact ⟨hexp, hfinds⟩

/-- **Polling several objects** takes at most one signal, and ends when it has to, exactly under the
condition; time has to pass. -/
theorem takesOne_iff (env : Environment T O) (objects : List O) (timeout : ℕ)
    (world : O → Kobject T)
    (hclock : ∀ deadline < 2 ^ 64, ∃ n, ∀ m, n ≤ m → deadline ≤ env.uptime m) :
    TakesOne env objects timeout world ↔ EndsInTime env objects timeout world := by
  have hnever : timeout = timeoutInfinite → ∀ k, ¬ Expired env timeout k :=
    fun hinf k hexp => hexp.1.2 hinf
  constructor
  · rintro ⟨hresult, hends⟩
    refine or_iff_not_imp_left.mpr (fun honce r hruns hfirst hfinds => ?_)
    by_contra hlate
    -- the poll returns, but it has made another round
    obtain ⟨fuel, s, hs⟩ := hends (Or.inr ⟨r, hfinds⟩)
    obtain ⟨fuel', hloop⟩ := pollMany_quiet honce hs
      (fun k hk => ⟨hruns k hk.le, hfirst k hk⟩)
    obtain ⟨j, htaken, -, -⟩ := scan_of_finds hfinds
    have hne : (scan env r objects 0 (waiting (quiet env objects world r))).taken ≠ [] := by
      intro hnil
      exact List.cons_ne_nil j [] (htaken.symm.trans hnil)
    have hobjects : objects ≠ [] := by
      rintro rfl
      exact hfinds
    cases fuel' with
    | zero => cases hloop
    | succ fuel' =>
      rw [pollLoop, if_neg (hruns r (le_refl r)), if_pos honce] at hloop
      cases fuel' with
      | zero => cases hloop
      | succ fuel' =>
        rw [pollLoop, if_neg hlate, if_pos honce] at hloop
        have hgrow := @scan_late T O _ env objects (r + 1) 0 _ hobjects hne
        have hmono := pollLoop_grows hloop
        have hzero := (hresult fuel s hs).1
        omega
  · intro hcond
    refine ⟨fun fuel s hs => ?_, fun hdue => ?_⟩
    · by_cases honce : timeout = pollOnce
      · -- a single round
        have hrun : ¬ Expired env timeout 0 := fun h => h.1.1 honce
        unfold pollMany at hs
        cases fuel with
        | zero => cases hs
        | succ fuel =>
          rw [pollLoop, if_neg hrun, if_neg (not_not.mpr honce)] at hs
          cases hs
          exact right_round env 0 objects 0 world
      · exact right_of_endsInTime honce hcond (fun k hk => absurd hk (Nat.not_lt_zero k)) hs
    · by_cases honce : timeout = pollOnce
      · have hrun : ¬ Expired env timeout 0 := fun h => h.1.1 honce
        refine ⟨1, scan env 0 objects 0 ⟨world, none, [], 0⟩, ?_⟩
        rw [pollMany, pollLoop, if_neg hrun, if_neg (not_not.mpr honce)]
      by_cases hinf : timeout = timeoutInfinite
      · -- a signalled object would have been found, and then the deadline would have passed
        classical
        have hex := hdue.resolve_left (not_not.mpr hinf)
        have hexp := hcond.resolve_left honce (Nat.find hex) (fun k _ => hnever hinf k)
          (fun k hk => Nat.find_min hex hk) (Nat.find_spec hex)
        exact absurd hexp (hnever hinf _)
      · obtain ⟨n, hn⟩ := hclock _ (Nat.mod_lt (env.uptime 0 + timeout) (Nat.two_pow_pos 64))
        have hexp : Expired env timeout n := ⟨⟨honce, hinf⟩, hn (n + 1) (Nat.le_succ n)⟩
        exact pollLoop_ends (Nat.zero_le n) hexp _

/-- Nobody else touches the objects, and every reading of `uptime` is one later. -/
def undisturbed : Environment Unit (Fin 2) := ⟨fun n => n, fun _ _ world => world⟩

/-- Two semaphores, the second with one signal. -/
def oneSignal : Fin 2 → Kobject Unit := fun o => kobjectInit (if o = 1 then 1 else 0) .objSync

/-- Three signals of one semaphore. -/
def threeSignals : Fin 2 → Kobject Unit := fun o => kobjectInit (if o = 1 then 3 else 0) .objSync

/-- Looking at the objects once takes one of the three signals. -/
theorem takesOne_once : TakesOne undisturbed [0, 1] pollOnce threeSignals :=
  (takesOne_iff _ _ _ _ (fun deadline _ => ⟨deadline, fun _ hm => hm⟩)).mpr (Or.inl rfl)

/-- With a timeout of three nanoseconds two signals are taken; without a timeout the poll does not
return although one of the objects is signalled. -/
theorem not_takesOne : ¬ TakesOne undisturbed [0, 1] 3 threeSignals ∧
    ¬ TakesOne undisturbed [0, 1] timeoutInfinite oneSignal := by
  constructor
  · intro h
    have hrun : (pollMany undisturbed [0, 1] 3 threeSignals 4).map Poll.taken = some [1, 1] := by
      decide +kernel
    obtain ⟨s, hs, htaken⟩ := Option.map_eq_some_iff.mp hrun
    obtain ⟨-, hright⟩ := h.result 4 s hs
    rw [htaken] at hright
    rcases hright with ⟨hnil, -⟩ | ⟨i, hone, -⟩
    · cases hnil
    · cases hone
  · intro h
    have hfinds : Finds undisturbed [0, 1] oneSignal 0 := Or.inr (Or.inl (by decide +kernel))
    obtain ⟨fuel, s, hs⟩ := h.ends (Or.inr ⟨0, hfinds⟩)
    rw [pollMany, pollLoop_infinite rfl] at hs
    cases hs

end PollMany
