/-
# The order of priorities

Between taking its next thread and entering it, a processor is dispatching.  The invariant of one
processor: no real-time thread in its queues is above the thread that will be taken next, or else
the one that is being dispatched or runs.  The lemmas say how `sched_insert` and `select_next` keep
it, as long as an insertion compares with the old current thread as it would with the dispatched
one.
-/
import YakKernel.SchedPlacement

namespace Sched

set_option linter.unusedSectionVars false

variable {C T : Type*}

/-! ## Dispatching -/

/-- The thread that a processor has taken and not yet entered. -/
def Pc.dispatching (pc : Pc C T) (c : C) : Option (Tid C T) :=
  match pc with
  | .preemptTaken next | .preemptLocked next | .swtching next => some next
  | .yieldTaken next => some (next.getD (.idle c))
  | _ => none

/-- `sched_preempt` has not yet put the current thread back. -/
def Pc.preempting : Pc C T → Option (Tid C T)
  | .preemptTaken next | .preemptLocked next => some next
  | _ => none

/-- The priority of a thread. -/
def State.prio (s : State C T) (u : Tid C T) : ℕ := (s.threads u).priority.val

/-- The thread that a processor runs or is about to run. -/
def Cpu.top (cpu : Cpu C T) (pc : Pc C T) (c : C) : Tid C T :=
  (pc.dispatching c).getD cpu.currentThread

/-- The thread with which an insertion is to compare. -/
def Cpu.comparand (cpu : Cpu C T) (pc : Pc C T) (c : C) : Tid C T :=
  cpu.nextThread.getD (cpu.top pc c)

/-- **The invariant of a processor.**  A queue of a runqueue has the threads of one priority,
real-time ones are in the current runqueue only, and none of them is above the thread that comes
next; that one is not below a real-time thread that runs, and neither is the one that preempts
it. -/
structure Cpu.Ordered (prio : Tid C T → ℕ) (c : C) (cpu : Cpu C T) (pc : Pc C T) : Prop where
  index : ∀ i p u, u ∈ (cpu.rqs i).queues p → prio u = p + 1
  current : ∀ i p u, u ∈ (cpu.rqs i).queues p → prioRealTime ≤ prio u → i = cpu.currentRq
  idleRq : ∀ u ∈ cpu.idleRq, prio u < prioRealTime
  bound : ∀ q, ∀ u ∈ cpu.queue q, prioRealTime ≤ prio u → prio u ≤ prio (cpu.comparand pc c)
  better : ∀ next, cpu.nextThread = some next → prioRealTime ≤ prio (cpu.top pc c) →
    prio (cpu.top pc c) ≤ prio next
  preempted : ∀ next, pc.preempting = some next → prioRealTime ≤ prio cpu.currentThread →
    prio cpu.currentThread ≤ prio next

/-- **The condition on an insertion** of thread `u`, on a processor that is dispatching `next` and
has no next thread: the comparison with the thread that was current has the outcome that the one
with `next` would have. -/
def Cpu.Agrees (prio : Tid C T → ℕ) (c : C) (cpu : Cpu C T) (u next : Tid C T) : Prop :=
  (prioRealTime ≤ prio u → (prio u ≤ prio cpu.currentThread ↔ prio u ≤ prio next)) ∧
    (prio u < prioRealTime → cpu.currentThread = .idle c → prio next < prioRealTime)

instance [DecidableEq C] [DecidableEq T] (prio : Tid C T → ℕ) (c : C) (cpu : Cpu C T)
    (u next : Tid C T) : Decidable (cpu.Agrees prio c u next) :=
  inferInstanceAs (Decidable (_ ∧ _))

section

variable {prio prio' : Tid C T → ℕ} {c : C} {cpu : Cpu C T} {pc pc' : Pc C T} {t u : Tid C T}

theorem Cpu.Ordered.congr (h : cpu.Ordered prio c pc) (htop : cpu.top pc' c = cpu.top pc c)
    (hpre : ∀ next, pc'.preempting = some next → pc.preempting = some next) :
    cpu.Ordered prio c pc' where
  index := h.index
  current := h.current
  idleRq := h.idleRq
  bound := by
    rw [Cpu.comparand, htop]
    exact h.bound
  better := by
    rw [htop]
    exact h.better
  preempted := fun next hnext => h.preempted next (hpre next hnext)

theorem Cpu.Ordered.of_prio (h : cpu.Ordered prio c pc)
    (hqueue : ∀ q, ∀ u ∈ cpu.queue q, prio' u = prio u)
    (hnext : ∀ u, cpu.nextThread = some u → prio' u = prio u)
    (htop : prio' (cpu.top pc c) = prio (cpu.top pc c))
    (hpre : ∀ next, pc.preempting = some next → prio' next = prio next ∧
      prio' cpu.currentThread = prio cpu.currentThread) : cpu.Ordered prio' c pc where
  index := by
    intro i p u hu
    rw [hqueue (.rq i p) u hu]
    exact h.index i p u hu
  current := by
    intro i p u hu hrt
    rw [hqueue (.rq i p) u hu] at hrt
    exact h.current i p u hu hrt
  idleRq := by
    intro u hu
    rw [hqueue .idleRq u hu]
    exact h.idleRq u hu
  bound := by
    intro q u hu hrt
    have hcomp : prio' (cpu.comparand pc c) = prio (cpu.comparand pc c) := by
      rw [Cpu.comparand]
      cases hn : cpu.nextThread with
      | none => exact htop
      | some next => exact hnext next hn
    rw [hqueue q u hu] at hrt ⊢
    rw [hcomp]
    exact h.bound q u hu hrt
  better := by
    intro next hn hrt
    rw [htop] at hrt ⊢
    rw [hnext next hn]
    exact h.better next hn hrt
  preempted := by
    intro next hn hrt
    obtain ⟨hp, hc⟩ := hpre next hn
    rw [hc] at hrt ⊢
    rw [hp]
    exact h.preempted next hn hrt

/-! ## Inserting -/

theorem Cpu.mem_rqInsert {i j : Bool} {n p : ℕ} (h : u ∈ ((cpu.rqInsert i t n).rqs j).queues p) :
    u ∈ (cpu.rqs j).queues p ∨ (u = t ∧ j = i ∧ p = n - 1) := by
  by_cases hj : j = i
  · subst hj
    simp only [Cpu.rqInsert, Function.update_self, schedRqInsert] at h
    by_cases hp : p = n - 1
    · subst hp
      rw [Function.update_self] at h
      rcases List.mem_append.mp h with hin | hin
      · exact Or.inl hin
      · exact Or.inr ⟨List.mem_singleton.mp hin, rfl, rfl⟩
    · rw [Function.update_of_ne hp] at h
      exact Or.inl h
  · simp only [Cpu.rqInsert, Function.update_of_ne hj] at h
    exact Or.inl h

/-- A thread goes to a runqueue; a real-time one to the current, if it is not above the thread that
comes next. -/
theorem Cpu.Ordered.rqInsert (h : cpu.Ordered prio c pc) {i : Bool} (hpos : 1 ≤ prio t)
    (hrt : prioRealTime ≤ prio t → i = cpu.currentRq ∧ prio t ≤ prio (cpu.comparand pc c)) :
    (cpu.rqInsert i t (prio t)).Ordered prio c pc where
  index := by
    intro j p u hu
    rcases Cpu.mem_rqInsert hu with hu | ⟨rfl, _, rfl⟩
    · exact h.index j p u hu
    · omega
  current := by
    intro j p u hu hu'
    rcases Cpu.mem_rqInsert hu with hu | ⟨rfl, rfl, _⟩
    · exact h.current j p u hu hu'
    · exact (hrt hu').1
  idleRq := h.idleRq
  bound := by
    intro q u hu hu'
    cases q with
    | idleRq => exact h.bound .idleRq u hu hu'
    | rq j p =>
      rcases Cpu.mem_rqInsert hu with hu | ⟨rfl, _, _⟩
      · exact h.bound (.rq j p) u hu hu'
      · exact (hrt hu').2
  better := h.better
  preempted := h.preempted

theorem Cpu.Ordered.idleInsert (h : cpu.Ordered prio c pc) (hlow : prio t < prioRealTime) :
    ({ cpu with idleRq := cpu.idleRq ++ [t] } : Cpu C T).Ordered prio c pc where
  index := h.index
  current := h.current
  idleRq := by
    intro u hu
    rcases List.mem_append.mp hu with hu | hu
    · exact h.idleRq u hu
    · rw [List.mem_singleton.mp hu]
      exact hlow
  bound := by
    intro q u hu hrt
    cases q with
    | rq i p => exact h.bound (.rq i p) u hu hrt
    | idleRq =>
      rcases List.mem_append.mp hu with hu | hu
      · exact h.bound .idleRq u hu hrt
      · rw [List.mem_singleton.mp hu] at hrt
        omega
  better := h.better
  preempted := h.preempted

/-- A thread becomes the next one; it is above what came next before, if that is a real-time
thread. -/
theorem Cpu.Ordered.setNext (h : cpu.Ordered prio c pc)
    (hcomp : prioRealTime ≤ prio (cpu.comparand pc c) → prio (cpu.comparand pc c) ≤ prio t) :
    ({ cpu with nextThread := some t } : Cpu C T).Ordered prio c pc where
  index := h.index
  current := h.current
  idleRq := h.idleRq
  bound := by
    intro q u hu hrt
    have hle : prio u ≤ prio (cpu.comparand pc c) := h.bound q u hu hrt
    exact hle.trans (hcomp (hrt.trans hle))
  better := by
    intro next hnext hrt
    rw [← Option.some.inj hnext]
    show prio (cpu.top pc c) ≤ prio t
    change prioRealTime ≤ prio (cpu.top pc c) at hrt
    cases hn : cpu.nextThread with
    | none =>
      rw [Cpu.comparand, hn] at hcomp
      exact hcomp hrt
    | some old =>
      rw [Cpu.comparand, hn] at hcomp
      have hle := h.better old hn hrt
      exact hle.trans (hcomp (hrt.trans hle))
  preempted := h.preempted

section

variable [DecidableEq C] [DecidableEq T] {s s' : State C T}

/-- The threads have the same priorities and locks. -/
structure State.SameThreads (s s' : State C T) : Prop where
  prio : s'.prio = s.prio
  locked : ∀ u, (s'.threads u).threadLocked = (s.threads u).threadLocked

theorem State.SameThreads.trans {s₁ s₂ : State C T} (h : s.SameThreads s₁)
    (h' : s₁.SameThreads s₂) : s.SameThreads s₂ :=
  ⟨h'.prio.trans h.prio, fun u => (h'.locked u).trans (h.locked u)⟩

theorem State.prio_modifyThread (s : State C T) (t : Tid C T) (f : Kthread C → Kthread C)
    (hf : (f (s.threads t)).priority = (s.threads t).priority) :
    (s.modifyThread t f).prio = s.prio := by
  funext u
  rw [State.prio, State.prio, State.modifyThread_threads]
  by_cases hu : u = t
  · rw [hu, Function.update_self, hf]
  · rw [Function.update_of_ne hu]

theorem State.SameThreads.modifyThread (s : State C T) (t : Tid C T)
    (f : Kthread C → Kthread C) (hprio : (f (s.threads t)).priority = (s.threads t).priority)
    (hlocked : (f (s.threads t)).threadLocked = (s.threads t).threadLocked) :
    s.SameThreads (s.modifyThread t f) where
  prio := s.prio_modifyThread t f hprio
  locked := by
    intro u
    rw [State.modifyThread_threads]
    by_cases hu : u = t
    · rw [hu, Function.update_self, hlocked]
    · rw [Function.update_of_ne hu]

/-- What `sched_insert` leaves alone. -/
structure State.SameElsewhere (s s' : State C T) (c : C) : Prop where
  threads : s.SameThreads s'
  cpus : ∀ d, d ≠ c → s'.cpus d = s.cpus d
  currentThread : (s'.cpus c).currentThread = (s.cpus c).currentThread
  pc : s'.pc = s.pc
  resuming : s'.resuming = s.resuming

theorem State.SameElsewhere.modifyCpu {s₁ : State C T} (hthreads : s.SameThreads s₁)
    (hcpus : s₁.cpus = s.cpus) (hpc : s₁.pc = s.pc) (hres : s₁.resuming = s.resuming)
    (f : Cpu C T → Cpu C T) (hf : (f (s.cpus c)).currentThread = (s.cpus c).currentThread) :
    s.SameElsewhere (s₁.modifyCpu c f) c where
  threads := ⟨hthreads.prio, hthreads.locked⟩
  cpus := by
    intro d hd
    rw [State.modifyCpu_cpus, Function.update_of_ne hd, hcpus]
  currentThread := by
    rw [State.modifyCpu_cpus, Function.update_self, hcpus]
    exact hf
  pc := hpc
  resuming := hres

theorem State.SameElsewhere.trans {s₁ s₂ : State C T} (h : s.SameElsewhere s₁ c)
    (h' : s₁.SameElsewhere s₂ c) : s.SameElsewhere s₂ c where
  threads := h.threads.trans h'.threads
  cpus := fun d hd => (h'.cpus d hd).trans (h.cpus d hd)
  currentThread := h'.currentThread.trans h.currentThread
  pc := h'.pc.trans h.pc
  resuming := h'.resuming.trans h.resuming

/-- **One round of `sched_insert`** keeps the order, if the comparison has the right outcome; the
thread that it replaces is left, and the new next thread is above it. -/
theorem insertRound_ordered (h : (s.cpus c).Ordered s.prio c (s.pc c)) (thread : Tid C T)
    (hcomp : ∀ comp, (s.cpus c).nextThread.getD (s.cpus c).currentThread = comp →
      (prioRealTime ≤ s.prio thread →
        (s.prio thread ≤ s.prio comp ↔ s.prio thread ≤ s.prio ((s.cpus c).comparand (s.pc c) c))) ∧
      (s.prio thread < prioRealTime → comp = .idle c →
        s.prio ((s.cpus c).comparand (s.pc c) c) < prioRealTime)) :
    ∃ s₁ r, insertRound s c thread = (s₁, r) ∧ s.SameElsewhere s₁ c ∧
      (s₁.cpus c).Ordered s₁.prio c (s₁.pc c) ∧
      (r = none ∨ (r = (s.cpus c).nextThread ∧ (s₁.cpus c).nextThread = some thread)) := by
  obtain ⟨hreal, hidle⟩ := hcomp _ rfl
  generalize hc : (s.cpus c).nextThread.getD (s.cpus c).currentThread = comp at hreal hidle
  have hready : s.SameThreads (s.setReady c thread) :=
    State.SameThreads.modifyThread s thread _ rfl rfl
  have hcpus : (s.setReady c thread).cpus = s.cpus := rfl
  have hp : ∀ u, ((s.setReady c thread).threads u).priority.val = s.prio u :=
    fun u => congrFun hready.prio u
  unfold insertRound
  simp only [hp, hcpus, hc]
  by_cases h1 : prioRealTime ≤ s.prio thread ∧ s.prio thread ≤ s.prio comp
  · rw [if_pos h1]
    have hsame := State.SameElsewhere.modifyCpu (c := c) hready hcpus rfl rfl
      (fun cpu => cpu.rqInsert cpu.currentRq thread (s.prio thread)) rfl
    refine ⟨_, _, rfl, hsame, ?_, Or.inl rfl⟩
    rw [hsame.threads.prio, hsame.pc, State.modifyCpu_cpus, Function.update_self, hcpus]
    refine h.rqInsert ?_ (fun hrt => ⟨rfl, (hreal hrt).mp h1.2⟩)
    unfold prioRealTime at h1
    omega
  rw [if_neg h1]
  by_cases h2 : s.prio thread < prioRealTime ∧ comp ≠ .idle c
  · rw [if_pos h2]
    by_cases h3 : s.prio thread = prioTimeShare
    · rw [if_pos h3]
      have hsame := State.SameElsewhere.modifyCpu (c := c) hready hcpus rfl rfl
        (fun cpu => cpu.rqInsert cpu.nextRq thread (s.prio thread)) rfl
      refine ⟨_, _, rfl, hsame, ?_, Or.inl rfl⟩
      rw [hsame.threads.prio, hsame.pc, State.modifyCpu_cpus, Function.update_self, hcpus]
      refine h.rqInsert ?_ (fun hrt => absurd h2.1 (Nat.not_lt_of_le hrt))
      rw [h3, prioTimeShare]
    · rw [if_neg h3]
      have hsame := State.SameElsewhere.modifyCpu (c := c) hready hcpus rfl rfl
        (fun cpu => { cpu with idleRq := cpu.idleRq ++ [thread] }) rfl
      refine ⟨_, _, rfl, hsame, ?_, Or.inl rfl⟩
      rw [hsame.threads.prio, hsame.pc, State.modifyCpu_cpus, Function.update_self, hcpus]
      exact h.idleInsert h2.1
  · rw [if_neg h2]
    have hstatus : s.SameThreads ((s.setReady c thread).setStatus thread .next) :=
      hready.trans (State.SameThreads.modifyThread _ thread _ rfl rfl)
    have hsame := State.SameElsewhere.modifyCpu (c := c) hstatus rfl rfl rfl
      (fun cpu => { cpu with nextThread := some thread }) rfl
    refine ⟨_, _, rfl, hsame, ?_, Or.inr ⟨rfl, ?_⟩⟩
    · rw [hsame.threads.prio, hsame.pc, State.modifyCpu_cpus, Function.update_self]
      refine h.setNext (fun hrt => ?_)
      by_cases hthread : prioRealTime ≤ s.prio thread
      · have hnot : ¬ s.prio thread ≤ s.prio comp := fun hle => h1 ⟨hthread, hle⟩
        rw [hreal hthread] at hnot
        exact Nat.le_of_not_le hnot
      · have hlow := Nat.lt_of_not_le hthread
        have hcomp' : comp = .idle c := by
          by_contra hne
          exact h2 ⟨hlow, hne⟩
        exact absurd hrt (Nat.not_le_of_lt (hidle hlow hcomp'))
    · rw [State.modifyCpu_cpus, Function.update_self]

/-- **`sched_insert`** keeps the order, if the comparison with the current thread has the outcome
that the one with the dispatched thread would have. -/
theorem schedInsert_ordered (h : (s.cpus c).Ordered s.prio c (s.pc c)) {thread : Tid C T}
    (hidle : ∀ d, s.prio (.idle d) = 0)
    (hagrees : (s.cpus c).nextThread = none → ∀ next, (s.pc c).dispatching c = some next →
      (s.cpus c).Agrees s.prio c thread next) (hs : schedInsert 2 s c thread = some s') :
    s.SameElsewhere s' c ∧ (s'.cpus c).Ordered s'.prio c (s'.pc c) := by
  have hzero : ∀ d, s.prio (.idle d) < prioRealTime := by
    intro d
    rw [hidle d]
    decide
  have hcomp : ∀ comp, (s.cpus c).nextThread.getD (s.cpus c).currentThread = comp →
      (prioRealTime ≤ s.prio thread →
        (s.prio thread ≤ s.prio comp ↔ s.prio thread ≤ s.prio ((s.cpus c).comparand (s.pc c) c))) ∧
      (s.prio thread < prioRealTime → comp = .idle c →
        s.prio ((s.cpus c).comparand (s.pc c) c) < prioRealTime) := by
    rintro comp rfl
    rw [Cpu.comparand, Cpu.top]
    cases hn : (s.cpus c).nextThread with
    | some next =>
      refine ⟨fun _ => Iff.rfl, fun _ hi => ?_⟩
      rw [Option.getD_some] at hi ⊢
      rw [hi]
      exact hzero c
    | none =>
      cases hd : (s.pc c).dispatching c with
      | some next => exact hagrees hn next hd
      | none =>
        refine ⟨fun _ => Iff.rfl, fun _ hi => ?_⟩
        rw [Option.getD_none] at hi ⊢
        rw [Option.getD_none, hi]
        exact hzero c
  obtain ⟨s₁, r, hround, hsame, hord, hr⟩ := insertRound_ordered h thread hcomp
  rw [schedInsert, hround] at hs
  cases r with
  | none =>
    rw [← Option.some.inj hs]
    exact ⟨hsame, hord⟩
  | some old =>
    obtain ⟨_, hnext⟩ := hr.resolve_left (fun hno => by cases hno)
    -- the second round compares with the new next thread
    have hcomp₁ : ∀ comp, (s₁.cpus c).nextThread.getD (s₁.cpus c).currentThread = comp →
        (prioRealTime ≤ s₁.prio old → (s₁.prio old ≤ s₁.prio comp ↔
          s₁.prio old ≤ s₁.prio ((s₁.cpus c).comparand (s₁.pc c) c))) ∧
        (s₁.prio old < prioRealTime → comp = .idle c →
          s₁.prio ((s₁.cpus c).comparand (s₁.pc c) c) < prioRealTime) := by
      rintro comp rfl
      rw [Cpu.comparand, hnext, Option.getD_some, Option.getD_some]
      refine ⟨fun _ => Iff.rfl, fun _ hi => ?_⟩
      rw [hi, hsame.threads.prio]
      exact hzero c
    obtain ⟨s₂, r₂, hround₂, hsame₂, hord₂, _⟩ := insertRound_ordered hord old hcomp₁
    change schedInsert 1 s₁ c old = some s' at hs
    rw [schedInsert, hround₂] at hs
    cases r₂ with
    | some _ => cases hs
    | none =>
      rw [← Option.some.inj hs]
      exact ⟨hsame.trans hsame₂, hord₂⟩

end

/-! ## Taking -/

theorem Cpu.Ordered.takeNext (h : cpu.Ordered prio c pc) {next : Tid C T}
    (hnext : cpu.nextThread = some next) (hd : pc.dispatching c = none)
    (hd' : pc'.dispatching c = some next)
    (hpre : ∀ n, pc'.preempting = some n → n = next) :
    ({ cpu with nextThread := none } : Cpu C T).Ordered prio c pc' where
  index := h.index
  current := h.current
  idleRq := h.idleRq
  bound := by
    intro q u hu hrt
    have hle := h.bound q u hu hrt
    rw [Cpu.comparand, hnext] at hle
    rw [Cpu.comparand, Option.getD_none, Cpu.top, hd']
    exact hle
  better := fun _ hno => by cases hno
  preempted := by
    intro n hn hrt
    rw [hpre n hn]
    have hbetter := h.better next hnext
    rw [Cpu.top, hd] at hbetter
    exact hbetter hrt

/-- No real-time thread in a queue of the processor, or next there, is above the thread. -/
def Cpu.NoneAbove (prio : Tid C T → ℕ) (cpu : Cpu C T) (thread : Tid C T) : Prop :=
  ∀ u, (∃ q, u ∈ cpu.queue q) ∨ cpu.nextThread = some u → prioRealTime ≤ prio u →
    prio u ≤ prio thread

theorem Cpu.Ordered.noneAbove (h : cpu.Ordered prio c pc) {next : Tid C T}
    (hnext : cpu.nextThread = some next) : cpu.NoneAbove prio next := by
  rintro u (⟨q, hu⟩ | hu) hrt
  · have hle := h.bound q u hu hrt
    rw [Cpu.comparand, hnext] at hle
    exact hle
  · rw [hnext] at hu
    rw [Option.some.inj hu]

theorem Cpu.Ordered.select (h : cpu.Ordered prio c pc) {cpu' : Cpu C T} {thread : Tid C T}
    (hsub : ∀ q, ∀ u ∈ cpu'.queue q, u ∈ cpu.queue q) (hnext : cpu'.nextThread = none)
    (hrq : cpu'.currentRq = cpu.currentRq ∨ ∀ q, ∀ u ∈ cpu.queue q, prio u < prioRealTime)
    (habove : ∀ q, ∀ u ∈ cpu.queue q, prioRealTime ≤ prio u → prio u ≤ prio thread)
    (hd' : pc'.dispatching c = some thread) (hpre : pc'.preempting = none) :
    cpu'.Ordered prio c pc' where
  index := fun i p u hu => h.index i p u (hsub (.rq i p) u hu)
  current := by
    intro i p u hu hrt
    have hin := hsub (.rq i p) u hu
    rcases hrq with hrq | hlow
    · rw [hrq]
      exact h.current i p u hin hrt
    · exact absurd hrt (Nat.not_le_of_lt (hlow _ u hin))
  idleRq := fun u hu => h.idleRq u (hsub .idleRq u hu)
  bound := by
    intro q u hu hrt
    rw [Cpu.comparand, hnext, Option.getD_none, Cpu.top, hd']
    exact habove q u (hsub q u hu) hrt
  better := by
    intro n hn
    rw [hnext] at hn
    cases hn
  preempted := by
    intro n hn
    rw [hpre] at hn
    cases hn

theorem le_log2_of_getLsbD {m : BitVec 32} {p : ℕ} (h : m.getLsbD p = true) :
    p ≤ Nat.log2 m.toNat := by
  have hpow : 2 ^ p ≤ m.toNat := Nat.ge_two_pow_of_testBit h
  have hne : m.toNat ≠ 0 := by
    intro hno
    rw [hno] at hpow
    exact absurd hpow (Nat.not_le_of_lt (Nat.two_pow_pos p))
  exact (Nat.le_log2 hne).mpr hpow

/-- The head of the highest queue of a runqueue is taken: no thread of the runqueue is above. -/
theorem selectFrom_highest (hok : cpu.Ok) (hindex : ∀ i p u, u ∈ (cpu.rqs i).queues p →
      prio u = p + 1) {i : Bool} (hm : (cpu.rqs i).readyMask ≠ 0) :
    ∃ thread rest, (cpu.rqs i).queues (Nat.log2 (cpu.rqs i).readyMask.toNat) = thread :: rest ∧
      selectFrom cpu i 0 = some (some thread,
        cpu.popRq i (Nat.log2 (cpu.rqs i).readyMask.toNat) rest) ∧
      ∀ p, ∀ u ∈ (cpu.rqs i).queues p, prio u ≤ prio thread := by
  have hne := ((hok.mask i) _).mp (getLsbD_log2 hm)
  cases hq : (cpu.rqs i).queues (Nat.log2 (cpu.rqs i).readyMask.toNat) with
  | nil => exact absurd hq hne
  | cons thread rest =>
    refine ⟨thread, rest, rfl, ?_, ?_⟩
    · unfold selectFrom
      simp only [Nat.not_lt_zero, if_false, hq]
      rfl
    · intro p u hu
      have hp : p ≤ Nat.log2 (cpu.rqs i).readyMask.toNat :=
        le_log2_of_getLsbD (((hok.mask i) p).mpr (List.ne_nil_of_mem hu))
      rw [hindex i p u hu, hindex i _ thread (by rw [hq]; exact List.mem_cons_self)]
      omega

theorem Cpu.popRq_sub {i : Bool} {n : ℕ} {rest : List (Tid C T)}
    (hq : (cpu.rqs i).queues n = t :: rest) (q : Slot) :
    ∀ u ∈ (cpu.popRq i n rest).queue q, u ∈ cpu.queue q := by
  intro u hu
  cases q with
  | idleRq => exact hu
  | rq j p =>
    by_cases hj : j = i
    · subst hj
      simp only [Cpu.queue, Cpu.popRq, Function.update_self] at hu
      by_cases hp : p = n
      · subst hp
        rw [Function.update_self] at hu
        show u ∈ (cpu.rqs j).queues p
        rw [hq]
        exact List.mem_cons_of_mem _ hu
      · rw [Function.update_of_ne hp] at hu
        exact hu
    · simp only [Cpu.queue, Cpu.popRq, Function.update_of_ne hj] at hu
      exact hu

/-- **`select_next`** takes a thread that no real-time thread is above. -/
theorem Cpu.Ordered.selectNext (h : cpu.Ordered prio c pc) (hok : cpu.Ok)
    (hnext : cpu.nextThread = none) {r : Option (Tid C T)} {cpu' : Cpu C T}
    (hs : Sched.selectNext cpu 0 = some (r, cpu')) :
    cpu.NoneAbove prio (r.getD (.idle c)) ∧ cpu'.Ordered prio c (.yieldTaken r) := by
  have hempty : ∀ i, (cpu.rqs i).readyMask = 0 → ∀ p u, u ∉ (cpu.rqs i).queues p := by
    intro i hi p u hu
    have hbit := ((hok.mask i) p).mpr (List.ne_nil_of_mem hu)
    rw [hi] at hbit
    simp at hbit
  have hidle : ∀ u ∈ cpu.idleRq, ¬ prioRealTime ≤ prio u :=
    fun u hu => Nat.not_le_of_lt (h.idleRq u hu)
  have habove : ∀ thread, (∀ q, ∀ u ∈ cpu.queue q, prioRealTime ≤ prio u → prio u ≤ prio thread) →
      cpu.NoneAbove prio thread := by
    rintro thread hall u (⟨q, hu⟩ | hu) hrt
    · exact hall q u hu hrt
    · rw [hnext] at hu
      cases hu
  unfold Sched.selectNext at hs
  by_cases h1 : (cpu.rqs cpu.currentRq).readyMask ≠ 0
  · obtain ⟨thread, rest, hq, hsel, hhigh⟩ := selectFrom_highest hok h.index h1
    rw [if_pos h1, hsel, Option.some.injEq, Prod.mk.injEq] at hs
    obtain ⟨rfl, rfl⟩ := hs
    have hall : ∀ q, ∀ u ∈ cpu.queue q, prioRealTime ≤ prio u → prio u ≤ prio thread := by
      intro q u hu hrt
      cases q with
      | idleRq => exact absurd hrt (hidle u hu)
      | rq i p =>
        have hi := h.current i p u hu hrt
        subst hi
        exact hhigh p u hu
    exact ⟨habove thread hall, h.select (Cpu.popRq_sub hq) hnext (Or.inl rfl) hall rfl rfl⟩
  rw [if_neg h1] at hs
  rw [not_not] at h1
  -- no real-time thread is in a queue
  have hlow : ∀ q, ∀ u ∈ cpu.queue q, prio u < prioRealTime := by
    intro q u hu
    cases q with
    | idleRq => exact h.idleRq u hu
    | rq i p =>
      by_contra hrt
      have hi := h.current i p u hu (Nat.le_of_not_lt hrt)
      subst hi
      exact hempty _ h1 p u hu
  have hnone : ∀ thread : Tid C T,
      ∀ q, ∀ u ∈ cpu.queue q, prioRealTime ≤ prio u → prio u ≤ prio thread :=
    fun thread q u hu hrt => absurd hrt (Nat.not_le_of_lt (hlow q u hu))
  by_cases h2 : (cpu.rqs cpu.nextRq).readyMask ≠ 0
  · have hswap : ({ cpu with currentRq := cpu.nextRq, nextRq := cpu.currentRq } : Cpu C T).Ok :=
      ⟨hok.nodup, hok.mask, by rw [hok.rqs, Bool.not_not]⟩
    obtain ⟨thread, rest, hq, hsel, _⟩ := selectFrom_highest hswap h.index h2
    rw [if_pos h2, hsel, Option.some.injEq, Prod.mk.injEq] at hs
    obtain ⟨rfl, rfl⟩ := hs
    exact ⟨habove thread (hnone thread), h.select (Cpu.popRq_sub hq) hnext (Or.inr hlow)
      (hnone thread) rfl rfl⟩
  rw [if_neg h2] at hs
  cases hq : cpu.idleRq with
  | nil =>
    rw [hq] at hs
    obtain ⟨rfl, rfl⟩ := Prod.mk.inj (Option.some.inj hs)
    exact ⟨habove _ (hnone _), h.select (fun _ _ hu => hu) hnext (Or.inr hlow)
      (hnone _) rfl rfl⟩
  | cons thread rest =>
    rw [hq] at hs
    obtain ⟨rfl, rfl⟩ := Prod.mk.inj (Option.some.inj hs)
    refine ⟨habove _ (hnone _), h.select ?_ hnext (Or.inr hlow) (hnone _) rfl rfl⟩
    intro q u hu
    cases q with
    | rq i p => exact hu
    | idleRq =>
      show u ∈ cpu.idleRq
      rw [hq]
      exact List.mem_cons_of_mem _ hu

end

end Sched
