/-
# What is dispatched

The two results about the order of threads: a processor dispatches no thread that a ready
real-time thread there is above, and the threads of a queue leave it in the order in which they
came.  The first is false when a thread is inserted while the processor is dispatching another.
-/
import YakKernel.SchedRealTime

namespace Sched

set_option linter.unusedSectionVars false

variable {C T : Type*} [DecidableEq C] [DecidableEq T] {place : Tid C T → Place C}
  {s s' : State C T} {c d : C} {u v : Tid C T} {q : Slot}

/-- `sched_yield` or `sched_preempt` takes a thread on a processor. -/
def Dispatches (s s' : State C T) (c : C) (thread : Tid C T) : Prop :=
  (s.pc c).dispatching c = none ∧ (s'.pc c).dispatching c = some thread

instance (s s' : State C T) (c : C) (thread : Tid C T) : Decidable (Dispatches s s' c thread) :=
  inferInstanceAs (Decidable (_ ∧ _))

theorem not_dispatches_of_pc (hpc : s'.pc = s.pc) (c : C) (v : Tid C T) : ¬ Dispatches s s' c v := by
  rintro ⟨hnone, hsome⟩
  rw [hpc, hnone] at hsome
  cases hsome

/-- A processor dispatches when it goes on in the code, to a place where it does. -/
theorem dispatches_iff {pc : Pc C T} (hpc : s'.pc = Function.update s.pc d pc) :
    Dispatches s s' c v ↔
      c = d ∧ (s.pc d).dispatching d = none ∧ pc.dispatching d = some v := by
  unfold Dispatches
  rw [hpc]
  by_cases hc : c = d
  · rw [hc, Function.update_self]
    exact ⟨fun h => ⟨rfl, h⟩, fun h => h.2⟩
  · rw [Function.update_of_ne hc]
    refine iff_of_false ?_ (fun h => hc h.1)
    rintro ⟨hnone, hsome⟩
    rw [hnone] at hsome
    cases hsome

/-! ## What a step does to the queues -/

/-- A step leaves the queues as they are; or it appends a thread to one; or it dispatches the next
thread of a processor, or what `select_next` takes from its queues. -/
inductive Effect (s s' : State C T) : Prop
  | quiet (hqueue : ∀ c q, (s'.cpus c).queue q = (s.cpus c).queue q)
      (hdisp : ∀ c v, ¬ Dispatches s s' c v)
  | inserts (d : C) (q : Slot) (u : Tid C T)
      (happend : (s'.cpus d).queue q = (s.cpus d).queue q ++ [u])
      (hslots : ∀ q', q' ≠ q → (s'.cpus d).queue q' = (s.cpus d).queue q')
      (hcpus : ∀ c, c ≠ d → s'.cpus c = s.cpus c) (hdisp : ∀ c v, ¬ Dispatches s s' c v)
  | takes (d : C) (n : Tid C T) (hnext : (s.cpus d).nextThread = some n)
      (hqueue : ∀ c q, (s'.cpus c).queue q = (s.cpus c).queue q)
      (hdisp : ∀ c v, Dispatches s s' c v ↔ c = d ∧ v = n)
  | selects (d : C) (r : Option (Tid C T)) (cpu' : Cpu C T)
      (hnext : (s.cpus d).nextThread = none) (hsel : selectNext (s.cpus d) 0 = some (r, cpu'))
      (hcpus : s'.cpus = Function.update s.cpus d cpu')
      (hdisp : ∀ c v, Dispatches s s' c v ↔ c = d ∧ v = r.getD (.idle d))

theorem queue_update {cpus : C → Cpu C T} (cpu' : Cpu C T) (hrqs : cpu'.rqs = (cpus d).rqs)
    (hidle : cpu'.idleRq = (cpus d).idleRq) (c : C) (q : Slot) :
    (Function.update cpus d cpu' c).queue q = (cpus c).queue q := by
  by_cases hc : c = d
  · rw [hc, Function.update_self]
    cases q with
    | rq i p => exact congrArg (fun rqs => (rqs i).queues p) hrqs
    | idleRq => exact hidle
  · rw [Function.update_of_ne hc]

theorem Effect.moves {pc : Pc C T} (hqueue : ∀ c q, (s'.cpus c).queue q = (s.cpus c).queue q)
    (hpc : s'.pc = Function.update s.pc d pc)
    (hd : pc.dispatching d = none ∨ (s.pc d).dispatching d ≠ none) : Effect s s' := by
  refine .quiet hqueue (fun c v => ?_)
  rw [dispatches_iff hpc]
  rintro ⟨_, hnone, hsome⟩
  rcases hd with hd | hd
  · rw [hd] at hsome
    cases hsome
  · exact hd hnone

theorem Effect.takeNextThread (pc : Pc C T) {n : Tid C T} (hnext : (s.cpus c).nextThread = some n)
    (hd : (s.pc c).dispatching c = none) (hd' : pc.dispatching c = some n) :
    Effect s (((s.modifyCpu c (fun cpu => { cpu with nextThread := none })).setStatus n
      .switching).setPc c pc) := by
  refine .takes c n hnext ?_ (fun e v => ?_)
  · exact queue_update { s.cpus c with nextThread := none } rfl rfl
  · rw [dispatches_iff (show _ = Function.update s.pc c pc from rfl)]
    constructor
    · rintro ⟨he, _, hv⟩
      rw [hd'] at hv
      exact ⟨he, (Option.some.inj hv).symm⟩
    · rintro ⟨he, hv⟩
      rw [hv]
      exact ⟨he, hd, hd'⟩

theorem Effect.insert (hok : (s.cpus d).Ok) {t : T}
    (hidle : (s.cpus d).nextThread ≠ some (.idle d)) (hs : schedInsert 2 s d (.thread t) = some s') :
    Effect s s' := by
  obtain ⟨s₁, hins, hcases⟩ := schedInsert_cases hok
    (show Tid.thread t ≠ .idle d from nofun) hidle
  rw [hins] at hs
  obtain rfl := Option.some.inj hs
  rcases hcases with ⟨cpu', hp, rfl⟩ | ⟨hnone, rfl⟩ | ⟨next, cpu', hnext, hp, rfl⟩
  · obtain ⟨q, hq, hother⟩ := hp.queue
    refine .inserts d q (.thread t) ?_ ?_ (fun c hc => Function.update_of_ne hc _ _)
      (not_dispatches_of_pc rfl)
    · rw [State.toQueue, State.modifyCpu_cpus, Function.update_self]
      exact hq
    · intro q' hq'
      rw [State.toQueue, State.modifyCpu_cpus, Function.update_self]
      exact hother q' hq'
  · refine .quiet ?_ (not_dispatches_of_pc rfl)
    exact queue_update { s.cpus d with nextThread := some (.thread t) } rfl rfl
  · -- the thread takes the place of the next one, which is appended
    have hsame : ∀ q, ((s.toNext d (.thread t)).cpus d).queue q = (s.cpus d).queue q := by
      exact queue_update { s.cpus d with nextThread := some (.thread t) } rfl rfl d
    obtain ⟨q, hq, hother⟩ := hp.queue
    refine .inserts d q next ?_ ?_ ?_ (not_dispatches_of_pc rfl)
    · rw [State.toQueue, State.modifyCpu_cpus, Function.update_self, hq, hsame]
    · intro q' hq'
      rw [State.toQueue, State.modifyCpu_cpus, Function.update_self, hother q' hq', hsame]
    · intro c hc
      rw [State.toQueue, State.modifyCpu_cpus, Function.update_of_ne hc]
      exact Function.update_of_ne hc _ _

theorem Effect.setPc {pc : Pc C T} (h : Effect s s') (hsame : s'.pc = s.pc)
    (hd : (s.pc d).dispatching d ≠ none) : Effect s (s'.setPc d pc) := by
  have hdisp : ∀ c v, ¬ Dispatches s (s'.setPc d pc) c v := by
    intro c v
    have hpc : (s'.setPc d pc).pc = Function.update s.pc d pc := by
      rw [State.setPc_pc, hsame]
    rw [dispatches_iff hpc]
    rintro ⟨_, hnone, _⟩
    exact hd hnone
  cases h with
  | quiet hqueue _ => exact .quiet hqueue hdisp
  | inserts e q u happend hslots hcpus _ => exact .inserts e q u happend hslots hcpus hdisp
  | takes e n _ _ hiff =>
    exact absurd ((hiff e n).mpr ⟨rfl, rfl⟩) (not_dispatches_of_pc hsame e n)
  | selects e r cpu' _ _ _ hiff =>
    exact absurd ((hiff e _).mpr ⟨rfl, rfl⟩) (not_dispatches_of_pc hsame e _)

theorem Effect.yields (hok : (s.cpus c).Ok) (hpc : s.pc c = .yielding c)
    {next : Option (Tid C T)} {s₁ : State C T} (hs : takeNext s c = some (next, s₁)) :
    Effect s (s₁.setPc c (.yieldTaken next)) := by
  have hd : (s.pc c).dispatching c = none := by
    rw [hpc]
    rfl
  have hdisp : ∀ s₂ : State C T, s₂.pc = Function.update s.pc c (.yieldTaken next) →
      ∀ e v, Dispatches s s₂ e v ↔ e = c ∧ v = next.getD (.idle c) := by
    intro s₂ hpc₂ e v
    rw [dispatches_iff hpc₂]
    constructor
    · rintro ⟨he, _, hv⟩
      exact ⟨he, (Option.some.inj hv).symm⟩
    · rintro ⟨he, hv⟩
      rw [hv]
      exact ⟨he, hd, rfl⟩
  unfold takeNext at hs
  cases hn : (s.cpus c).nextThread with
  | some n =>
    rw [hn] at hs
    obtain ⟨rfl, rfl⟩ := Prod.mk.inj (Option.some.inj hs)
    exact .takeNextThread (.yieldTaken (some n)) hn hd rfl
  | none =>
    rw [hn] at hs
    obtain ⟨r, cpu', hsel, _⟩ := selectNext_spec hok
    rw [hsel] at hs
    cases r with
    | none =>
      obtain ⟨rfl, rfl⟩ := Prod.mk.inj (Option.some.inj hs)
      exact .selects c none cpu' hn hsel rfl (hdisp _ rfl)
    | some n =>
      obtain ⟨rfl, rfl⟩ := Prod.mk.inj (Option.some.inj hs)
      exact .selects c (some n) cpu' hn hsel rfl (hdisp _ rfl)

theorem schedInsert_pc {fuel : ℕ} (hs : schedInsert fuel s c u = some s') : s'.pc = s.pc := by
  induction fuel generalizing s u with
  | zero => cases hs
  | succ n ih =>
    have hround : (insertRound s c u).1.pc = s.pc := by
      unfold insertRound
      simp only
      split_ifs <;> rfl
    rw [schedInsert] at hs
    cases hr : insertRound s c u with
    | mk s₁ r =>
      rw [hr] at hs hround
      cases r with
      | none =>
        rw [← Option.some.inj hs]
        exact hround
      | some next => exact (ih hs).trans hround

theorem Effect.runPc (h : Sound place s) (hs : Sched.runPc s c = some s') : Effect s s' := by
  unfold Sched.runPc at hs
  cases hpc : s.pc c with
  | running => simp [hpc] at hs
  | preemptTaken next =>
    simp only [hpc] at hs
    split_ifs at hs
    cases hs
    exact .moves (fun _ _ => rfl) rfl (Or.inr (by rw [hpc]; exact nofun))
  | preemptLocked next =>
    have hd : (s.pc c).dispatching c ≠ none := by
      rw [hpc]
      exact nofun
    simp only [hpc] at hs
    split_ifs at hs with hidle
    · cases hs
      exact .moves (fun _ _ => rfl) rfl (Or.inr hd)
    · obtain ⟨s₁, hins, rfl⟩ := Option.map_eq_some_iff.mp hs
      obtain ⟨t, ht⟩ := h.exists_thread (by rw [hpc]; trivial) hidle
      have hsame := schedInsert_pc hins
      rw [ht] at hins
      exact (Effect.insert (h.ok c) h.next_ne_idle hins).setPc hsame hd
  | yielding d =>
    obtain rfl : d = c := (h.pcs c).yielding d hpc
    simp only [hpc] at hs
    cases htake : takeNext s d with
    | none =>
      rw [htake] at hs
      cases hs
      exact .quiet (fun _ _ => rfl) (not_dispatches_of_pc rfl)
    | some r =>
      obtain ⟨next, s₁⟩ := r
      rw [htake] at hs
      cases hs
      exact .yields (h.ok d) hpc htake
  | yieldTaken next =>
    have hd : (s.pc c).dispatching c ≠ none := by
      rw [hpc]
      exact nofun
    cases next with
    | none =>
      simp only [hpc] at hs
      cases hs
      exact .moves (fun _ _ => rfl) rfl (Or.inr hd)
    | some next =>
      simp only [hpc] at hs
      split_ifs at hs
      cases hs
      exact .moves (fun _ _ => rfl) rfl (Or.inr hd)
  | swtching next =>
    simp only [hpc] at hs
    cases hs
    unfold swtch
    split_ifs
    · exact .quiet (fun _ _ => rfl) (not_dispatches_of_pc rfl)
    · exact .quiet (fun _ _ => rfl) (not_dispatches_of_pc rfl)
    · generalize mapAfterSwtch s c (s.threads (s.cpus c).currentThread) (s.threads next) = map
      refine .moves ?_ rfl (Or.inl rfl)
      exact queue_update { s.cpus c with currentThread := next, currentMap := map }
        rfl rfl
  | switched current next | unlocking current next | finalizing next =>
    simp only [hpc] at hs
    cases hs
    exact .moves (fun _ _ => rfl) rfl (Or.inl rfl)

/-- **Every step** has one of the effects. -/
theorem Effect.step {ev : Event C T} (h : Sound place s) (hs : stepEvent s ev = some s') :
    Effect s s' := by
  have hmap : ∀ (s₁ : State C T) (d : C) (map : ℕ), s₁.cpus = s.cpus → ∀ c q,
      ((s₁.modifyCpu d (fun cpu => { cpu with currentMap := map })).cpus c).queue q =
        (s.cpus c).queue q := by
    intro s₁ d map hcpus
    rw [← hcpus]
    exact queue_update { s₁.cpus d with currentMap := map } rfl rfl
  cases ev with
  | kthreadInit | schedResume =>
    simp only [stepEvent] at hs
    split_ifs at hs
    cases hs
    exact .quiet (fun _ _ => rfl) (not_dispatches_of_pc rfl)
  | resumeInsert t =>
    simp only [stepEvent] at hs
    cases hr : s.resuming t with
    | idle | inserted => simp [hr] at hs
    | locked d =>
      simp only [hr] at hs
      obtain ⟨s₁, hins, rfl⟩ := Option.map_eq_some_iff.mp hs
      have heff := Effect.insert (h.ok d) h.next_ne_idle hins
      cases heff with
      | quiet hqueue hdisp => exact .quiet hqueue hdisp
      | inserts e q u happend hslots hcpus hdisp => exact .inserts e q u happend hslots hcpus hdisp
      | takes e n hnext hqueue hdisp => exact .takes e n hnext hqueue hdisp
      | selects e r cpu' hnext hsel hcpus hdisp => exact .selects e r cpu' hnext hsel hcpus hdisp
  | resumeUnlock t =>
    simp only [stepEvent] at hs
    cases hr : s.resuming t with
    | idle | locked => simp [hr] at hs
    | inserted =>
      simp only [hr] at hs
      cases hs
      exact .quiet (fun _ _ => rfl) (not_dispatches_of_pc rfl)
  | schedPreempt c =>
    simp only [stepEvent] at hs
    split at hs
    · rename_i next hpc hnext
      cases hs
      exact .takeNextThread (.preemptTaken next) hnext (by rw [hpc]; rfl) rfl
    · cases hs
  | doWait c =>
    simp only [stepEvent] at hs
    split at hs
    · split_ifs at hs
      split at hs
      · cases hs
        exact .quiet (fun _ _ => rfl) (not_dispatches_of_pc rfl)
      · cases hs
        exact .moves (fun _ _ => rfl) rfl (Or.inl rfl)
    · cases hs
  | schedExitSelf c =>
    simp only [stepEvent] at hs
    split at hs
    · split_ifs at hs
      cases hs
      exact .moves (hmap _ c kmap rfl) rfl (Or.inl rfl)
    · cases hs
  | vmMapTmpSwitch c map | vmMapTmpDisable c | execActivate c map =>
    simp only [stepEvent] at hs
    split at hs
    · split_ifs at hs
      cases hs
      exact .quiet (hmap _ c _ rfl) (not_dispatches_of_pc rfl)
    · cases hs
  | run c => exact .runPc h hs

/-! ## The highest priority -/

/-- No real-time thread that is ready on a processor, or next there, is above the thread. -/
def State.Highest (s : State C T) (c : C) (thread : Tid C T) : Prop :=
  ∀ u, ((s.threads u).status = .ready ∧ s.Home u c) ∨ (s.cpus c).nextThread = some u →
    prioRealTime ≤ s.prio u → s.prio u ≤ s.prio thread

theorem Sound.ready_queued (h : Sound place s) (hidle : ∀ e, s.prio (.idle e) = 0)
    (hready : (s.threads u).status = .ready) (hhome : s.Home u c)
    (hrt : prioRealTime ≤ s.prio u) : ∃ q, u ∈ (s.cpus c).queue q := by
  cases u with
  | idle e =>
    rw [hidle e] at hrt
    exact absurd hrt (by decide)
  | thread t =>
    obtain ⟨⟨e, q⟩, hq, _⟩ := h.ready hready
    have hat := ((h.located.at_iff (.thread t) (.queued e q)).mp hq).1
    have hhome' := h.located.home (.thread t) e (by rw [hat]; rfl)
    obtain rfl : e = c := Option.some.inj (hhome'.symm.trans hhome)
    exact ⟨q, hq⟩

theorem State.RealTime.highest (h : s.RealTime) (hsound : Sound place s) {ev : Event C T}
    (hs : stepEvent s ev = some s') (hd : Dispatches s s' c u) : s.Highest c u := by
  have hnone : (s.cpus c).NoneAbove s.prio u := by
    cases Effect.step hsound hs with
    | quiet _ hdisp => exact absurd hd (hdisp c u)
    | inserts _ _ _ _ _ _ hdisp => exact absurd hd (hdisp c u)
    | takes e n hnext _ hdisp =>
      obtain ⟨rfl, rfl⟩ := (hdisp c u).mp hd
      exact (h.ordered c).noneAbove hnext
    | selects e r cpu' hnext hsel _ hdisp =>
      obtain ⟨rfl, rfl⟩ := (hdisp c u).mp hd
      exact ((h.ordered c).selectNext (hsound.ok c) hnext hsel).1
  intro v hv hrt
  refine hnone v ?_ hrt
  rcases hv with ⟨hready, hhome⟩ | hnext
  · exact Or.inl (hsound.ready_queued h.idle hready hhome hrt)
  · exact Or.inr hnext

/-! ## First in, first out -/

/-- A step keeps the order of the threads in a queue; only the first may leave, and it is
dispatched. -/
theorem Effect.keeps_order (h : Effect s s') (hok : (s.cpus c).Ok)
    (hahead : [u, v].Sublist ((s.cpus c).queue q)) :
    [u, v].Sublist ((s'.cpus c).queue q) ∨
      (Dispatches s s' c u ∧ v ∈ (s'.cpus c).queue q) := by
  cases h with
  | quiet hqueue _ =>
    rw [hqueue c q]
    exact Or.inl hahead
  | inserts d p w happend hslots hcpus _ =>
    refine Or.inl ?_
    by_cases hc : c = d
    · subst hc
      by_cases hq : q = p
      · rw [hq] at hahead ⊢
        rw [happend]
        exact hahead.trans (List.sublist_append_left _ _)
      · rw [hslots q hq]
        exact hahead
    · rw [hcpus c hc]
      exact hahead
  | takes d n _ hqueue _ =>
    rw [hqueue c q]
    exact Or.inl hahead
  | selects d r cpu' hnext hsel hcpus hdisp =>
    rw [hcpus]
    by_cases hc : c = d
    · subst hc
      obtain ⟨r', cpu'', hsel', _, _, htaken⟩ := selectNext_spec hok
      rw [hsel] at hsel'
      obtain ⟨rfl, rfl⟩ := Prod.mk.inj (Option.some.inj hsel')
      rw [Function.update_self]
      cases r with
      | none =>
        rw [htaken q]
        exact Or.inl hahead
      | some n =>
        obtain ⟨p, hp, hother⟩ := htaken
        by_cases hq : q = p
        · subst hq
          rw [hp] at hahead
          cases hahead with
          | cons _ hin => exact Or.inl hin
          | cons_cons _ hin =>
            exact Or.inr ⟨(hdisp c u).mpr ⟨rfl, rfl⟩, List.singleton_sublist.mp hin⟩
        · rw [hother q hq]
          exact Or.inl hahead
    · rw [Function.update_of_ne hc]
      exact Or.inl hahead

theorem Effect.comes_last (h : Effect s s') (hok : (s.cpus c).Ok) (hu : u ∈ (s.cpus c).queue q)
    (hv : v ∉ (s.cpus c).queue q) (hv' : v ∈ (s'.cpus c).queue q) :
    [u, v].Sublist ((s'.cpus c).queue q) := by
  cases h with
  | quiet hqueue _ =>
    rw [hqueue c q] at hv'
    exact absurd hv' hv
  | takes d n _ hqueue _ =>
    rw [hqueue c q] at hv'
    exact absurd hv' hv
  | inserts d p w happend hslots hcpus _ =>
    by_cases hc : c = d
    · subst hc
      by_cases hq : q = p
      · subst hq
        rw [happend] at hv' ⊢
        have hw : v ∈ [w] := (List.mem_append.mp hv').resolve_left hv
        exact (List.singleton_sublist.mpr hu).append (List.singleton_sublist.mpr hw)
      · rw [hslots q hq] at hv'
        exact absurd hv' hv
    · rw [hcpus c hc] at hv'
      exact absurd hv' hv
  | selects d r cpu' hnext hsel hcpus _ =>
    refine absurd ?_ hv
    rw [hcpus] at hv'
    by_cases hc : c = d
    · subst hc
      obtain ⟨r', cpu'', hsel', _, _, htaken⟩ := selectNext_spec hok
      rw [hsel] at hsel'
      obtain ⟨rfl, rfl⟩ := Prod.mk.inj (Option.some.inj hsel')
      rw [Function.update_self] at hv'
      cases r with
      | none =>
        rw [htaken q] at hv'
        exact hv'
      | some n =>
        obtain ⟨p, hp, hother⟩ := htaken
        by_cases hq : q = p
        · subst hq
          rw [hp]
          exact List.mem_cons_of_mem _ hv'
        · rw [hother q hq] at hv'
          exact hv'
    · rw [Function.update_of_ne hc] at hv'
      exact hv'

theorem Sound.effect {ev : Event C T} (h : Sound place s)
    (hs : (system C T).step s ev = some s') : Effect s s' := by
  change Sched.step s ev = some s' at hs
  unfold Sched.step at hs
  split_ifs at hs
  exact Effect.step h hs

/-- **First in, first out**, over a run: a thread stays ahead of those behind it until it is
dispatched. -/
theorem ahead_until_dispatched (h : (system C T).Reachable s) {evs : List (Event C T)}
    (hrun : (system C T).run s evs = some s') (hahead : [u, v].Sublist ((s.cpus c).queue q)) :
    [u, v].Sublist ((s'.cpus c).queue q) ∨ ∃ evs₁ ev evs₂ s₁ s₂, evs = evs₁ ++ ev :: evs₂ ∧
      (system C T).run s evs₁ = some s₁ ∧ (system C T).step s₁ ev = some s₂ ∧
      Dispatches s₁ s₂ c u ∧ v ∈ (s₂.cpus c).queue q := by
  induction evs generalizing s with
  | nil =>
    cases hrun
    exact Or.inl hahead
  | cons ev evs ih =>
    rw [TransitionSystem.run, List.foldlM_cons] at hrun
    cases hstep : (system C T).step s ev with
    | none =>
      rw [hstep] at hrun
      cases hrun
    | some s₁ =>
      rw [hstep] at hrun
      obtain ⟨place, hsound⟩ := Sound.of_reachable h
      rcases (hsound.effect hstep).keeps_order (hsound.ok c) hahead with hin | ⟨hd, hv⟩
      · rcases ih (.step h trivial hstep) hrun hin with hin | ⟨evs₁, ev', evs₂, s₂, s₃, rfl, hr, hrest⟩
        · exact Or.inl hin
        · refine Or.inr ⟨ev :: evs₁, ev', evs₂, s₂, s₃, rfl, ?_, hrest⟩
          rw [TransitionSystem.run, List.foldlM_cons, hstep]
          exact hr
      · exact Or.inr ⟨[], ev, evs, s, s₁, rfl, rfl, hstep, hd, hv⟩

/-- **Real-time order.**  In every run in which no thread is inserted against the order of a
processor that is dispatching, a processor that takes a thread takes one that no ready real-time
thread there is above, and not its next thread either; a thread that comes to a queue comes behind
those that are there, and stays behind each of them until that one is dispatched. -/
theorem realTime_order (h : (system C T).ReachableUnder Settled s) :
    (∀ ev s' c u, (system C T).step s ev = some s' → Dispatches s s' c u → s.Highest c u) ∧
    (∀ ev s' c q u v, (system C T).step s ev = some s' → u ∈ (s.cpus c).queue q →
      v ∉ (s.cpus c).queue q → v ∈ (s'.cpus c).queue q → [u, v].Sublist ((s'.cpus c).queue q)) ∧
    ∀ evs s' c q u v, (system C T).run s evs = some s' →
      [u, v].Sublist ((s.cpus c).queue q) →
      [u, v].Sublist ((s'.cpus c).queue q) ∨ ∃ evs₁ ev evs₂ s₁ s₂, evs = evs₁ ++ ev :: evs₂ ∧
        (system C T).run s evs₁ = some s₁ ∧ (system C T).step s₁ ev = some s₂ ∧
        Dispatches s₁ s₂ c u ∧ v ∈ (s₂.cpus c).queue q := by
  obtain ⟨place, hsound, hrt⟩ := State.RealTime.of_reachable h
  refine ⟨?_, ?_, ?_⟩
  · intro ev s' c u hs hd
    change Sched.step s ev = some s' at hs
    unfold Sched.step at hs
    split_ifs at hs
    exact hrt.highest hsound hs hd
  · intro ev s' c q u v hs hu hv hv'
    exact (hsound.effect hs).comes_last (hsound.ok c) hu hv hv'
  · intro evs s' c q u v hrun hahead
    exact ahead_until_dispatched h.reachable hrun hahead

/-! ## Two runs -/

/-- The priority of level `n`, at most the highest. -/
def Priority.ofNat (n : ℕ) : Priority := ⟨min n prioMax, Nat.min_le_right n prioMax⟩

/-- Two threads are made and resumed on a processor; the second is above the first. -/
def secondAboveRun : List (Event ℕ ℕ) :=
  [.kthreadInit 0 (Priority.ofNat 17) false 0, .kthreadInit 1 (Priority.ofNat 30) false 0,
    .schedResume 0 0, .resumeInsert 0, .resumeUnlock 0,
    .schedResume 1 0, .resumeInsert 1, .resumeUnlock 1]

/-- The processor takes the second while the first is ready. -/
theorem realTime_order_two : ∃ s s', (system ℕ ℕ).ReachableUnder Settled s ∧
    (system ℕ ℕ).step s (.schedPreempt 0) = some s' ∧ Dispatches s s' 0 (.thread 1) ∧
    s.Highest 0 (.thread 1) := by
  obtain ⟨s, hs, hp⟩ := TransitionSystem.exists_reachableUnder_of_runUnder
    (C := Settled) (show (system ℕ ℕ).init (initial (fun _ => 0)) from ⟨_, rfl, rfl⟩)
    secondAboveRun
    (fun s => (step s (.schedPreempt 0)).any (fun s' => decide (Dispatches s s' 0 (.thread 1))))
    (by decide +kernel)
  cases hstep : step s (.schedPreempt 0) with
  | none => simp [hstep] at hp
  | some s' =>
    rw [hstep] at hp
    have hd : Dispatches s s' 0 (.thread 1) := of_decide_eq_true hp
    exact ⟨s, s', hs, hstep, hd, (realTime_order hs).1 _ s' 0 _ hstep hd⟩

/-- The processor takes thread 0; before it runs, thread 1 is compared with the idle thread, becomes
next and preempts it.  With thread 0 ready, thread 2 is above thread 1. -/
def insertedWhileDispatchingRun : List (Event ℕ ℕ) :=
  [.kthreadInit 0 (Priority.ofNat 30) false 0, .kthreadInit 1 (Priority.ofNat 20) false 0,
    .kthreadInit 2 (Priority.ofNat 25) false 0,
    .schedResume 0 0, .resumeInsert 0, .resumeUnlock 0, .schedPreempt 0,
    .schedResume 1 0, .resumeInsert 1, .resumeUnlock 1,
    .run 0, .run 0, .run 0, .run 0, .run 0, .run 0,
    .schedPreempt 0, .run 0, .run 0, .run 0, .run 0, .run 0, .run 0,
    .schedResume 2 0, .resumeInsert 2, .resumeUnlock 2]

/-- A processor takes a thread while a ready real-time one is above it. -/
theorem dispatches_below_ready : ∃ s s', (system ℕ ℕ).Reachable s ∧
    (system ℕ ℕ).step s (.schedPreempt 0) = some s' ∧ Dispatches s s' 0 (.thread 2) ∧
    (s.threads (.thread 0)).status = .ready ∧ s.Home (.thread 0) 0 ∧
    prioRealTime ≤ s.prio (.thread 0) ∧ s.prio (.thread 2) < s.prio (.thread 0) := by
  obtain ⟨s, hs, hp⟩ := TransitionSystem.exists_reachable_of_run
    (show (system ℕ ℕ).init (initial (fun _ => 0)) from ⟨_, rfl, rfl⟩)
    insertedWhileDispatchingRun
    (fun s => (step s (.schedPreempt 0)).any (fun s' => decide (Dispatches s s' 0 (.thread 2) ∧
      (s.threads (.thread 0)).status = .ready ∧ (s.threads (.thread 0)).lastCpu = some 0 ∧
      prioRealTime ≤ s.prio (.thread 0) ∧ s.prio (.thread 2) < s.prio (.thread 0))))
    (by decide +kernel)
  cases hstep : step s (.schedPreempt 0) with
  | none => simp [hstep] at hp
  | some s' =>
    rw [hstep] at hp
    obtain ⟨hd, hready, hlast, habove⟩ := of_decide_eq_true (show decide _ = true from hp)
    exact ⟨s, s', hs, hstep, hd, hready, hlast, habove⟩

end Sched
