/-
# No thread is lost

Every thread that is ready sits in exactly one queue of one processor, every thread with
status `THREAD_NEXT` is exactly one processor's next thread, and the ready masks describe
the queues.  The idle threads are the exception: one that has been preempted is ready, and
is on no queue.
-/
import YakKernel.SchedQueues

namespace Sched

variable {C T : Type*}

/-! ## The invariant -/

/-- The thread that a processor has entered but not yet marked as running. -/
def Pc.entered : Pc C T → Option (Tid C T)
  | .switched _ next | .unlocking _ next | .finalizing next => some next
  | _ => none

/-- `sched_yield` is called for the processor it runs on, and a processor that has changed
stacks runs the thread it switched to. -/
structure Pc.Ok (pc : Pc C T) (c : C) (current : Tid C T) : Prop where
  yielding : ∀ d, pc = .yielding d → d = c
  entered : ∀ next, pc.entered = some next → current = next

/-- **The invariant of the scheduler.** -/
structure Sound (place : Tid C T → Place C) (s : State C T) : Prop where
  located : Located place s
  ok : ∀ c, (s.cpus c).Ok
  pcs : ∀ c, (s.pc c).Ok c (s.cpus c).currentThread
  resuming : ∀ t d, s.resuming t = .locked d → place (.thread t) = .off

section Steps

variable [DecidableEq C] [DecidableEq T] {place : Tid C T → Place C} {s s' : State C T} {c : C}
  {u : Tid C T}

omit [DecidableEq C] [DecidableEq T] in
theorem Sound.frame (h : Sound place s)
    (hqueue : ∀ c q, (s'.cpus c).queue q = (s.cpus c).queue q)
    (hnext : ∀ c, (s'.cpus c).nextThread = (s.cpus c).nextThread)
    (hactive : ∀ c v, (s'.pc c).Active ∧ (s'.cpus c).currentThread = v ↔
      (s.pc c).Active ∧ (s.cpus c).currentThread = v)
    (hincoming : ∀ c, (s'.pc c).incoming = (s.pc c).incoming)
    (hthreads : ∀ v, (s'.threads v).status = (s.threads v).status ∧
      (s'.threads v).lastCpu = (s.threads v).lastCpu)
    (hok : ∀ c, (s'.cpus c).Ok) (hpcs : ∀ c, (s'.pc c).Ok c (s'.cpus c).currentThread)
    (hres : ∀ t d, s'.resuming t = .locked d → place (.thread t) = .off) : Sound place s' where
  located := by
    refine h.located.frame (fun v p => ?_) hthreads
    cases p with
    | off => exact Iff.rfl
    | queued d q =>
      show v ∈ _ ↔ v ∈ _
      rw [hqueue d q]
    | next d =>
      show _ = some v ↔ _ = some v
      rw [hnext d]
    | active d => exact hactive d v
    | incoming d =>
      show _ = some v ↔ _ = some v
      rw [hincoming d]
  ok := hok
  pcs := hpcs
  resuming := hres

theorem Sound.modifyThread (h : Sound place s) (u : Tid C T) (f : Kthread C → Kthread C)
    (hf : ∀ k, (f k).status = k.status ∧ (f k).lastCpu = k.lastCpu) :
    Sound place (s.modifyThread u f) := by
  refine h.frame (fun _ _ => rfl) (fun _ => rfl) (fun _ _ => Iff.rfl) (fun _ => rfl) ?_ h.ok h.pcs
    h.resuming
  intro v
  by_cases hv : v = u
  · subst hv
    simpa using hf (s.threads v)
  · simp [hv]

omit [DecidableEq T] in
/-- A processor moves on in the code without a change of its threads' places. -/
theorem Sound.setPc (h : Sound place s) {pc : Pc C T}
    (hactive : pc.Active ↔ (s.pc c).Active) (hincoming : pc.incoming = (s.pc c).incoming)
    (hpc : pc.Ok c (s.cpus c).currentThread) : Sound place (s.setPc c pc) := by
  refine h.frame (fun _ _ => rfl) (fun _ => rfl) ?_ ?_ (fun _ => ⟨rfl, rfl⟩) h.ok ?_ h.resuming
  · intro d v
    by_cases hd : d = c
    · subst hd
      simp [hactive]
    · simp [hd]
  · intro d
    by_cases hd : d = c
    · subst hd
      simp [hincoming]
    · simp [hd]
  · intro d
    by_cases hd : d = c
    · subst hd
      simpa using hpc
    · simpa [hd] using h.pcs d

omit [DecidableEq T] in
theorem Sound.setCurrentMap (h : Sound place s) (c : C) (map : ℕ) :
    Sound place (s.modifyCpu c (fun cpu => { cpu with currentMap := map })) := by
  have hcpu : ∀ d, ∃ m, (s.modifyCpu c (fun cpu => { cpu with currentMap := map })).cpus d
      = { s.cpus d with currentMap := m } := by
    intro d
    by_cases hd : d = c
    · subst hd
      exact ⟨map, by simp⟩
    · exact ⟨(s.cpus d).currentMap, by simp [hd]⟩
  refine h.frame ?_ ?_ ?_ (fun _ => rfl) (fun _ => ⟨rfl, rfl⟩) ?_ ?_ h.resuming
  · intro d q
    obtain ⟨m, hm⟩ := hcpu d
    rw [hm]
    cases q <;> rfl
  · intro d
    obtain ⟨m, hm⟩ := hcpu d
    rw [hm]
  · intro d v
    obtain ⟨m, hm⟩ := hcpu d
    rw [hm]
    exact Iff.rfl
  · intro d
    obtain ⟨m, hm⟩ := hcpu d
    rw [hm]
    exact ⟨(h.ok d).nodup, (h.ok d).mask, (h.ok d).rqs⟩
  · intro d
    obtain ⟨m, hm⟩ := hcpu d
    rw [hm]
    exact h.pcs d

omit [DecidableEq C] [DecidableEq T] in
theorem Sound.active (h : Sound place s) (hpc : (s.pc c).Active) :
    place (s.cpus c).currentThread = .active c :=
  ((h.located.at_iff _ (.active c)).mp ⟨hpc, rfl⟩).1

omit [DecidableEq C] [DecidableEq T] in
theorem Sound.incoming (h : Sound place s) (hpc : (s.pc c).incoming = some u) :
    place u = .incoming c :=
  ((h.located.at_iff _ (.incoming c)).mp hpc).1

omit [DecidableEq C] [DecidableEq T] in
theorem Sound.next_ne_idle (h : Sound place s) {d : C} :
    (s.cpus c).nextThread ≠ some (.idle d) := by
  intro hnext
  have hat := ((h.located.at_iff _ (.next c)).mp hnext).1
  have hfits := h.located.fits (.idle d)
  rw [hat] at hfits
  exact hfits

theorem Located.leave_single (h : Located place s) {p : Place C} (hu : s.At u p)
    (hsingle : ∀ v, s.At v p → v = u) (hat : ∀ v q, s'.At v q ↔ q ≠ p ∧ s.At v q)
    (hother : ∀ v, v ≠ u → (s'.threads v).status = (s.threads v).status ∧
      (s'.threads v).lastCpu = (s.threads v).lastCpu) :
    Unplaced (Function.update place u .off) s' u := by
  refine h.leave (fun v q => ?_) hother
  rw [hat v q]
  constructor
  · rintro ⟨hq, hv⟩
    refine ⟨?_, hv⟩
    rintro rfl
    exact hq (h.unique hv hu)
  · rintro ⟨hv, hq⟩
    refine ⟨?_, hq⟩
    rintro rfl
    exact hv (hsingle v hq)

theorem Sound.leaveActive (h : Sound place s) (pc : Pc C T) (hpc : (s.pc c).Active)
    (hactive : ¬ pc.Active) (hincoming : pc.incoming = (s.pc c).incoming) :
    Unplaced (Function.update place (s.cpus c).currentThread .off) (s.setPc c pc)
      (s.cpus c).currentThread := by
  refine h.located.leave_single (p := .active c) ⟨hpc, rfl⟩ (fun v hv => hv.2.symm) ?_
    (fun _ _ => ⟨rfl, rfl⟩)
  intro v q
  cases q with
  | off => simp [State.At]
  | queued d q => simp [State.At]
  | next d => simp [State.At]
  | active d =>
    by_cases hd : d = c
    · subst hd
      simp [State.At, hactive]
    · simp [State.At, hd]
  | incoming d =>
    by_cases hd : d = c
    · subst hd
      simp [State.At, hincoming]
    · simp [State.At, hd]

theorem Sound.leaveIncoming (h : Sound place s) (hpc : (s.pc c).incoming = some u)
    (hactive : ¬ (s.pc c).Active) :
    Unplaced (Function.update place u .off) (s.setPc c (.yielding c)) u := by
  refine h.located.leave_single (p := .incoming c) hpc ?_ ?_ (fun _ _ => ⟨rfl, rfl⟩)
  · intro v hv
    exact Option.some.inj ((show _ = some v from hv).symm.trans hpc)
  · intro v q
    cases q with
    | off => simp [State.At]
    | queued d q => simp [State.At]
    | next d => simp [State.At]
    | active d =>
      by_cases hd : d = c
      · subst hd
        simp [State.At, hactive, show ¬ (Pc.yielding d : Pc C T).Active from id]
      · simp [State.At, hd]
    | incoming d =>
      by_cases hd : d = c
      · subst hd
        simp [State.At, Pc.incoming]
      · simp [State.At, hd]

theorem Unplaced.enterOff (h : Unplaced place s u) (f : Kthread C → Kthread C)
    (hfits : (Place.off : Place C).Fits u (f (s.threads u)).status) :
    Located (Function.update place u .off) (s.modifyThread u f) := by
  refine h.enter (fun v q => ?_) ?_ ?_ nofun
  · refine ⟨Or.inl, fun hv => hv.resolve_right ?_⟩
    rintro ⟨-, hq, hne⟩
    exact hne hq
  · intro v hv
    simp [hv]
  · simpa using hfits

theorem Unplaced.enterIncoming (h : Unplaced place s u) (pc : Pc C T)
    (hnone : (s.pc c).incoming = none) (hpc : pc.incoming = some u)
    (hactive : pc.Active ↔ (s.pc c).Active) (hhome : s.Home u c)
    (f : Kthread C → Kthread C) (hlast : ∀ k, (f k).lastCpu = k.lastCpu)
    (hfits : (Place.incoming c).Fits u (f (s.threads u)).status) :
    Located (Function.update place u (.incoming c)) ((s.modifyThread u f).setPc c pc) := by
  refine h.enter (fun v q => ?_) ?_ ?_ ?_
  · cases q with
    | off => simp [State.At]
    | queued d q => simp [State.At]
    | next d => simp [State.At]
    | active d =>
      by_cases hd : d = c
      · subst hd
        simp [State.At, hactive]
      · simp [State.At, hd]
    | incoming d =>
      by_cases hd : d = c
      · subst hd
        simp only [State.At, State.setPc_pc, State.modifyThread_pc, Function.update_self, hnone, hpc,
          Option.some.injEq, reduceCtorEq, ne_eq, not_false_eq_true, and_self, and_true, false_or]
        exact eq_comm
      · simp [State.At, hd]
  · intro v hv
    simp [hv]
  · simpa using hfits
  · intro d hd
    obtain rfl : c = d := by simpa [Place.cpu] using hd
    exact hhome.of_lastCpu (by simp [hlast])

theorem Unplaced.enterActive (h : Unplaced place s u) (hpc : s.pc c = .yielding c)
    (hcurrent : (s.cpus c).currentThread = u) (hhome : s.Home u c)
    (f : Kthread C → Kthread C) (hlast : ∀ k, (f k).lastCpu = k.lastCpu)
    (hfits : (Place.active c).Fits u (f (s.threads u)).status) :
    Located (Function.update place u (.active c)) ((s.modifyThread u f).setPc c .running) := by
  refine h.enter (fun v q => ?_) ?_ ?_ ?_
  · cases q with
    | off => simp [State.At]
    | queued d q => simp [State.At]
    | next d => simp [State.At]
    | incoming d =>
      by_cases hd : d = c
      · subst hd
        simp [State.At, hpc, Pc.incoming]
      · simp [State.At, hd]
    | active d =>
      by_cases hd : d = c
      · subst hd
        simp only [State.At, State.setPc_pc, State.setPc_cpus, State.modifyThread_pc,
          State.modifyThread_cpus, Function.update_self, hpc, hcurrent, Pc.Active, true_and,
          false_and, ne_eq, reduceCtorEq, not_false_eq_true, and_true, false_or]
        exact eq_comm
      · simp [State.At, hd]
  · intro v hv
    simp [hv]
  · simpa using hfits
  · intro d hd
    obtain rfl : c = d := by simpa [Place.cpu] using hd
    exact hhome.of_lastCpu (by simp [hlast])

/-! ### One lemma for each event -/

theorem resuming_update (hres : ∀ t d, s.resuming t = .locked d → place (.thread t) = .off) (v : Tid C T)
    {p : Place C} (hv : ∀ t d, v = .thread t → s.resuming t = .locked d → p = .off) :
    ∀ t d, s.resuming t = .locked d → Function.update place v p (.thread t) = .off := by
  intro t d ht
  by_cases htv : Tid.thread t = v
  · subst htv
    rw [Function.update_self]
    exact hv t d rfl ht
  · rw [Function.update_of_ne htv]
    exact hres t d ht

omit [DecidableEq C] [DecidableEq T] in
theorem Sound.not_resuming (h : Sound place s) {p : Place C} (hu : place u = p) (hp : p ≠ .off)
    {q : Place C} : ∀ t d, u = .thread t → s.resuming t = .locked d → q = .off := by
  rintro t d rfl ht
  rw [h.resuming t d ht] at hu
  exact absurd hu.symm hp

omit [DecidableEq T] in
theorem pcs_update (hpcs : ∀ d, (s.pc d).Ok d (s.cpus d).currentThread) (pc : Pc C T)
    (hpc : pc.Ok c (s'.cpus c).currentThread)
    (hcurrent : ∀ d, d ≠ c → (s'.cpus d).currentThread = (s.cpus d).currentThread)
    (heq : s'.pc = Function.update s.pc c pc) (d : C) : (s'.pc d).Ok d (s'.cpus d).currentThread := by
  rw [heq]
  by_cases hd : d = c
  · subst hd
    rwa [Function.update_self]
  · rw [Function.update_of_ne hd, hcurrent d hd]
    exact hpcs d

theorem Sound.kthreadInit (h : Sound place s) {t : T} (f : Kthread C → Kthread C)
    (hst : (s.threads (.thread t)).status = .undefined ∨
      (s.threads (.thread t)).status = .terminating)
    (hf : ∀ k, (f k).status = .undefined) : ∃ place', Sound place' (s.modifyThread (.thread t) f) := by
  have hoff : place (.thread t) = .off := by
    apply h.located.off_of_status
    rcases hst with hst | hst
    · exact Or.inr (Or.inr hst)
    · exact Or.inr (Or.inl hst)
  refine ⟨_, (h.located.unplaced hoff).enterOff f (Or.inr (Or.inr (hf _))), h.ok, h.pcs, ?_⟩
  exact resuming_update h.resuming _ (fun _ _ _ _ => rfl)

/-- Somebody takes the lock of a thread that waits or is new, to resume it. -/
theorem Sound.schedResume (h : Sound place s) {t : T} {cpu : C}
    (hst : (s.threads (.thread t)).status = .waiting ∨
      (s.threads (.thread t)).status = .undefined) :
    Sound place ((s.modifyThread (.thread t) (fun k => { k with threadLocked := true })).setResuming
      t (.locked cpu)) := by
  have hoff : place (.thread t) = .off := by
    apply h.located.off_of_status
    rcases hst with hst | hst
    · exact Or.inl hst
    · exact Or.inr (Or.inr hst)
  have h1 := h.modifyThread (.thread t) (fun k => { k with threadLocked := true })
    (fun _ => ⟨rfl, rfl⟩)
  refine ⟨⟨h1.located.at_iff, h1.located.fits, h1.located.home⟩, h1.ok, h1.pcs, ?_⟩
  intro t' d ht
  by_cases htt : t' = t
  · rw [htt]
    exact hoff
  · simp only [State.setResuming_resuming, Function.update_of_ne htt] at ht
    exact h.resuming t' d ht

theorem Sound.resumeInsert (h : Sound place s) {t : T} {cpu : C} (ht : s.resuming t = .locked cpu)
    (hs : (Sched.schedInsert 2 s cpu (.thread t)).map (fun s => s.setResuming t .inserted) = some s') :
    ∃ place', Sound place' s' := by
  have hu := h.located.unplaced (h.resuming t cpu ht)
  obtain ⟨s₁, place', hins, hq⟩ := hu.schedInsert rfl h.ok h.next_ne_idle
  rw [hins, Option.map_some] at hs
  cases hs
  refine ⟨place', ⟨hq.located.at_iff, hq.located.fits, hq.located.home⟩, hq.ok, ?_, ?_⟩
  · intro d
    show (s₁.pc d).Ok d (s₁.cpus d).currentThread
    rw [hq.pc, hq.current d]
    exact h.pcs d
  · intro t' d ht'
    by_cases htt : t' = t
    · subst htt
      simp at ht'
    · simp only [State.setResuming_resuming, Function.update_of_ne htt, hq.resuming] at ht'
      exact hq.off _ (fun he => htt (Tid.thread.inj he)) (h.resuming t' d ht')

theorem Sound.resumeUnlock (h : Sound place s) {t : T} (f : Kthread C → Kthread C)
    (hf : ∀ k, (f k).status = k.status ∧ (f k).lastCpu = k.lastCpu) :
    Sound place ((s.modifyThread (.thread t) f).setResuming t .idle) := by
  have h1 := h.modifyThread (.thread t) f hf
  refine ⟨⟨h1.located.at_iff, h1.located.fits, h1.located.home⟩, h1.ok, h1.pcs, ?_⟩
  intro t' d ht
  by_cases htt : t' = t
  · subst htt
    simp at ht
  · simp only [State.setResuming_resuming, Function.update_of_ne htt] at ht
    exact h.resuming t' d ht

theorem Sound.takeNextThread (h : Sound place s) (pc : Pc C T) {next : Tid C T}
    (hnext : (s.cpus c).nextThread = some next) (hnone : (s.pc c).incoming = none)
    (hincoming : pc.incoming = some next) (hactive : pc.Active ↔ (s.pc c).Active)
    (hpc : pc.Ok c (s.cpus c).currentThread) :
    ∃ place', Sound place' (((s.modifyCpu c (fun cpu => { cpu with nextThread := none })).setStatus
      next .switching).setPc c pc) := by
  have hat : place next = .next c := ((h.located.at_iff next (.next c)).mp hnext).1
  obtain ⟨t, rfl⟩ : ∃ t, next = .thread t := by
    cases next with
    | thread t => exact ⟨t, rfl⟩
    | idle d => exact absurd hnext h.next_ne_idle
  have hcpus : (s.modifyCpu c (fun cpu => { cpu with nextThread := none })).cpus
      = Function.update s.cpus c { s.cpus c with nextThread := none } := rfl
  have hu : Unplaced (Function.update place (.thread t) .off)
      (s.modifyCpu c (fun cpu => { cpu with nextThread := none })) (.thread t) := by
    refine h.located.leave_single (p := .next c) hnext ?_ ?_ (fun _ _ => ⟨rfl, rfl⟩)
    · intro v hv
      exact Option.some.inj ((show _ = some v from hv).symm.trans hnext)
    · intro v q
      cases q with
      | off => simp [State.At]
      | incoming d => simp [State.At]
      | next d =>
        by_cases hd : d = c
        · subst hd
          simp [State.At]
        · simp [State.At, hd]
      | active d =>
        by_cases hd : d = c
        · subst hd
          simp [State.At]
        · simp [State.At, hd]
      | queued d q =>
        by_cases hd : d = c
        · subst hd
          simp only [State.At, hcpus, Function.update_self, ne_eq, reduceCtorEq, not_false_eq_true,
            true_and]
          exact Iff.rfl
        · simp [State.At, hd]
  refine ⟨_, hu.enterIncoming _ hnone hincoming hactive
    ((h.located.home _ c (by rw [hat]; rfl)).of_lastCpu rfl) _ (fun _ => rfl) rfl, ?_, ?_, ?_⟩
  · exact ok_update h.ok (c := c) { s.cpus c with nextThread := none }
      ⟨(h.ok c).nodup, (h.ok c).mask, (h.ok c).rqs⟩
  · have hcur := current_update (c := c) s.cpus
      { s.cpus c with nextThread := none } rfl
    refine pcs_update h.pcs pc ?_ (fun d _ => hcur d) rfl
    exact (hcur c).symm ▸ hpc
  · have hres := resuming_update h.resuming (.thread t) (p := .off) (fun _ _ _ _ => rfl)
    refine resuming_update hres _ ?_
    exact h.not_resuming hat (fun he => by cases he)

omit [DecidableEq C] [DecidableEq T] in
theorem Sound.exists_thread (h : Sound place s) (hpc : (s.pc c).Active)
    (hidle : (s.cpus c).currentThread ≠ .idle c) : ∃ t, (s.cpus c).currentThread = .thread t := by
  have hhome := h.located.home _ c (by rw [h.active hpc]; rfl)
  cases hcur : (s.cpus c).currentThread with
  | thread t => exact ⟨t, rfl⟩
  | idle e =>
    rw [hcur] at hhome hidle
    exact absurd (congrArg Tid.idle hhome) hidle

theorem Sound.blocks (h : Sound place s) (hpc : s.pc c = .running) {d : C}
    (hidle : (s.cpus c).currentThread ≠ .idle c)
    (hlast : (s.threads (s.cpus c).currentThread).lastCpu = some d ∨ d = c)
    (f : Kthread C → Kthread C)
    (hf : ∀ k, (f k).status = .waiting ∨ (f k).status = .terminating) :
    ∃ place', Sound place' ((s.modifyThread (s.cpus c).currentThread f).setPc c (.yielding d)) := by
  have hactive : (s.pc c).Active := by
    rw [hpc]
    trivial
  have hat := h.active hactive
  have hhome := h.located.home _ c (by rw [hat]; rfl)
  obtain ⟨t, ht⟩ := h.exists_thread hactive hidle
  obtain rfl : d = c := by
    rcases hlast with hlast | hlast
    · rw [ht] at hhome hlast
      exact Option.some.inj (hlast.symm.trans hhome)
    · exact hlast
  have hu := h.leaveActive (.yielding d) hactive id (by rw [hpc]; rfl)
  refine ⟨_, hu.enterOff f ?_, h.ok, ?_, ?_⟩
  · rw [ht]
    exact (hf _).imp id Or.inl
  · exact pcs_update h.pcs (.yielding d) ⟨fun e he => (Pc.yielding.inj he).symm, nofun⟩
      (fun _ _ => rfl) rfl
  · have hres := resuming_update h.resuming (s.cpus d).currentThread (p := .off)
      (fun _ _ _ _ => rfl)
    exact resuming_update hres _ (fun _ _ _ _ => rfl)

theorem Sound.idleReady (h : Sound place s) {next : Tid C T} (hpc : s.pc c = .preemptLocked next)
    (hidle : (s.cpus c).currentThread = .idle c) :
    ∃ place', Sound place'
      ((s.setStatus (s.cpus c).currentThread .ready).setPc c (.swtching next)) := by
  have hactive : (s.pc c).Active := by
    rw [hpc]
    trivial
  have hu := h.leaveActive (.swtching next) hactive id (by rw [hpc]; rfl)
  refine ⟨_, hu.enterOff (fun k => { k with status := .ready }) ?_, h.ok, ?_, ?_⟩
  · rw [hidle]
    exact nofun
  · exact pcs_update h.pcs (.swtching next) ⟨nofun, nofun⟩ (fun _ _ => rfl) rfl
  · have hres := resuming_update h.resuming (s.cpus c).currentThread (p := .off)
      (fun _ _ _ _ => rfl)
    exact resuming_update hres _ (fun _ _ _ _ => rfl)

omit [DecidableEq C] [DecidableEq T] in
/-- The place of a processor in the code does not matter to `sched_insert`. -/
theorem insertRound_setPc [DecidableEq C] [DecidableEq T] (s : State C T) (c d : C) (pc : Pc C T)
    (u : Tid C T) : insertRound (s.setPc c pc) d u
      = ((insertRound s d u).1.setPc c pc, (insertRound s d u).2) := by
  unfold insertRound
  simp only [show ((s.setPc c pc).setReady d u).cpus = (s.setReady d u).cpus from rfl,
    show ((s.setPc c pc).setReady d u).threads = (s.setReady d u).threads from rfl]
  split_ifs <;> rfl

theorem schedInsert_setPc (s : State C T) (c d : C) (pc : Pc C T) (u : Tid C T) (fuel : ℕ) :
    Sched.schedInsert fuel (s.setPc c pc) d u
      = (Sched.schedInsert fuel s d u).map (fun s => s.setPc c pc) := by
  induction fuel generalizing s u with
  | zero => rfl
  | succ n ih =>
    simp only [Sched.schedInsert, insertRound_setPc]
    cases hr : (insertRound s d u).2 with
    | none =>
      rw [show insertRound s d u = ((insertRound s d u).1, none) from Prod.ext rfl hr]
      rfl
    | some next =>
      rw [show insertRound s d u = ((insertRound s d u).1, some next) from Prod.ext rfl hr]
      exact ih _ _

theorem Sound.preemptInsert (h : Sound place s) {next : Tid C T} (hpc : s.pc c = .preemptLocked next)
    (hidle : (s.cpus c).currentThread ≠ .idle c)
    (hs : (Sched.schedInsert 2 s c (s.cpus c).currentThread).map
      (fun s => s.setPc c (.swtching next)) = some s') : ∃ place', Sound place' s' := by
  have hactive : (s.pc c).Active := by
    rw [hpc]
    trivial
  have hat := h.active hactive
  have hhome := h.located.home _ c (by rw [hat]; rfl)
  obtain ⟨t, ht⟩ := h.exists_thread hactive hidle
  have hu := h.leaveActive (.swtching next) hactive id (by rw [hpc]; rfl)
  obtain ⟨s₁, place', hins, hq⟩ := hu.schedInsert ht h.ok h.next_ne_idle
  rw [← schedInsert_setPc, hins] at hs
  cases hs
  refine ⟨place', hq.located, hq.ok, ?_, ?_⟩
  · exact pcs_update h.pcs (.swtching next) ⟨nofun, nofun⟩ (fun d _ => hq.current d) hq.pc
  · intro t' d ht'
    rw [hq.resuming] at ht'
    have hoff := h.resuming t' d ht'
    have hne : Tid.thread t' ≠ (s.cpus c).currentThread := by
      intro he
      rw [← he, hoff] at hat
      cases hat
    exact hq.off _ hne (by rw [Function.update_of_ne hne]; exact hoff)

theorem Sound.takeQueued (h : Sound place s) (pc : Pc C T) {cpu' : Cpu C T} {next : Tid C T}
    (hok : cpu'.Ok) (hsame : (s.cpus c).SameBut cpu') (ht : (s.cpus c).Taken cpu' (some next))
    (hnone : (s.pc c).incoming = none) (hincoming : pc.incoming = some next)
    (hactive : pc.Active ↔ (s.pc c).Active) (hpc : pc.Ok c (s.cpus c).currentThread) :
    ∃ place', Sound place' (((s.modifyCpu c (fun _ => cpu')).setStatus next .switching).setPc c
      pc) := by
  obtain ⟨q, hq, hother⟩ := ht
  have hat : place next = .queued c q := by
    refine ((h.located.at_iff next (.queued c q)).mp ?_).1
    show next ∈ (s.cpus c).queue q
    rw [hq]
    exact List.mem_cons_self
  obtain ⟨t, rfl⟩ : ∃ t, next = .thread t := by
    have hfits := h.located.fits next
    rw [hat] at hfits
    cases next with
    | thread t => exact ⟨t, rfl⟩
    | idle d => exact hfits.elim
  have hnew : Tid.thread t ∉ cpu'.queue q := by
    have := (h.ok c).nodup q
    rw [hq] at this
    exact (List.nodup_cons.mp this).1
  have hcpus : (s.modifyCpu c (fun _ => cpu')).cpus = Function.update s.cpus c cpu' := rfl
  have hne : ∀ v p, s.At v p → p ≠ .queued c q → v ≠ .thread t := by
    rintro v p hv hp rfl
    exact hp (((h.located.at_iff _ _).mp hv).1.symm.trans hat)
  have hu : Unplaced (Function.update place (.thread t) .off) (s.modifyCpu c (fun _ => cpu'))
      (.thread t) := by
    refine h.located.leave ?_ (fun _ _ => ⟨rfl, rfl⟩)
    intro v p
    have hkeep : (p ≠ .queued c q) → ((s.modifyCpu c (fun _ => cpu')).At v p ↔ s.At v p) →
        ((s.modifyCpu c (fun _ => cpu')).At v p ↔ v ≠ .thread t ∧ s.At v p) := by
      intro hp hiff
      rw [hiff]
      exact ⟨fun hv => ⟨hne v p hv hp, hv⟩, fun hv => hv.2⟩
    cases p with
    | off => simp [State.At]
    | incoming d => exact hkeep (fun he => by cases he) Iff.rfl
    | next d =>
      refine hkeep (fun he => by cases he) ?_
      by_cases hd : d = c
      · subst hd
        simp [State.At, hsame.nextThread]
      · simp [State.At, hd]
    | active d =>
      refine hkeep (fun he => by cases he) ?_
      by_cases hd : d = c
      · subst hd
        simp [State.At, hsame.currentThread]
      · simp [State.At, hd]
    | queued d q' =>
      by_cases hd : d = c
      · subst hd
        by_cases hqq : q' = q
        · subst hqq
          simp only [State.At, hcpus, Function.update_self, hq, List.mem_cons]
          constructor
          · intro hv
            exact ⟨fun he => hnew (he ▸ hv), Or.inr hv⟩
          · rintro ⟨hv, hv' | hv'⟩
            · exact absurd hv' hv
            · exact hv'
        · refine hkeep (fun he => hqq (Place.queued.inj he).2) ?_
          simp [State.At, hother q' hqq]
      · refine hkeep (fun he => hd (Place.queued.inj he).1) ?_
        simp [State.At, hd]
  refine ⟨_, hu.enterIncoming _ hnone hincoming hactive
    ((h.located.home _ c (by rw [hat]; rfl)).of_lastCpu rfl) _ (fun _ => rfl) rfl,
    ok_update h.ok _ hok, ?_, ?_⟩
  · have hcur := current_update (c := c) s.cpus cpu' hsame.currentThread
    refine pcs_update h.pcs pc ?_ (fun d _ => hcur d) rfl
    exact (hcur c).symm ▸ hpc
  · have hres := resuming_update h.resuming (.thread t) (p := .off) (fun _ _ _ _ => rfl)
    refine resuming_update hres _ ?_
    exact h.not_resuming hat (fun he => by cases he)

omit [DecidableEq T] in
theorem Sound.setCpu (h : Sound place s) {cpu' : Cpu C T} (hok : cpu'.Ok)
    (hsame : (s.cpus c).SameBut cpu') (ht : (s.cpus c).Taken cpu' none) :
    Sound place (s.modifyCpu c (fun _ => cpu')) := by
  have hcur := current_update (c := c) s.cpus cpu' hsame.currentThread
  refine h.frame ?_ ?_ ?_ (fun _ => rfl) (fun _ => ⟨rfl, rfl⟩) (ok_update h.ok _ hok) ?_ h.resuming
  · intro d q
    by_cases hd : d = c
    · subst hd
      simpa using ht q
    · simp [hd]
  · intro d
    by_cases hd : d = c
    · subst hd
      simpa using hsame.nextThread
    · simp [hd]
  · intro d v
    rw [show ((s.modifyCpu c (fun _ => cpu')).cpus d).currentThread = _ from hcur d]
    exact Iff.rfl
  · intro d
    rw [show ((s.modifyCpu c (fun _ => cpu')).cpus d).currentThread = _ from hcur d]
    exact h.pcs d

theorem Sound.yields (h : Sound place s) {d : C} (hpc : s.pc c = .yielding d) :
    ∃ next s₁ place', takeNext s d = some (next, s₁) ∧
      Sound place' (s₁.setPc c (.yieldTaken next)) := by
  obtain rfl : d = c := (h.pcs c).yielding d hpc
  have hnone : (s.pc d).incoming = none := by
    rw [hpc]
    rfl
  have hactive : ∀ next : Option (Tid C T), (Pc.yieldTaken next).Active ↔ (s.pc d).Active := by
    intro next
    rw [hpc]
    exact Iff.rfl
  unfold takeNext
  cases hn : (s.cpus d).nextThread with
  | some next =>
    obtain ⟨place', hs⟩ := h.takeNextThread (.yieldTaken (some next)) hn hnone rfl
      (hactive _) ⟨nofun, nofun⟩
    exact ⟨some next, _, place', rfl, hs⟩
  | none =>
    obtain ⟨r, cpu', hsel, hok, hsame, ht⟩ := selectNext_spec (h.ok d)
    rw [hsel]
    cases r with
    | none =>
      have h1 := h.setCpu hok hsame ht
      exact ⟨none, _, place, rfl, h1.setPc (hactive none) hnone.symm ⟨nofun, nofun⟩⟩
    | some next =>
      obtain ⟨place', hs⟩ := h.takeQueued (.yieldTaken (some next)) hok hsame ht hnone rfl
        (hactive _) ⟨nofun, nofun⟩
      exact ⟨some next, _, place', rfl, hs⟩

theorem Sound.toIdle (h : Sound place s) (hpc : s.pc c = .yieldTaken none) :
    ∃ place', Sound place' (s.setPc c (.swtching (.idle c))) := by
  have hnone : (s.pc c).incoming = none := by
    rw [hpc]
    rfl
  have hactive : ¬ (s.pc c).Active := by
    rw [hpc]
    exact id
  have hhome := h.located.home (.idle c)
  have hoff : place (.idle c) = .off := by
    have hfits := h.located.fits (.idle c)
    cases hp : place (.idle c) with
    | off => rfl
    | queued d q | next d =>
      rw [hp] at hfits
      exact hfits.elim
    | active d =>
      obtain rfl : c = d := hhome d (by rw [hp]; rfl)
      exact absurd ((h.located.at_iff _ (.active c)).mpr ⟨hp, nofun⟩).1 hactive
    | incoming d =>
      obtain rfl : c = d := hhome d (by rw [hp]; rfl)
      have hin : (s.pc c).incoming = some (.idle c) :=
        (h.located.at_iff _ (.incoming c)).mpr ⟨hp, nofun⟩
      rw [hnone] at hin
      cases hin
  have hself : s.modifyThread (.idle c) (fun k => k) = s := by
    unfold State.modifyThread
    rw [Function.update_eq_self]
  have hu := (h.located.unplaced hoff).enterIncoming (.swtching (.idle c)) hnone rfl
    (iff_of_false id hactive) rfl (fun k => k) (fun _ => rfl) ?_
  · rw [hself] at hu
    refine ⟨_, hu, h.ok, pcs_update h.pcs (.swtching (.idle c)) ⟨nofun, nofun⟩
      (fun _ _ => rfl) rfl, ?_⟩
    exact resuming_update h.resuming _ nofun
  · have hfits := h.located.fits (.idle c)
    rw [hoff] at hfits
    exact hfits

omit [DecidableEq C] [DecidableEq T] in
theorem Sound.panic (h : Sound place s) : Sound place s.panic :=
  ⟨⟨h.located.at_iff, h.located.fits, h.located.home⟩, h.ok, h.pcs, h.resuming⟩

theorem Sound.swtch (h : Sound place s) {next : Tid C T} (hpc : s.pc c = .swtching next) :
    Sound place (Sched.swtch s c (s.cpus c).currentThread next) := by
  unfold Sched.swtch
  split_ifs
  · exact h.panic
  · exact h.panic
  · have h1 := h.modifyThread (s.cpus c).currentThread
      (fun k => { k with affinityCpu := some c }) (fun _ => ⟨rfl, rfl⟩)
    refine h1.frame ?_ ?_ ?_ ?_ (fun _ => ⟨rfl, rfl⟩) ?_ ?_ h1.resuming
    · intro d q
      by_cases hd : d = c
      · subst hd
        cases q <;> simp [Cpu.queue]
      · simp [hd]
    · intro d
      by_cases hd : d = c
      · subst hd
        simp
      · simp [hd]
    · intro d v
      by_cases hd : d = c
      · subst hd
        simp [Pc.Active, hpc]
      · simp [hd]
    · intro d
      by_cases hd : d = c
      · subst hd
        simp [Pc.incoming, hpc]
      · simp [hd]
    · exact ok_update h1.ok (c := c) _ ⟨(h.ok c).nodup, (h.ok c).mask, (h.ok c).rqs⟩
    · intro d
      by_cases hd : d = c
      · subst hd
        simp only [State.setPc_pc, State.setPc_cpus, State.modifyCpu_cpus, Function.update_self]
        exact ⟨fun _ he => (by cases he), fun _ he => Option.some.inj he⟩
      · simpa [hd] using h.pcs d

theorem Sound.finalize (h : Sound place s) {next : Tid C T} (hpc : s.pc c = .finalizing next) :
    ∃ place', Sound place' ((s.setStatus next .running).setPc c .running) := by
  have hincoming : (s.pc c).incoming = some next := by
    rw [hpc]
    rfl
  have hat := h.incoming hincoming
  have hcurrent : (s.cpus c).currentThread = next := (h.pcs c).entered next (by rw [hpc]; rfl)
  have hu := h.leaveIncoming hincoming (by rw [hpc]; exact id)
  have hhome : (s.setPc c (.yielding c)).Home next c :=
    (h.located.home next c (by rw [hat]; rfl)).of_lastCpu rfl
  have hl := hu.enterActive (by simp) hcurrent hhome (fun k => { k with status := .running })
    (fun _ => rfl) (by cases next with | idle d => exact nofun | thread t => exact rfl)
  have hidem : ((s.setPc c (.yielding c)).modifyThread next
      (fun k => { k with status := .running })).setPc c .running
      = (s.setStatus next .running).setPc c .running := by
    unfold State.setPc State.modifyThread State.setStatus
    simp only [Function.update_idem]
    rfl
  rw [hidem] at hl
  refine ⟨_, hl, h.ok, pcs_update h.pcs .running ⟨nofun, nofun⟩ (fun _ _ => rfl) rfl, ?_⟩
  have hres := resuming_update h.resuming next (p := .off) (fun _ _ _ _ => rfl)
  refine resuming_update hres _ ?_
  exact h.not_resuming hat (fun he => by cases he)

theorem Sound.runPc (h : Sound place s) (hs : Sched.runPc s c = some s') :
    ∃ place', Sound place' s' := by
  unfold Sched.runPc at hs
  cases hpc : s.pc c with
  | running => simp [hpc] at hs
  | preemptTaken next =>
    simp only [hpc] at hs
    split_ifs at hs
    cases hs
    have h1 := h.modifyThread (s.cpus c).currentThread
      (fun k => { k with threadLocked := true, switching := true }) (fun _ => ⟨rfl, rfl⟩)
    exact ⟨place, h1.setPc (by simp [hpc, Pc.Active]) (by simp [hpc, Pc.incoming]) ⟨nofun, nofun⟩⟩
  | preemptLocked next =>
    simp only [hpc] at hs
    split_ifs at hs with hidle
    · cases hs
      exact h.idleReady hpc hidle
    · exact h.preemptInsert hpc hidle hs
  | yielding d =>
    obtain ⟨next, s₁, place', htake, hs₁⟩ := h.yields hpc
    simp only [hpc, htake] at hs
    cases hs
    exact ⟨place', hs₁⟩
  | yieldTaken next =>
    cases next with
    | none =>
      simp only [hpc] at hs
      cases hs
      exact h.toIdle hpc
    | some next =>
      simp only [hpc] at hs
      split_ifs at hs
      cases hs
      exact ⟨place, h.setPc (by simp [hpc, Pc.Active]) (by simp [hpc, Pc.incoming]) ⟨nofun, nofun⟩⟩
  | swtching next =>
    simp only [hpc] at hs
    cases hs
    exact ⟨place, h.swtch hpc⟩
  | switched current next =>
    simp only [hpc] at hs
    cases hs
    have hentered : (s.cpus c).currentThread = next := (h.pcs c).entered next (by rw [hpc]; rfl)
    have h1 := h.modifyThread current (fun k => { k with switching := false })
      (fun _ => ⟨rfl, rfl⟩)
    exact ⟨place, h1.setPc (by simp [hpc, Pc.Active]) (by simp [hpc, Pc.incoming])
      ⟨nofun, fun _ he => hentered.trans (Option.some.inj he)⟩⟩
  | unlocking current next =>
    simp only [hpc] at hs
    cases hs
    have hentered : (s.cpus c).currentThread = next := (h.pcs c).entered next (by rw [hpc]; rfl)
    have h1 := h.modifyThread current (fun k => { k with threadLocked := false })
      (fun _ => ⟨rfl, rfl⟩)
    exact ⟨place, h1.setPc (by simp [hpc, Pc.Active]) (by simp [hpc, Pc.incoming])
      ⟨nofun, fun _ he => hentered.trans (Option.some.inj he)⟩⟩
  | finalizing next =>
    simp only [hpc] at hs
    cases hs
    exact h.finalize hpc

/-- **Step lemma.** -/
theorem Sound.step {ev : Event C T} (h : Sound place s) (hs : stepEvent s ev = some s') :
    ∃ place', Sound place' s' := by
  cases ev with
  | kthreadInit t priority userThread ownerProcess =>
    simp only [stepEvent] at hs
    split_ifs at hs with hst
    cases hs
    exact h.kthreadInit _ hst.1 (fun _ => rfl)
  | schedResume t cpu =>
    simp only [stepEvent] at hs
    split_ifs at hs with hst
    cases hs
    exact ⟨place, h.schedResume hst.1⟩
  | resumeInsert t =>
    simp only [stepEvent] at hs
    cases hr : s.resuming t with
    | idle | inserted => simp [hr] at hs
    | locked cpu =>
      simp only [hr] at hs
      exact h.resumeInsert hr hs
  | resumeUnlock t =>
    simp only [stepEvent] at hs
    cases hr : s.resuming t with
    | idle | locked => simp [hr] at hs
    | inserted =>
      simp only [hr] at hs
      cases hs
      exact ⟨place, h.resumeUnlock _ (fun _ => ⟨rfl, rfl⟩)⟩
  | schedPreempt c =>
    simp only [stepEvent] at hs
    split at hs
    · rename_i next hpc hnext
      cases hs
      exact h.takeNextThread (.preemptTaken next) hnext (by rw [hpc]; rfl) rfl
        (by rw [hpc]; exact Iff.rfl) ⟨nofun, nofun⟩
    · cases hs
  | doWait c =>
    simp only [stepEvent] at hs
    split at hs
    · rename_i hpc
      split_ifs at hs with hidle
      rw [not_or] at hidle
      split at hs
      · cases hs
        exact ⟨place, h.panic⟩
      · rename_i lastCpu hlast
        cases hs
        exact h.blocks hpc hidle.1 (Or.inl hlast) _ (fun _ => Or.inl rfl)
    · cases hs
  | schedExitSelf c =>
    simp only [stepEvent] at hs
    split at hs
    · rename_i hpc
      split_ifs at hs with hidle
      rw [not_or] at hidle
      cases hs
      obtain ⟨place', hl⟩ := h.blocks hpc hidle.1 (Or.inr rfl) (fun k => { k with
        vmCtx := some kmap, threadLocked := true, status := .terminating }) (fun _ => Or.inr rfl)
      exact ⟨place', hl.setCurrentMap c kmap⟩
    · cases hs
  | vmMapTmpSwitch c map =>
    simp only [stepEvent] at hs
    split at hs
    · split_ifs at hs
      cases hs
      have h1 := h.modifyThread (s.cpus c).currentThread (fun k => { k with
        origMap := (s.cpus c).currentMap, vmCtx := some map }) (fun _ => ⟨rfl, rfl⟩)
      exact ⟨place, h1.setCurrentMap c map⟩
    · cases hs
  | vmMapTmpDisable c =>
    simp only [stepEvent] at hs
    split at hs
    · split_ifs at hs
      cases hs
      have h1 := h.modifyThread (s.cpus c).currentThread (fun k => { k with vmCtx := none })
        (fun _ => ⟨rfl, rfl⟩)
      exact ⟨place, h1.setCurrentMap c _⟩
    · cases hs
  | execActivate c map =>
    simp only [stepEvent] at hs
    split at hs
    · split_ifs at hs
      cases hs
      have h1 : Sound place (s.setProcessMap (s.threads (s.cpus c).currentThread).ownerProcess map) :=
        ⟨⟨h.located.at_iff, h.located.fits, h.located.home⟩, h.ok, h.pcs, h.resuming⟩
      exact ⟨place, h1.setCurrentMap c map⟩
    · cases hs
  | run c => exact h.runPc hs

end Steps

/-! ## Runs -/

section Runs

variable [DecidableEq C] [DecidableEq T] {s : State C T}

/-- At the start every processor runs its idle thread and every other thread is off. -/
def initialPlace : Tid C T → Place C
  | .idle c => .active c
  | .thread _ => .off

omit [DecidableEq C] [DecidableEq T] in
theorem sound_initial (processMap : ℕ → ℕ) :
    Sound initialPlace (initial processMap : State C T) := by
  refine ⟨⟨?_, ?_, ?_⟩, ?_, fun c => ⟨nofun, nofun⟩, fun t d => nofun⟩
  · intro u p
    cases p with
    | off => exact iff_of_false id (fun h => h.2 rfl)
    | active c =>
      show True ∧ Tid.idle c = u ↔ _
      cases u with
      | idle d =>
        simp only [true_and, initialPlace, Tid.idle.injEq, Place.active.injEq, ne_eq, reduceCtorEq,
          not_false_eq_true, and_true]
        exact eq_comm
      | thread t => simp [initialPlace]
    | queued c q =>
      refine iff_of_false ?_ (fun h => ?_)
      · cases q <;> exact List.not_mem_nil
      · cases u <;> cases h.1
    | next c =>
      refine iff_of_false nofun (fun h => ?_)
      cases u <;> cases h.1
    | incoming c =>
      refine iff_of_false nofun (fun h => ?_)
      cases u <;> cases h.1
  · intro u
    cases u with
    | idle c => exact nofun
    | thread t => exact Or.inr (Or.inr rfl)
  · intro u c hc
    cases u with
    | idle d => exact Option.some.inj hc
    | thread t => cases hc
  · intro c
    refine ⟨fun q => ?_, fun i p => ?_, rfl⟩
    · cases q <;> exact List.nodup_nil
    · refine iff_of_false ?_ (fun h => h rfl)
      simp [initial, cpudataInit]

/-- **Run lemma.** -/
theorem Sound.of_reachable (h : (system C T).Reachable s) : ∃ place, Sound place s := by
  apply TransitionSystem.Reachable.invariant ?_ ?_ h
  · rintro _ ⟨processMap, -, rfl⟩
    exact ⟨initialPlace, sound_initial processMap⟩
  · rintro s ev s' ⟨place, hI⟩ hs
    unfold system Sched.step at hs
    simp only at hs
    split_ifs at hs
    exact hI.step hs

omit [DecidableEq C] [DecidableEq T] in
theorem Sound.ready {place : Tid C T → Place C} (h : Sound place s) {t : T}
    (ht : (s.threads (.thread t)).status = .ready) :
    ∃! q : C × Slot, .thread t ∈ (s.cpus q.1).queue q.2 := by
  have hfits := h.located.fits (.thread t)
  rw [ht] at hfits
  cases hp : place (.thread t) with
  | queued c q =>
    refine ⟨(c, q), (h.located.at_iff _ (.queued c q)).mpr ⟨hp, nofun⟩, ?_⟩
    rintro ⟨d, q'⟩ hq'
    have hat := ((h.located.at_iff _ (.queued d q')).mp hq').1
    rw [hp] at hat
    cases hat
    rfl
  | off | next c | active c | incoming c =>
    rw [hp] at hfits
    simp [Place.Fits] at hfits

omit [DecidableEq C] [DecidableEq T] in
/-- A thread with status `THREAD_NEXT` is the next thread of one processor. -/
theorem Sound.next {place : Tid C T → Place C} (h : Sound place s) {u : Tid C T}
    (hu : (s.threads u).status = .next) : ∃! c, (s.cpus c).nextThread = some u := by
  have hfits := h.located.fits u
  rw [hu] at hfits
  cases hp : place u with
  | next c =>
    refine ⟨c, (h.located.at_iff _ (.next c)).mpr ⟨hp, nofun⟩, ?_⟩
    intro d hd
    have hat := ((h.located.at_iff _ (.next d)).mp hd).1
    rw [hp] at hat
    cases hat
    rfl
  | off | queued c q | active c | incoming c =>
    rw [hp] at hfits
    cases u <;> simp [Place.Fits] at hfits

omit [DecidableEq C] [DecidableEq T] in
theorem Sound.queued {place : Tid C T → Place C} (h : Sound place s) {u : Tid C T} {c : C}
    {q : Slot} (hu : u ∈ (s.cpus c).queue q) :
    ∃ t, u = .thread t ∧ (s.threads u).status = .ready := by
  have hfits := h.located.fits u
  rw [((h.located.at_iff u (.queued c q)).mp hu).1] at hfits
  cases u with
  | idle d => exact hfits.elim
  | thread t => exact ⟨t, rfl, hfits⟩

omit [DecidableEq C] [DecidableEq T] in
theorem Sound.nextStatus {place : Tid C T → Place C} (h : Sound place s) {u : Tid C T} {c : C}
    (hu : (s.cpus c).nextThread = some u) : (s.threads u).status = .next := by
  have hfits := h.located.fits u
  rw [((h.located.at_iff u (.next c)).mp hu).1] at hfits
  cases u with
  | idle d => exact hfits.elim
  | thread t => exact hfits

/-- **No thread is lost or duplicated.**  In every reachable state each ready thread but the
idle ones is in exactly one queue, and once there; each thread with status `THREAD_NEXT` is
exactly one processor's next thread; no other thread is in a queue or next; bit `p` of a
ready mask is set iff queue `p` is not empty; and the two runqueues of a processor are its
current and its next one. -/
theorem placed_of_reachable (h : (system C T).Reachable s) :
    (∀ t, (s.threads (.thread t)).status = .ready →
      ∃! q : C × Slot, .thread t ∈ (s.cpus q.1).queue q.2) ∧
    (∀ c q, ((s.cpus c).queue q).Nodup) ∧
    (∀ u, (s.threads u).status = .next → ∃! c, (s.cpus c).nextThread = some u) ∧
    (∀ u c q, u ∈ (s.cpus c).queue q → ∃ t, u = .thread t ∧ (s.threads u).status = .ready) ∧
    (∀ u c, (s.cpus c).nextThread = some u → (s.threads u).status = .next) ∧
    (∀ c i p, ((s.cpus c).rqs i).readyMask.getLsbD p = true ↔ ((s.cpus c).rqs i).queues p ≠ []) ∧
    ∀ c i, i = (s.cpus c).currentRq ∨ i = (s.cpus c).nextRq := by
  obtain ⟨place, hs⟩ := Sound.of_reachable h
  refine ⟨fun t => hs.ready, fun c => (hs.ok c).nodup, fun u => hs.next, fun u c q => hs.queued,
    fun u c => hs.nextStatus, fun c => (hs.ok c).mask, ?_⟩
  intro c i
  rw [(hs.ok c).rqs]
  cases i <;> cases (s.cpus c).currentRq <;> simp

end Runs

/-! ## Two runs -/

/-- Thread 0 is made and resumed on processor 0; it becomes the next thread there, and the
processor goes to switch to it. -/
def idlePreemptedRun : List (Event ℕ ℕ) :=
  [.kthreadInit 0 ⟨1, by decide⟩ false 0, .schedResume 0 0, .resumeInsert 0, .resumeUnlock 0,
    .schedPreempt 0, .run 0, .run 0]

/-- The preempted idle thread is ready and on no queue. -/
theorem idle_ready_unqueued : ∃ s, (system ℕ ℕ).Reachable s ∧
    (s.threads (.idle 0)).status = .ready ∧ ∀ c q, .idle 0 ∉ (s.cpus c).queue q := by
  obtain ⟨s, hs, hp⟩ := TransitionSystem.exists_reachable_of_run
    (show (system ℕ ℕ).init (initial (fun _ => 0)) from ⟨_, rfl, rfl⟩) idlePreemptedRun
    (fun s => (s.threads (.idle 0)).status = .ready) (by decide)
  obtain ⟨place, hsound⟩ := Sound.of_reachable hs
  refine ⟨s, hs, by simpa using hp, ?_⟩
  intro c q hq
  obtain ⟨t, ht, -⟩ := hsound.queued hq
  cases ht

/-- Two threads of one real-time priority are resumed on processor 0. -/
def twoResumedRun : List (Event ℕ ℕ) :=
  [.kthreadInit 0 ⟨17, by decide⟩ false 0, .kthreadInit 1 ⟨17, by decide⟩ false 0,
    .schedResume 0 0, .resumeInsert 0, .resumeUnlock 0, .schedResume 1 0, .resumeInsert 1]

/-- The first is next, the second waits in a queue. -/
theorem placed_two : ∃ s, (system ℕ ℕ).Reachable s ∧
    (∃! q : ℕ × Slot, .thread 1 ∈ (s.cpus q.1).queue q.2) ∧
    ∃! c, (s.cpus c).nextThread = some (.thread 0) := by
  obtain ⟨s, hs, hp⟩ := TransitionSystem.exists_reachable_of_run
    (show (system ℕ ℕ).init (initial (fun _ => 0)) from ⟨_, rfl, rfl⟩) twoResumedRun
    (fun s => (s.threads (.thread 1)).status = .ready ∧ (s.threads (.thread 0)).status = .next)
    (by decide)
  simp only [decide_eq_true_eq] at hp
  obtain ⟨hready, -, hnext, -⟩ := placed_of_reachable hs
  exact ⟨s, hs, hready 1 hp.1, hnext _ hp.2⟩

end Sched
