/-
# Every step keeps the invariant of the process tree

One lemma for each function of the model, and from them the invariant of every run.
-/
import YakKernel.ProcTreeInvariant

namespace ProcTree

open Function

variable {s s' : State} {place : ℕ → Option Place} {t u p c z : ℕ} {thread thread' : Thread}
  {req : Request} {rest : List ℕ} {found : Bool}

namespace Inv

/-! ## The end of a run -/

theorem stop (h : Inv s place) {why : Halt}
    (hwhy : why = .ownLock ∨ why = .killInit ∨ why = .execThreads) :
    Inv (s.stop why) place where
  fresh := h.fresh
  vacant := h.vacant
  kernel := h.kernel
  init := h.init
  reaped := h.reaped
  reapedNodup := h.reapedNodup
  counts := h.counts
  zombie := h.zombie
  places := by
    have hsame : (s.stop why).places = s.places := by
      funext k
      cases k <;> rfl
    rw [hsame]
    exact h.places
  placed := h.placed
  named := h.named
  locked := h.locked
  progress := by
    intro u thread hu
    exact (h.progress u thread hu).frame (fun c _ hc => ⟨hc.1, hc.2, hc.3⟩) (fun _ _ _ hc => hc)
      (fun _ _ hz => hz) (List.Subset.refl _) (fun _ _ _ hz => hz)
  stopped := by
    intro why' hwhy'
    obtain rfl : why = why' := by simpa [State.stop] using hwhy'
    exact hwhy

/-! ## fork and exec -/

theorem fork (h : Inv s place) (ht : s.threads t = some .user) :
    Inv (s.fork t) (update place s.nextPid (some (.hand t))) := by
  have hnew : s.pidTable s.nextPid = false := h.fresh s.nextPid le_rfl
  obtain ⟨hnoThread, hnoExited, hnoChild⟩ := h.vacant s.nextPid hnew
  have htn : t ≠ s.nextPid := h.ne_nextPid (h.allocated ht)
  have hplace : place s.nextPid = none := by
    have hplaced := h.placed s.nextPid
    rw [hnew] at hplaced
    simpa using hplaced
  have hzero : s.nextPid ≠ 0 := (h.ne_nextPid h.kernel.1).symm
  have hone : s.nextPid ≠ 1 := (h.ne_nextPid h.init.1).symm
  constructor
  case fresh =>
    intro p hp
    have hpn : p ≠ s.nextPid := Nat.ne_of_gt hp
    simp only [State.fork, State.setThread, State.uprocessInit]
    rw [update_of_ne hpn]
    exact h.fresh p (Nat.le_of_succ_le hp)
  case vacant =>
    intro p hp
    have hpn : p ≠ s.nextPid := by
      rintro rfl
      simp [State.fork, State.setThread, State.uprocessInit] at hp
    have hvacant : s.pidTable p = false := by
      simpa [State.fork, State.setThread, State.uprocessInit, hpn] using hp
    have hpt : p ≠ t := by
      rintro rfl
      simp [h.allocated ht] at hvacant
    simpa [State.fork, State.setThread, State.uprocessInit, hpn, hpt] using h.vacant p hvacant
  case kernel =>
    simpa [State.fork, State.setThread, State.uprocessInit, hzero.symm, (h.ne_zero ht).symm] using
      h.kernel
  case init =>
    simpa [State.fork, State.setThread, State.uprocessInit, hone.symm] using h.init
  case reaped =>
    intro p
    rw [show (s.fork t).reaped = s.reaped from rfl, h.reaped p]
    by_cases hpn : p = s.nextPid
    · simp [hpn, State.fork, State.setThread, State.uprocessInit]
    · simp only [State.fork, State.setThread, State.uprocessInit]
      rw [update_of_ne hpn]
      constructor
      · exact fun hp => ⟨Nat.lt_succ_of_lt hp.1, hp.2⟩
      · exact fun hp => ⟨lt_of_le_of_ne (Nat.le_of_lt_succ hp.1) hpn, hp.2⟩
  case reapedNodup => exact h.reapedNodup
  case counts =>
    intro p hp
    by_cases hpn : p = s.nextPid
    · subst hpn
      simp [State.fork, State.setThread, State.uprocessInit, htn.symm, hnoThread, hnoExited]
    · have hcount := h.counts p hp
      by_cases hpt : p = t
      · subst hpt
        simpa [State.fork, State.setThread, State.uprocessInit, hpn, ht] using hcount
      · simpa [State.fork, State.setThread, State.uprocessInit, hpn, hpt] using hcount
  case zombie =>
    intro p hp
    by_cases hpn : p = s.nextPid
    · simp [hpn, State.fork, State.setThread, State.uprocessInit]
    · simp only [State.fork, State.setThread, State.uprocessInit] at hp ⊢
      rw [update_of_ne hpn] at hp ⊢
      exact h.zombie p hp
  case places =>
    have hinsert := h.places.insert (k := .hand t) hplace
    rw [places_hand ht] at hinsert
    have hsame : (s.uprocessInit t).places = s.places := by
      funext k
      cases k with
      | list q =>
        by_cases hq : q = s.nextPid
        · simp [State.places, State.uprocessInit, hq, hnoChild]
        · simp [State.places, State.uprocessInit, hq]
      | hand u => rfl
    rw [State.fork, places_setThread, hsame]
    exact hinsert
  case placed =>
    intro q
    by_cases hq : q = s.nextPid
    · simpa [hq, State.fork, State.setThread, State.uprocessInit] using hzero
    · simpa [hq, State.fork, State.setThread, State.uprocessInit] using h.placed q
  case named =>
    intro q k hq
    by_cases hqn : q = s.nextPid
    · simp [hqn] at hq
    · rw [update_of_ne hqn] at hq
      simpa [State.Named, State.fork, State.setThread, State.uprocessInit, hqn] using h.named q k hq
  case locked =>
    have hlocks : (s.fork t).locks = s.locks := by
      rw [State.fork, locks_setThread]
      have hsame : (s.uprocessInit t).locks = s.locks := rfl
      rw [hsame, Option.map_some, Option.getD_some,
        show Thread.locks t (.forking s.nextPid) = Thread.locks t .user from rfl,
        ← locks_thread ht, update_eq_self]
    have hfree : s.childListLock s.nextPid = none := by
      cases howner : s.childListLock s.nextPid with
      | none => rfl
      | some u => simp [h.allocated_of_lock howner] at hnew
    rw [hlocks, show (s.fork t).childListLock = update s.childListLock s.nextPid none from rfl,
      ← hfree, update_eq_self]
    exact h.locked
  case progress =>
    have hstart : ∀ c, s.pidTable c = true → s.Unstarted c → (s.fork t).Unstarted c := by
      intro c hc hunstarted
      have hcn := h.ne_nextPid hc
      refine ⟨?_, ?_, hunstarted.noExited⟩
      · simpa [State.fork, State.setThread, State.uprocessInit, hcn] using hunstarted.alive
      · simpa [State.fork, State.setThread, State.uprocessInit, hunstarted.ne ht] using
          hunstarted.noThread
    intro u thread hu
    by_cases hut : u = t
    · subst hut
      obtain rfl : .forking s.nextPid = thread := by simpa [State.fork, State.setThread] using hu
      refine ⟨⟨?_, ?_, hnoExited⟩, ?_, ?_⟩
      · simp [State.fork, State.setThread, State.uprocessInit]
      · simpa [State.fork, State.setThread, State.uprocessInit, htn.symm] using hnoThread
      · simp [State.fork, State.setThread, State.uprocessInit]
      · simp [State.fork, State.setThread, State.uprocessInit]
    · have hu' : s.threads u = some thread := by
        simpa [State.fork, State.setThread, State.uprocessInit, hut] using hu
      have hun : u ≠ s.nextPid := h.ne_nextPid (h.allocated hu')
      refine (h.progress u thread hu').frame ?_ ?_ ?_ ?_ ?_
      · exact fun c hc => hstart c (h.allocated_of_unstarted hu' hc)
      · intro c q hc hcq
        have hcn := h.ne_nextPid (h.allocated_of_hands hu' hc)
        simpa [State.Named, State.fork, State.setThread, State.uprocessInit, hcn] using hcq
      · intro z hz hzombie
        have hzn := h.ne_nextPid (h.allocated_of_hands hu' hz)
        simpa [State.fork, State.setThread, State.uprocessInit, hzn] using hzombie
      · simp [State.fork, State.setThread, State.uprocessInit, hun]
      · intro z hz _ hempty
        have hzn := h.ne_nextPid (h.allocated_of_hands hu' hz)
        simpa [State.fork, State.setThread, State.uprocessInit, hzn] using hempty
  case stopped => exact h.stopped

theorem insertChild_eq (h : Inv s place) (ht : s.threads t = some (.forking c))
    (hs : s.insertChild t c = some s') :
    s' = (s.setChildList t (c :: s.childList t)).setThread t (some (.inserted c)) := by
  rcases State.guarded_eq_some hs with ⟨-, hs'⟩ | ⟨howner, -⟩
  · exact hs'
  · exact absurd howner (h.owner_ne ht (by simp [Thread.locks]))

theorem insertChild (h : Inv s place) (ht : s.threads t = some (.forking c))
    (hs : s.insertChild t c = some s') : ∃ place', Inv s' place' := by
  have hok := h.progress t _ ht
  rw [h.insertChild_eq ht hs]
  refine ⟨_, h.put ht rfl rfl hok.2 (h.allocated ht) (h.alive ht) ⟨?_, ?_⟩⟩
  · exact ⟨hok.1.1, hok.1.2, hok.1.3⟩
  · simp [State.setChildList]

theorem resumeChild (h : Inv s place) (ht : s.threads t = some (.inserted c)) :
    Inv (s.resumeChild t c) place := by
  obtain ⟨hunstarted, hmem⟩ := h.progress t _ ht
  have hct : c ≠ t := hunstarted.ne ht
  have hplace := h.place_list hmem
  obtain ⟨hzero, hc⟩ := h.pidTable_of_place hplace
  have hother : ∀ u thread, u ≠ t → (s.resumeChild t c).threads u = some thread → u ≠ c →
      s.threads u = some thread := by
    intro u thread hut hu huc
    simpa [State.resumeChild, State.setThread, hut, huc] using hu
  constructor
  case fresh => exact h.fresh
  case vacant =>
    intro p hp
    have hpt : p ≠ t := by
      rintro rfl
      simp [h.allocated ht, State.resumeChild, State.setThread] at hp
    have hpc : p ≠ c := by
      rintro rfl
      simp [hc, State.resumeChild, State.setThread] at hp
    simpa [State.resumeChild, State.setThread, hpt, hpc] using h.vacant p hp
  case kernel =>
    simpa [State.resumeChild, State.setThread, hzero.symm, (h.ne_zero ht).symm] using h.kernel
  case init => exact h.init
  case reaped => exact h.reaped
  case reapedNodup => exact h.reapedNodup
  case counts =>
    intro p hp
    have hcount := h.counts p hp
    by_cases hpc : p = c
    · subst hpc
      simpa [State.resumeChild, State.setThread, hct, hunstarted.noThread] using hcount
    · by_cases hpt : p = t
      · subst hpt
        simpa [State.resumeChild, State.setThread, hpc, ht] using hcount
      · simpa [State.resumeChild, State.setThread, hpc, hpt] using hcount
  case zombie =>
    intro p hp
    have hpc : p ≠ c := by
      rintro rfl
      simp [State.resumeChild, State.setThread, hunstarted.alive] at hp
    simpa [State.resumeChild, State.setThread, hpc] using h.zombie p hp
  case places =>
    have hsame : (s.resumeChild t c).places = s.places := by
      rw [State.resumeChild, places_setThread, places_setThread]
      have hcount : ({ s with threadCount := update s.threadCount c (s.threadCount c + 1) } :
          State).places = s.places := by
        funext k
        cases k <;> rfl
      have hcnil : [] = s.places (.hand c) := by simp [State.places, hunstarted.noThread]
      have htnil : [] = s.places (.hand t) := (places_hand ht).symm
      have hkeep : update s.places (.hand c) [] = s.places := update_eq_self_iff.2 hcnil
      rw [hcount]
      change update (update s.places (.hand c) []) (.hand t) [] = s.places
      rw [hkeep]
      exact update_eq_self_iff.2 htnil
    rw [hsame]
    exact h.places
  case placed => exact h.placed
  case named => exact h.named
  case locked =>
    have hsame : (s.resumeChild t c).locks = s.locks := by
      rw [State.resumeChild, locks_setThread, locks_setThread]
      have hcount : ({ s with threadCount := update s.threadCount c (s.threadCount c + 1) } :
          State).locks = s.locks := rfl
      have hcnil : [] = s.locks c := by simp [State.locks, hunstarted.noThread]
      have htnil : [] = s.locks t := (locks_thread ht).symm
      have hkeep : update s.locks c [] = s.locks := update_eq_self_iff.2 hcnil
      rw [hcount]
      change update (update s.locks c []) t [] = s.locks
      rw [hkeep]
      exact update_eq_self_iff.2 htnil
    rw [hsame]
    exact h.locked
  case progress =>
    intro u thread hu
    by_cases hut : u = t
    · subst hut
      obtain rfl : .user = thread := by simpa [State.resumeChild, State.setThread] using hu
      trivial
    · by_cases huc : u = c
      · subst huc
        obtain rfl : .user = thread := by simpa [State.resumeChild, State.setThread, hct] using hu
        trivial
      · have hu' := hother u thread hut hu huc
        refine (h.progress u thread hu').frame ?_ (fun _ _ _ hc => hc) (fun _ _ hz => hz)
          (List.Subset.refl _) (fun _ _ _ hz => hz)
        intro d hd hdstart
        -- no other thread starts the same process
        have hdc : d ≠ c := by
          rintro rfl
          rcases h.unstarted_place hu' hd with hplace' | hplace'
          · simp [hplace] at hplace'
          · exact hut (Place.list.inj (Option.some.inj (hplace'.symm.trans hplace)))
        refine ⟨hdstart.alive, ?_, hdstart.noExited⟩
        simpa [State.resumeChild, State.setThread, hdc, hdstart.ne ht] using hdstart.noThread
  case stopped => exact h.stopped


/-- The counts of threads and of exited threads of a process change together. -/
theorem recount (h : Inv s place) (hp : s.pidTable p = true) (hzero : p ≠ 0)
    (halive : s.state p = .alive) (hstarted : ¬ s.Unstarted p) {count exited : ℕ}
    (hcount : count = exited + (if (s.threads p).isSome then 1 else 0)) :
    Inv { s with
      threadCount := update s.threadCount p count
      exited := update s.exited p exited } place where
  fresh := h.fresh
  vacant := by
    intro q hq
    have hqp : q ≠ p := by
      rintro rfl
      simp [hp] at hq
    simpa [hqp] using h.vacant q hq
  kernel := by simpa [hzero.symm] using h.kernel
  init := h.init
  reaped := h.reaped
  reapedNodup := h.reapedNodup
  counts := by
    intro q hq
    by_cases hqp : q = p
    · subst hqp
      simpa using hcount
    · simpa [hqp] using h.counts q hq
  zombie := by
    intro q hq
    have hqp : q ≠ p := by
      rintro rfl
      simp [halive] at hq
    simpa [hqp] using h.zombie q hq
  places := by
    have hsame : ({ s with
        threadCount := update s.threadCount p count
        exited := update s.exited p exited } : State).places = s.places := by
      funext k
      cases k <;> rfl
    rw [hsame]
    exact h.places
  placed := h.placed
  named := h.named
  locked := h.locked
  progress := by
    intro u thread hu
    refine (h.progress u thread hu).frame ?_ (fun _ _ _ hc => hc) (fun _ _ hz => hz)
      (List.Subset.refl _) (fun _ _ _ hz => hz)
    intro c _ hc
    have hcp : c ≠ p := by
      rintro rfl
      exact hstarted hc
    refine ⟨hc.alive, hc.noThread, ?_⟩
    simpa [hcp] using hc.noExited
  stopped := h.stopped

theorem exec (h : Inv s place) (ht : s.threads t = some .user) : Inv (s.exec t) place := by
  by_cases hcount : s.threadCount t ≠ 1
  · rw [State.exec, if_pos hcount]
    exact h.stop (by simp)
  · rw [State.exec, if_neg hcount]
    have hcounts := h.counts t (h.ne_zero ht)
    refine h.recount (h.allocated ht) (h.ne_zero ht) (h.alive ht) (fun hc => hc.ne ht rfl) ?_
    rw [hcounts]
    omega

/-! ## Exit -/

theorem exit (h : Inv s place) (ht : s.threads t = some .user) : Inv (s.exit t) place := by
  constructor
  case fresh => exact h.fresh
  case vacant =>
    intro p hp
    have hpt : p ≠ t := by
      rintro rfl
      simp [h.allocated ht, State.exit, State.setThread] at hp
    simpa [State.exit, State.setThread, hpt] using h.vacant p hp
  case kernel =>
    simpa [State.exit, State.setThread, (h.ne_zero ht).symm] using h.kernel
  case init => exact h.init
  case reaped => exact h.reaped
  case reapedNodup => exact h.reapedNodup
  case counts =>
    intro p hp
    have hcount := h.counts p hp
    by_cases hpt : p = t
    · subst hpt
      simpa [State.exit, State.setThread, ht] using hcount
    · simpa [State.exit, State.setThread, hpt] using hcount
  case zombie => exact h.zombie
  case places =>
    have hsame : (s.exit t).places = s.places := by
      have hexited : ({ s with exited := update s.exited t (s.exited t + 1) } : State).places =
          s.places := by
        funext k
        cases k <;> rfl
      rw [State.exit, places_setThread, hexited]
      exact update_eq_self_iff.2 (places_hand ht).symm
    rw [hsame]
    exact h.places
  case placed => exact h.placed
  case named => exact h.named
  case locked =>
    have hsame : (s.exit t).locks = s.locks := by
      rw [State.exit, locks_setThread]
      exact update_eq_self_iff.2 (locks_thread ht).symm
    rw [hsame]
    exact h.locked
  case progress =>
    intro u thread hu
    have hut : u ≠ t := by
      rintro rfl
      simp [State.exit, State.setThread] at hu
    have hu' : s.threads u = some thread := by
      simpa [State.exit, State.setThread, hut] using hu
    refine (h.progress u thread hu').frame ?_ (fun _ _ _ hc => hc) (fun _ _ hz => hz)
      (List.Subset.refl _) (fun _ _ _ hz => hz)
    intro c _ hc
    have hct := hc.ne ht
    refine ⟨hc.alive, ?_, ?_⟩
    · simpa [State.exit, State.setThread, hct] using hc.noThread
    · simpa [State.exit, State.setThread, hct] using hc.noExited
  case stopped => exact h.stopped

theorem setSemaphore (h : Inv s place) (count : ℕ → ℕ) :
    Inv { s with waitSemaphore := count } place where
  fresh := h.fresh
  vacant := h.vacant
  kernel := h.kernel
  init := h.init
  reaped := h.reaped
  reapedNodup := h.reapedNodup
  counts := h.counts
  zombie := h.zombie
  places := by
    have hsame : ({ s with waitSemaphore := count } : State).places = s.places := by
      funext k
      cases k <;> rfl
    rw [hsame]
    exact h.places
  placed := h.placed
  named := h.named
  locked := h.locked
  progress := by
    intro u thread hu
    exact (h.progress u thread hu).frame (fun c _ hc => ⟨hc.1, hc.2, hc.3⟩) (fun _ _ _ hc => hc)
      (fun _ _ hz => hz) (List.Subset.refl _) (fun _ _ _ hz => hz)
  stopped := h.stopped

theorem semaphoreSignal (h : Inv s place) (p : ℕ) : Inv (s.semaphoreSignal p) place := by
  unfold State.semaphoreSignal
  split
  · next req hp => exact h.setThread hp rfl rfl trivial
  · exact h.setSemaphore _

theorem setZombie (h : Inv s place) (hcount : s.threadCount p = 0) (hzero : p ≠ 0) (hone : p ≠ 1)
    (hstarted : ∀ t thread, s.threads t = some thread → thread.unstarted ≠ some p) :
    Inv { s with state := update s.state p .zombie } place where
  fresh := h.fresh
  vacant := h.vacant
  kernel := by simpa [hzero.symm] using h.kernel
  init := by simpa [hone.symm] using h.init
  reaped := h.reaped
  reapedNodup := h.reapedNodup
  counts := h.counts
  zombie := by
    intro q hq
    by_cases hqp : q = p
    · subst hqp
      exact hcount
    · exact h.zombie q (by simpa [hqp] using hq)
  places := by
    have hsame : ({ s with state := update s.state p .zombie } : State).places = s.places := by
      funext k
      cases k <;> rfl
    rw [hsame]
    exact h.places
  placed := h.placed
  named := h.named
  locked := h.locked
  progress := by
    intro u thread hu
    refine (h.progress u thread hu).frame ?_ (fun _ _ _ hc => hc) ?_ (List.Subset.refl _)
      (fun _ _ _ hz => hz)
    · intro c hcstart hc
      have hcp : c ≠ p := by
        rintro rfl
        exact hstarted u thread hu hcstart
      refine ⟨?_, hc.noThread, hc.noExited⟩
      simpa [hcp] using hc.alive
    · intro z _ hz
      by_cases hzp : z = p
      · simp [hzp]
      · simpa [hzp] using hz
  stopped := h.stopped

theorem exists_parent (h : Inv s place) (halive : s.state p = .alive)
    (hzero : p ≠ 0) (hp : s.pidTable p = true) :
    ∃ q, s.parentProcess p = some q ∧ s.pidTable q = true := by
  have hplaced := (h.placed p).2 ⟨hzero, hp⟩
  cases hplace : place p with
  | none => simp [hplace] at hplaced
  | some k =>
    cases k with
    | list q => exact ⟨q, (h.named p q hplace).1, h.pidTable_of_list hplace⟩
    | hand t =>
      have hmem : p ∈ s.places (.hand t) := h.places.mem_list_iff.2 hplace
      cases ht : s.threads t with
      | none => simp [State.places, ht] at hmem
      | some thread =>
        rw [places_hand ht] at hmem
        have hok := h.progress t thread ht
        cases thread with
        | forking child =>
          obtain rfl : p = child := by simpa [Thread.hands] using hmem
          exact ⟨t, hok.2.1, h.allocated ht⟩
        | reaping z =>
          obtain rfl : p = z := by simpa [Thread.hands] using hmem
          simp [Thread.Ok, halive] at hok
        | destroying z =>
          obtain rfl : p = z := by simpa [Thread.hands] using hmem
          simp [Thread.Ok, halive] at hok
        | moving z child =>
          rcases List.mem_pair.1 hmem with rfl | rfl
          · exact ⟨1, hok.2.1, h.init.1⟩
          · simp [Thread.Ok, halive] at hok
        | freeing z =>
          obtain rfl : p = z := by simpa [Thread.hands] using hmem
          simp [Thread.Ok, halive] at hok
        | user => simp [Thread.hands] at hmem
        | inserted child => simp [Thread.hands] at hmem
        | locking req => simp [Thread.hands] at hmem
        | scanning req rest found => simp [Thread.hands] at hmem
        | waitNext req => simp [Thread.hands] at hmem
        | waiting req => simp [Thread.hands] at hmem

theorem kthreadDestroy_cases (h : Inv s place) (hexited : s.exited p ≠ 0) :
    Inv (s.dropThread p) place ∧
      (s.kthreadDestroy p = s.dropThread p ∨
        s.kthreadDestroy p = (s.dropThread p).stop .killInit ∨
        ∃ q, s.parentProcess p = some q ∧
          Inv { s.dropThread p with state := update s.state p .zombie } place ∧
          s.kthreadDestroy p =
            { s.dropThread p with state := update s.state p .zombie }.semaphoreSignal q) := by
  have hzero : p ≠ 0 := by
    rintro rfl
    exact hexited h.kernel.2.2.1
  have hp : s.pidTable p = true := by
    by_contra hp
    rw [Bool.not_eq_true] at hp
    exact hexited (h.vacant p hp).2.1
  have hcounts := h.counts p hzero
  have halive : s.state p = .alive := h.alive_of_count (by omega)
  have hstarted : ¬ s.Unstarted p := fun hc => hexited hc.noExited
  have hdrop : Inv (s.dropThread p) place := h.recount hp hzero halive hstarted (by omega)
  refine ⟨hdrop, ?_⟩
  by_cases hlast : (s.dropThread p).threadCount p = 0
  · rw [State.kthreadDestroy, if_pos hlast, State.becomeZombie]
    by_cases hone : p = 1
    · rw [if_pos hone]
      exact .inr (.inl rfl)
    · obtain ⟨q, hparent, hq⟩ := h.exists_parent halive hzero hp
      have halive' : (s.dropThread p).state p = .alive := halive
      have hparent' : (s.dropThread p).parentProcess p = some q := hparent
      have hq' : (s.dropThread p).pidTable q = true := hq
      rw [if_neg hone, if_neg (by simp [halive'])]
      simp only [hparent', hq', Bool.true_eq_false, if_false]
      refine .inr (.inr ⟨q, hparent, hdrop.setZombie hlast hzero hone ?_, rfl⟩)
      intro t thread ht hc
      have hok := h.progress t thread ht
      rcases Thread.unstarted_eq_some.1 hc with rfl | rfl
      · exact hstarted hok.1
      · exact hstarted hok.1
  · rw [State.kthreadDestroy, if_neg hlast]
    exact .inl rfl

theorem kthreadDestroy (h : Inv s place) (hexited : s.exited p ≠ 0) :
    Inv (s.kthreadDestroy p) place := by
  obtain ⟨hdrop, hs | hs | ⟨q, -, hzombie, hs⟩⟩ := h.kthreadDestroy_cases hexited
  · rw [hs]
    exact hdrop
  · rw [hs]
    exact hdrop.stop (by simp)
  · rw [hs]
    exact hzombie.semaphoreSignal q

/-! ## waitpid -/

theorem waitpid (h : Inv s place) (ht : s.threads t = some .user) (req : Request) :
    Inv (s.waitpid t req) place := by
  unfold State.waitpid
  split
  · exact h
  · exact h.setThread ht rfl rfl trivial

theorem startScan_eq (h : Inv s place) (ht : s.threads t = some (.locking req))
    (hs : s.advance t (.locking req) = some s') : s.childListLock t = none ∧
      s' = { s with childListLock := update s.childListLock t (some t) }.setThread t
        (some (.scanning req (s.childList t) false)) := by
  rw [State.advance] at hs
  rcases State.acquire_eq_some hs with hs' | ⟨howner, -⟩
  · exact hs'
  · exact absurd howner (h.owner_ne ht (by simp [Thread.locks]))

theorem startScan (h : Inv s place) (ht : s.threads t = some (.locking req))
    (hs : s.advance t (.locking req) = some s') : Inv s' place := by
  obtain ⟨howner, rfl⟩ := h.startScan_eq ht hs
  exact h.lock ht rfl howner rfl (List.Subset.refl _)

theorem lookAt (h : Inv s place) (ht : s.threads t = some (.scanning req (c :: rest) found)) :
    ∃ place', Inv (s.lookAt t c req rest found) place' := by
  have hrest : c :: rest ⊆ s.childList t := h.progress t _ ht
  have hplace : place c = some (.list t) := h.place_list (hrest List.mem_cons_self)
  have hc := h.pidTable_of_place hplace
  have hmore : rest ⊆ s.childList t := fun d hd => hrest (List.mem_cons_of_mem c hd)
  rw [State.lookAt, if_neg (by simp [hc.2])]
  split
  · exact ⟨place, h.setThread ht rfl rfl hmore⟩
  · split
    · next hzombie =>
      exact ⟨_, h.take ht (.reaping c) s.parentProcess s.ppid rfl rfl hplace (.inl rfl)
        (fun _ _ => rfl) (fun _ _ => rfl) hzombie⟩
    · exact ⟨place, h.setThread ht rfl rfl hmore⟩

theorem endScan_eq (h : Inv s place) (ht : s.threads t = some (.scanning req [] found)) :
    s.endScan t req found =
      { s with childListLock := update s.childListLock t none }.setThread t
        (some (if found = false ∨ req.nohang = true then .user else .waitNext req)) := by
  have howner := h.owner_eq ht (p := t) (by simp [Thread.locks])
  rw [State.endScan, State.release, if_pos howner]
  split <;> rfl

theorem endScan (h : Inv s place) (ht : s.threads t = some (.scanning req [] found)) :
    Inv (s.endScan t req found) place := by
  rw [h.endScan_eq ht]
  split
  · exact h.unlock ht rfl rfl trivial
  · exact h.unlock ht rfl rfl trivial

theorem schedWait (h : Inv s place) (ht : s.threads t = some (.waitNext req)) :
    Inv (s.schedWait t req) place := by
  unfold State.schedWait
  split
  · exact h.setThread ht rfl rfl trivial
  · exact (h.setSemaphore _).setThread ht rfl rfl trivial

/-! ## process_destroy -/

theorem lockZombie_eq (h : Inv s place) (ht : s.threads t = some (.reaping z))
    (hs : s.lockZombie t z = some s') : s.childListLock z = none ∧
      s' = { s with childListLock := update s.childListLock z (some t) }.setThread t
        (some (.destroying z)) := by
  have hzombie : s.state z = .zombie := h.progress t _ ht
  have hzt : z ≠ t := h.zombie_ne hzombie ht
  have hz := h.pidTable_of_place (h.place_hand ht (c := z) (by simp [Thread.hands]))
  rw [State.lockZombie, if_neg (by simp [hz.1, h.zombie_ne_one hzombie]),
    if_neg (by simp [h.init.1])] at hs
  rcases State.acquire_eq_some hs with hs' | ⟨howner, -⟩
  · exact hs'
  · exact absurd howner (h.owner_ne ht (by simp [Thread.locks, hzt]))

theorem lockZombie (h : Inv s place) (ht : s.threads t = some (.reaping z))
    (hs : s.lockZombie t z = some s') : Inv s' place := by
  have hzombie : s.state z = .zombie := h.progress t _ ht
  obtain ⟨howner, rfl⟩ := h.lockZombie_eq ht hs
  exact h.lock ht rfl howner rfl hzombie

theorem destroyChild_nil_eq (h : Inv s place) (ht : s.threads t = some (.destroying z))
    (hchildren : s.childList z = []) : s.destroyChild t z =
      { s with childListLock := update s.childListLock z none }.setThread t
        (some (.freeing z)) := by
  have howner := h.owner_eq ht (p := z) (by simp [Thread.locks])
  rw [State.destroyChild, hchildren]
  simp only [State.release, howner, if_true]

theorem destroyChild (h : Inv s place) (ht : s.threads t = some (.destroying z)) :
    ∃ place', Inv (s.destroyChild t z) place' := by
  have hzombie : s.state z = .zombie := h.progress t _ ht
  cases hchildren : s.childList z with
  | cons child rest =>
    have hplace : place child = some (.list z) := h.place_list (by simp [hchildren])
    have herase : (s.childList z).erase child = rest := by
      rw [hchildren, List.erase_cons_head]
    have htake := h.take ht (.moving z child) (update s.parentProcess child (some 1))
      (update s.ppid child 1) rfl rfl hplace (.inr (h.threads_of_zombie hzombie).1)
      (fun d hd => update_of_ne hd ..) (fun d hd => update_of_ne hd ..)
      ⟨hzombie, update_self .., update_self ..⟩
    rw [herase] at htake
    rw [State.destroyChild, hchildren]
    exact ⟨_, htake⟩
  | nil =>
    rw [h.destroyChild_nil_eq ht hchildren]
    exact ⟨place, h.unlock ht rfl rfl ⟨hzombie, hchildren⟩⟩

/-- **The lock of init.** Only init itself can have it when it puts a child on its own list. -/
theorem giveToInit_eq (h : Inv s place) (ht : s.threads t = some (.moving z c))
    (hs : s.giveToInit t z c = some s') :
    s' = (s.setChildList 1 (c :: s.childList 1)).setThread t (some (.destroying z)) ∨
      (t = 1 ∧ s' = s.stop .ownLock) := by
  obtain ⟨hzombie, -⟩ := h.progress t _ ht
  rcases State.guarded_eq_some hs with ⟨-, hs'⟩ | ⟨howner, hs'⟩
  · exact .inl hs'
  · refine .inr ⟨?_, hs'⟩
    by_contra hne
    refine h.owner_ne ht ?_ howner
    simp [Thread.locks, (h.zombie_ne_one hzombie).symm, Ne.symm hne]

theorem giveToInit (h : Inv s place) (ht : s.threads t = some (.moving z c))
    (hs : s.giveToInit t z c = some s') : ∃ place', Inv s' place' := by
  obtain ⟨hzombie, hnamed⟩ := h.progress t _ ht
  rcases h.giveToInit_eq ht hs with rfl | ⟨-, rfl⟩
  · exact ⟨_, h.put ht rfl rfl hnamed h.init.1 h.init.2 hzombie⟩
  · exact ⟨place, h.stop (by simp)⟩

theorem free_eq (h : Inv s place) (ht : s.threads t = some (.freeing z)) :
    s.free t z = { s with
      pidTable := update s.pidTable z false
      reaped := z :: s.reaped
      childListLock := update s.childListLock t none }.setThread t (some .user) := by
  obtain ⟨-, hempty⟩ := h.progress t _ ht
  have howner : s.childListLock t = some t := h.owner_eq ht (by simp [Thread.locks])
  simp only [State.free, State.release, hempty, howner, ne_eq, not_true_eq_false, if_true,
    if_false]

theorem free (h : Inv s place) (ht : s.threads t = some (.freeing z)) :
    Inv (s.free t z) (update place z none) := by
  obtain ⟨hzombie, hempty⟩ := h.progress t _ ht
  have hplace : place z = some (.hand t) := h.place_hand ht (by simp [Thread.hands])
  obtain ⟨hzero, hz⟩ := h.pidTable_of_place hplace
  have hzt : z ≠ t := h.zombie_ne hzombie ht
  have hzone : z ≠ 1 := h.zombie_ne_one hzombie
  have howner : s.childListLock t = some t := h.owner_eq ht (by simp [Thread.locks])
  rw [h.free_eq ht]
  have hother : ∀ u thread, u ≠ t → s.threads u = some thread →
      z ∉ thread.hands := by
    intro u thread hut hu hmem
    have hplace' := h.place_hand hu hmem
    rw [hplace] at hplace'
    exact hut (Place.hand.inj (Option.some.inj hplace')).symm
  constructor
  case fresh =>
    intro p hp
    by_cases hpz : p = z
    · simp [hpz, State.setThread]
    · simpa [State.setThread, hpz] using h.fresh p hp
  case vacant =>
    intro p hp
    by_cases hpz : p = z
    · subst hpz
      obtain ⟨hnoThread, hnoExited⟩ := h.threads_of_zombie hzombie
      simpa [State.setThread, hzt] using ⟨hnoThread, hnoExited, hempty⟩
    · have hvacant : s.pidTable p = false := by simpa [State.setThread, hpz] using hp
      have hpt : p ≠ t := by
        rintro rfl
        simp [h.allocated ht] at hvacant
      simpa [State.setThread, hpt] using h.vacant p hvacant
  case kernel =>
    simpa [State.setThread, hzero.symm, (h.ne_zero ht).symm] using h.kernel
  case init => simpa [State.setThread, hzone.symm] using h.init
  case reaped =>
    intro p
    by_cases hpz : p = z
    · subst hpz
      have hlt : p < s.nextPid := by
        by_contra hge
        simp [h.fresh p (Nat.le_of_not_lt hge)] at hz
      simp [State.setThread, hlt]
    · simpa [State.setThread, hpz] using h.reaped p
  case reapedNodup =>
    have hnot : z ∉ s.reaped := by
      rw [h.reaped z]
      simp [hz]
    exact List.nodup_cons.2 ⟨hnot, h.reapedNodup⟩
  case counts =>
    intro p hp
    have hcount := h.counts p hp
    by_cases hpt : p = t
    · subst hpt
      simpa [State.setThread, ht] using hcount
    · simpa [State.setThread, hpt] using hcount
  case zombie => exact h.zombie
  case places =>
    have hremove := h.places.remove hplace
    rw [places_hand ht] at hremove
    rw [places_setThread]
    have hsame : ({ s with
        pidTable := update s.pidTable z false
        reaped := z :: s.reaped
        childListLock := update s.childListLock t none } : State).places = s.places := by
      funext k
      cases k <;> rfl
    rw [hsame]
    simpa [Thread.hands] using hremove
  case placed =>
    intro p
    by_cases hpz : p = z
    · simp [hpz, State.setThread]
    · simpa [State.setThread, hpz] using h.placed p
  case named =>
    intro p q hp
    have hpz : p ≠ z := by
      rintro rfl
      simp at hp
    rw [update_of_ne hpz] at hp
    exact h.named p q hp
  case locked =>
    have hremove := h.locked.remove howner
    rw [locks_thread ht, show Thread.locks t (.freeing z) = [t] from rfl,
      List.erase_cons_head] at hremove
    rw [locks_setThread]
    exact hremove
  case progress =>
    intro u thread hu
    by_cases hut : u = t
    · subst hut
      obtain rfl : .user = thread := by simpa [State.setThread] using hu
      trivial
    · have hu' : s.threads u = some thread := by simpa [State.setThread, hut] using hu
      refine (h.progress u thread hu').frame ?_ (fun _ _ _ hc => hc) (fun _ _ hz => hz)
        (List.Subset.refl _) (fun _ _ _ hz => hz)
      intro c _ hc
      refine ⟨hc.alive, ?_, hc.noExited⟩
      simpa [State.setThread, hc.ne ht] using hc.noThread
  case stopped => exact h.stopped

/-! ## All steps -/

theorem advanceThread (h : Inv s place) (ht : s.threads t = some thread)
    (hs : s.advance t thread = some s') : ∃ place', Inv s' place' := by
  cases thread with
  | user => simp [State.advance] at hs
  | forking child => exact h.insertChild ht hs
  | inserted child =>
    obtain rfl : s.resumeChild t child = s' := by simpa [State.advance] using hs
    exact ⟨place, h.resumeChild ht⟩
  | locking req => exact ⟨place, h.startScan ht hs⟩
  | scanning req rest found =>
    cases rest with
    | nil =>
      obtain rfl : s.endScan t req found = s' := by simpa [State.advance] using hs
      exact ⟨place, h.endScan ht⟩
    | cons child rest =>
      obtain rfl : s.lookAt t child req rest found = s' := by simpa [State.advance] using hs
      exact h.lookAt ht
  | waitNext req =>
    obtain rfl : s.schedWait t req = s' := by simpa [State.advance] using hs
    exact ⟨place, h.schedWait ht⟩
  | waiting req => simp [State.advance] at hs
  | reaping z => exact ⟨place, h.lockZombie ht hs⟩
  | destroying z =>
    obtain rfl : s.destroyChild t z = s' := by simpa [State.advance] using hs
    exact h.destroyChild ht
  | moving z child => exact h.giveToInit ht hs
  | freeing z =>
    obtain rfl : s.free t z = s' := by simpa [State.advance] using hs
    exact ⟨_, h.free ht⟩

end Inv

/-- Every process has a place. -/
def WellFormed (s : State) : Prop := ∃ place, Inv s place

/-- **Step lemma.** Every step keeps the invariant. -/
theorem step_wellFormed (h : WellFormed s) {e : Event} (hs : step s e = some s') :
    WellFormed s' := by
  obtain ⟨place, h⟩ := h
  unfold step at hs
  split at hs
  · simp at hs
  · cases e with
    | fork t =>
      by_cases ht : s.threads t = some .user
      · obtain rfl : s.fork t = s' := by simpa [ht] using hs
        exact ⟨_, h.fork ht⟩
      · simp [ht] at hs
    | exec t =>
      by_cases ht : s.threads t = some .user
      · obtain rfl : s.exec t = s' := by simpa [ht] using hs
        exact ⟨place, h.exec ht⟩
      · simp [ht] at hs
    | exit t =>
      by_cases ht : s.threads t = some .user
      · obtain rfl : s.exit t = s' := by simpa [ht] using hs
        exact ⟨place, h.exit ht⟩
      · simp [ht] at hs
    | waitpid t req =>
      by_cases ht : s.threads t = some .user
      · obtain rfl : s.waitpid t req = s' := by simpa [ht] using hs
        exact ⟨place, h.waitpid ht req⟩
      · simp [ht] at hs
    | kthreadDestroy p =>
      by_cases hexited : s.exited p = 0
      · simp [hexited] at hs
      · obtain rfl : s.kthreadDestroy p = s' := by simpa [hexited] using hs
        exact ⟨place, h.kthreadDestroy hexited⟩
    | run t =>
      obtain ⟨thread, ht, hadvance⟩ := Option.bind_eq_some_iff.1 hs
      exact h.advanceThread ht hadvance

theorem boot_inv : Inv boot (fun c => if c = 1 then some (.list 0) else none) where
  fresh := by
    intro p hp
    have hp' : 2 ≤ p := hp
    have hzero : p ≠ 0 := by omega
    have hone : p ≠ 1 := by omega
    simp [boot, hzero, hone]
  vacant := by
    intro p hp
    have hne : p ≠ 0 ∧ p ≠ 1 := by simpa [boot] using hp
    simp [boot, hne.1, hne.2]
  kernel := by simp [boot]
  init := by simp [boot]
  reaped := by
    intro p
    simp only [boot, List.not_mem_nil, false_iff, not_and, Bool.not_eq_false, Bool.or_eq_true,
      beq_iff_eq]
    omega
  reapedNodup := List.nodup_nil
  counts := by
    intro p _
    by_cases hone : p = 1
    · simp [boot, hone]
    · simp [boot, hone]
  zombie := by simp [boot]
  places := by
    constructor
    · intro k r hr
      obtain rfl : boot.places k = r := by simpa using hr
      cases k with
      | list p => by_cases hp : p = 0 <;> simp [State.places, boot, hp]
      | hand t => by_cases ht : t = 1 <;> simp [State.places, boot, ht, Thread.hands]
    · intro k r hr c
      obtain rfl : boot.places k = r := by simpa using hr
      cases k with
      | list p => by_cases hp : p = 0 <;> simp [State.places, boot, hp, Ne.symm]
      | hand t => by_cases ht : t = 1 <;> simp [State.places, boot, ht, Thread.hands]
    · exact fun _ k _ => ⟨_, rfl⟩
  placed := by
    intro c
    by_cases hc : c = 1
    · simp [boot, hc]
    · simp [boot, hc]
  named := by
    intro c p hp
    by_cases hc : c = 1
    · obtain rfl : 0 = p := by simpa [hc] using hp
      simp [State.Named, boot, hc]
    · simp [hc] at hp
  locked := by
    constructor
    · intro t r hr
      obtain rfl : boot.locks t = r := by simpa using hr
      by_cases ht : t = 1 <;> simp [State.locks, boot, ht, Thread.locks]
    · intro t r hr p
      obtain rfl : boot.locks t = r := by simpa using hr
      by_cases ht : t = 1 <;> simp [State.locks, boot, ht, Thread.locks]
    · exact fun _ t _ => ⟨_, rfl⟩
  progress := by
    intro t thread ht
    by_cases hone : t = 1
    · obtain rfl : .user = thread := by simpa [boot, hone] using ht
      trivial
    · simp [boot, hone] at ht
  stopped := by simp [boot]

end ProcTree
