/-
# Reaping

A process is on the list of its parent, or a thread has taken it from there; a process goes when it
is reaped, once.  Init reaps a zombie that has children by locking its own list twice, which stops
the kernel; in the runs in which init leaves such zombies alone, no lock is taken twice.
-/
import YakKernel.ProcTreeSteps

namespace ProcTree

open Function TransitionSystem

variable {s s' : State} {place : ℕ → Option Place} {t c z : ℕ} {thread thread' : Thread}
  {req : Request} {rest : List ℕ} {found : Bool}

/-! ## What is to hold -/

/-- A thread has taken the process from a list, or has not put it on one yet. -/
def State.InTransit (s : State) (c : ℕ) : Prop :=
  ∃ t thread, s.threads t = some thread ∧ c ∈ thread.hands

/-- The thread is between `LIST_REMOVE` of the zombie and the return of `sys_waitpid`. -/
def Thread.Reaps (z : ℕ) : Thread → Prop
  | .reaping z' => z' = z
  | .destroying z' => z' = z
  | .moving z' _ => z' = z
  | .freeing z' => z' = z
  | _ => False

/-- **Safe reaping.** -/
structure Safe (s : State) : Prop where
  /-- No thread has tried to take a lock that it has. -/
  lock : s.halt ≠ some .ownLock
  /-- A process that no thread has in its hands is on exactly one list, -/
  oneList : ∀ c, c ≠ 0 → s.pidTable c = true → ¬ s.InTransit c → ∃! p, c ∈ s.childList p
  /-- there once, -/
  once : ∀ p, (s.childList p).Nodup
  /-- and the others are on none. -/
  transit : ∀ c, s.InTransit c → ∀ p, c ∉ s.childList p
  /-- The owner of the list is the parent. -/
  parent : ∀ c p, c ∈ s.childList p →
    s.pidTable c = true ∧ s.parentProcess c = some p ∧ s.ppid c = p
  /-- What is reaped is a zombie, and one thread reaps it. -/
  reaper : ∀ t thread z, s.threads t = some thread → thread.Reaps z →
    s.state z = .zombie ∧ ∀ u thread', s.threads u = some thread' → thread'.Reaps z → u = t
  /-- The pids that are gone are those that have been reaped, once each. -/
  reaped : s.reaped.Nodup ∧ ∀ p, p ∈ s.reaped ↔ p < s.nextPid ∧ s.pidTable p = false

/-! ## What holds in every run -/

theorem Thread.Reaps.mem_hands (h : thread.Reaps z) : z ∈ thread.hands := by
  cases thread <;> simp_all [Thread.Reaps, Thread.hands]

theorem Inv.zombie_of_reaps (h : Inv s place) (ht : s.threads t = some thread)
    (hz : thread.Reaps z) : s.state z = .zombie := by
  have hok := h.progress t thread ht
  cases thread with
  | reaping z' =>
    obtain rfl : z' = z := hz
    exact hok
  | destroying z' =>
    obtain rfl : z' = z := hz
    exact hok
  | moving z' child =>
    obtain rfl : z' = z := hz
    exact hok.1
  | freeing z' =>
    obtain rfl : z' = z := hz
    exact hok.1
  | user => exact hz.elim
  | forking child => exact hz.elim
  | inserted child => exact hz.elim
  | locking req => exact hz.elim
  | scanning req rest found => exact hz.elim
  | waitNext req => exact hz.elim
  | waiting req => exact hz.elim

theorem Inv.inTransit_iff (h : Inv s place) : s.InTransit c ↔ ∃ t, place c = some (.hand t) := by
  constructor
  · rintro ⟨t, thread, ht, hc⟩
    exact ⟨t, h.place_hand ht hc⟩
  · rintro ⟨t, hc⟩
    have hmem : c ∈ s.places (.hand t) := h.places.mem_list_iff.2 hc
    cases ht : s.threads t with
    | none => simp [State.places, ht] at hmem
    | some thread =>
      rw [places_hand ht] at hmem
      exact ⟨t, thread, ht, hmem⟩

theorem Inv.safe (h : Inv s place) (hlock : s.halt ≠ some .ownLock) : Safe s where
  lock := hlock
  oneList := by
    intro c hzero hc htransit
    have hplaced := (h.placed c).2 ⟨hzero, hc⟩
    cases hplace : place c with
    | none => simp [hplace] at hplaced
    | some k =>
      cases k with
      | hand t => exact absurd (h.inTransit_iff.2 ⟨t, hplace⟩) htransit
      | list p =>
        refine ⟨p, h.mem_childList hplace, ?_⟩
        intro q hq
        have hplace' := h.place_list hq
        rw [hplace] at hplace'
        exact (Place.list.inj (Option.some.inj hplace')).symm
  once := fun p => h.places.nodup_list (.list p)
  transit := by
    intro c htransit p hc
    obtain ⟨t, hplace⟩ := h.inTransit_iff.1 htransit
    simp [h.place_list hc] at hplace
  parent := by
    intro c p hc
    have hplace := h.place_list hc
    exact ⟨(h.pidTable_of_place hplace).2, h.named c p hplace⟩
  reaper := by
    intro t thread z ht hz
    refine ⟨h.zombie_of_reaps ht hz, ?_⟩
    intro u thread' hu hz'
    have hplace := h.place_hand ht hz.mem_hands
    rw [h.place_hand hu hz'.mem_hands] at hplace
    exact Place.hand.inj (Option.some.inj hplace)
  reaped := ⟨h.reapedNodup, h.reaped⟩

/-! ## The runs in which init reaps zombies without children -/

/-- The zombie that the thread takes from its list next. -/
def State.picks (s : State) (t : ℕ) : Option ℕ :=
  match s.threads t with
  | some (.scanning req (child :: _) _) =>
    if req.accepts child = true ∧ s.state child = .zombie then some child else none
  | _ => none

/-- Init does not take a zombie that has children. -/
def Careful (s : State) (e : Event) : Prop := e = .run 1 → ∀ z ∈ s.picks 1, s.childList z = []

instance (s : State) (e : Event) : Decidable (Careful s e) :=
  inferInstanceAs (Decidable (e = .run 1 → ∀ z ∈ s.picks 1, s.childList z = []))

/-- The thread of init has no zombie with children in its hands. -/
def Thread.Clean (s : State) : Thread → Prop
  | .reaping z => s.childList z = []
  | .destroying z => s.childList z = []
  | .moving _ _ => False
  | _ => True

structure Clean (s : State) : Prop where
  lock : s.halt ≠ some .ownLock
  init : ∀ thread, s.threads 1 = some thread → thread.Clean s

namespace Clean

theorem frame (h : Clean s) (hinv : Inv s place) (hhalt : s'.halt ≠ some .ownLock)
    (hthread : s'.threads 1 = s.threads 1)
    (hlist : ∀ z, s.state z = .zombie → s.childList z = [] → s'.childList z = []) :
    Clean s' where
  lock := hhalt
  init := by
    intro thread ht
    rw [hthread] at ht
    have hclean := h.init thread ht
    have hok := hinv.progress 1 thread ht
    cases thread with
    | reaping z => exact hlist z hok hclean
    | destroying z => exact hlist z hok hclean
    | moving z child => exact hclean.elim
    | user => trivial
    | forking child => trivial
    | inserted child => trivial
    | locking req => trivial
    | scanning req rest found => trivial
    | waitNext req => trivial
    | waiting req => trivial
    | freeing z => trivial

theorem of_thread (hhalt : s'.halt ≠ some .ownLock) (hthread : s'.threads 1 = some thread)
    (hclean : thread.Clean s') : Clean s' where
  lock := hhalt
  init := by
    intro thread' ht
    rw [hthread, Option.some.injEq] at ht
    rw [← ht]
    exact hclean

theorem setThread (h : Clean s) (hinv : Inv s place) (hhalt : s'.halt = s.halt)
    (hthreads : s'.threads = update s.threads t (some thread))
    (hlist : ∀ z, s.state z = .zombie → s.childList z = [] → s'.childList z = [])
    (hclean : t = 1 → thread.Clean s') : Clean s' := by
  have hlock : s'.halt ≠ some .ownLock := by
    rw [hhalt]
    exact h.lock
  by_cases ht : t = 1
  · subst ht
    exact of_thread hlock (by rw [hthreads, update_self]) (hclean rfl)
  · refine h.frame hinv hlock ?_ hlist
    rw [hthreads, update_of_ne (Ne.symm ht)]

/-! ## The steps -/

theorem exec (h : Clean s) (hinv : Inv s place) (t : ℕ) : Clean (s.exec t) := by
  unfold State.exec
  split
  · exact h.frame hinv (by simp [State.stop]) rfl (fun _ _ hz => hz)
  · exact h.frame hinv h.lock rfl (fun _ _ hz => hz)

theorem semaphoreSignal (h : Clean s) (hinv : Inv s place) (p : ℕ) :
    Clean (s.semaphoreSignal p) := by
  unfold State.semaphoreSignal
  split
  · exact h.setThread hinv rfl rfl (fun _ _ hz => hz) (fun _ => trivial)
  · exact h.frame hinv h.lock rfl (fun _ _ hz => hz)

theorem kthreadDestroy (h : Clean s) (hinv : Inv s place) {p : ℕ} (hexited : s.exited p ≠ 0) :
    Clean (s.kthreadDestroy p) := by
  have hdrop : Clean (s.dropThread p) := h.frame hinv h.lock rfl (fun _ _ hz => hz)
  obtain ⟨hdropInv, hs | hs | ⟨q, -, hzombieInv, hs⟩⟩ := hinv.kthreadDestroy_cases hexited
  · rw [hs]
    exact hdrop
  · rw [hs]
    exact hdrop.frame hdropInv (by simp [State.stop]) rfl (fun _ _ hz => hz)
  · rw [hs]
    apply semaphoreSignal _ hzombieInv
    exact h.frame hinv h.lock rfl (fun _ _ hz => hz)

theorem resumeChild (h : Clean s) (hinv : Inv s place) (ht : s.threads t = some (.inserted c)) :
    Clean (s.resumeChild t c) := by
  have hlock : (s.resumeChild t c).halt ≠ some .ownLock := h.lock
  by_cases hone : 1 = t ∨ 1 = c
  · have huser : (s.resumeChild t c).threads 1 = some .user := by
      rcases hone with rfl | rfl
      · simp [State.resumeChild, State.setThread]
      · simp [State.resumeChild, State.setThread, Function.update_apply]
    exact of_thread hlock huser trivial
  · obtain ⟨htone, hcone⟩ := not_or.1 hone
    refine h.frame hinv hlock ?_ (fun _ _ hz => hz)
    simp [State.resumeChild, State.setThread, htone, hcone]

theorem childList_cons {p : ℕ} (hp : s.state p = .alive) (hz : s.state z = .zombie)
    (hempty : s.childList z = []) :
    (s.setChildList p (c :: s.childList p)).childList z = [] := by
  have hne : z ≠ p := by
    rintro rfl
    simp [hp] at hz
  simpa [State.setChildList, hne] using hempty

theorem childList_erase (p : ℕ) (hempty : s.childList z = []) :
    (s.setChildList p ((s.childList p).erase c)).childList z = [] := by
  by_cases hne : z = p
  · simp [State.setChildList, ← hne, hempty]
  · simpa [State.setChildList, hne] using hempty

theorem lookAt (h : Clean s) (hinv : Inv s place)
    (ht : s.threads t = some (.scanning req (c :: rest) found))
    (hcareful : Careful s (.run t)) : Clean (s.lookAt t c req rest found) := by
  unfold State.lookAt
  split
  · exact h.frame hinv (by simp [State.stop]) rfl (fun _ _ hz => hz)
  · split
    · exact h.setThread hinv rfl rfl (fun _ _ hz => hz) (fun _ => trivial)
    · next haccepts =>
      split
      · next hzombie =>
        refine h.setThread hinv rfl rfl (fun z _ hz => childList_erase t hz) ?_
        rintro rfl
        have hpicks : c ∈ s.picks 1 := by simp [State.picks, ht, hzombie, haccepts]
        exact childList_erase 1 (hcareful rfl c hpicks)
      · exact h.setThread hinv rfl rfl (fun _ _ hz => hz) (fun _ => trivial)

theorem schedWait (h : Clean s) (hinv : Inv s place) : Clean (s.schedWait t req) := by
  unfold State.schedWait
  split
  · exact h.setThread hinv rfl rfl (fun _ _ hz => hz) (fun _ => trivial)
  · exact h.setThread hinv rfl rfl (fun _ _ hz => hz) (fun _ => trivial)

theorem destroyChild (h : Clean s) (hinv : Inv s place)
    (ht : s.threads t = some (.destroying z)) : Clean (s.destroyChild t z) := by
  cases hchildren : s.childList z with
  | nil =>
    rw [hinv.destroyChild_nil_eq ht hchildren]
    exact h.setThread hinv rfl rfl (fun _ _ hz => hz) (fun _ => trivial)
  | cons child rest =>
    rw [State.destroyChild, hchildren]
    have herase : (s.childList z).erase child = rest := by
      rw [hchildren, List.erase_cons_head]
    refine h.setThread hinv rfl rfl ?_ ?_
    · intro z' _ hempty
      rw [← herase]
      exact childList_erase z hempty
    · rintro rfl
      have hclean : s.childList z = [] := h.init _ ht
      simp [hchildren] at hclean

theorem advanceThread (h : Clean s) (hinv : Inv s place) (ht : s.threads t = some thread)
    (hcareful : Careful s (.run t)) (hs : s.advance t thread = some s') : Clean s' := by
  cases thread with
  | user => simp [State.advance] at hs
  | forking child =>
    rw [hinv.insertChild_eq ht hs]
    exact h.setThread hinv rfl rfl (fun z hz hempty => childList_cons (hinv.alive ht) hz hempty)
      (fun _ => trivial)
  | inserted child =>
    obtain rfl : s.resumeChild t child = s' := by simpa [State.advance] using hs
    exact h.resumeChild hinv ht
  | locking req =>
    rw [(hinv.startScan_eq ht hs).2]
    exact h.setThread hinv rfl rfl (fun _ _ hz => hz) (fun _ => trivial)
  | scanning req rest found =>
    cases rest with
    | nil =>
      obtain rfl : s.endScan t req found = s' := by simpa [State.advance] using hs
      rw [hinv.endScan_eq ht]
      refine h.setThread hinv rfl rfl (fun _ _ hz => hz) (fun _ => ?_)
      split <;> trivial
    | cons child rest =>
      obtain rfl : s.lookAt t child req rest found = s' := by simpa [State.advance] using hs
      exact h.lookAt hinv ht hcareful
  | waitNext req =>
    obtain rfl : s.schedWait t req = s' := by simpa [State.advance] using hs
    exact h.schedWait hinv
  | waiting req => simp [State.advance] at hs
  | reaping z =>
    rw [(hinv.lockZombie_eq ht hs).2]
    refine h.setThread hinv rfl rfl (fun _ _ hz => hz) ?_
    rintro rfl
    exact h.init _ ht
  | destroying z =>
    obtain rfl : s.destroyChild t z = s' := by simpa [State.advance] using hs
    exact h.destroyChild hinv ht
  | moving z child =>
    rcases hinv.giveToInit_eq ht hs with rfl | ⟨rfl, -⟩
    · refine h.setThread hinv rfl rfl
        (fun z hz hempty => childList_cons hinv.init.2 hz hempty) ?_
      rintro rfl
      exact (h.init _ ht).elim
    · exact (h.init _ ht).elim
  | freeing z =>
    obtain rfl : s.free t z = s' := by simpa [State.advance] using hs
    rw [hinv.free_eq ht]
    exact h.setThread hinv rfl rfl (fun _ _ hz => hz) (fun _ => trivial)

end Clean

/-- **Step lemma.** -/
theorem step_clean (h : Clean s) (hinv : Inv s place) {e : Event} (hcareful : Careful s e)
    (hs : step s e = some s') : Clean s' := by
  unfold step at hs
  split at hs
  · simp at hs
  · cases e with
    | fork t =>
      by_cases ht : s.threads t = some .user
      · obtain rfl : s.fork t = s' := by simpa [ht] using hs
        refine h.setThread hinv rfl rfl ?_ (fun _ => trivial)
        intro z _ hempty
        by_cases hz : z = s.nextPid
        · simp [hz, State.fork, State.setThread, State.uprocessInit]
        · simpa [hz, State.fork, State.setThread, State.uprocessInit] using hempty
      · simp [ht] at hs
    | exec t =>
      by_cases ht : s.threads t = some .user
      · obtain rfl : s.exec t = s' := by simpa [ht] using hs
        exact h.exec hinv t
      · simp [ht] at hs
    | exit t =>
      by_cases ht : s.threads t = some .user
      · obtain rfl : s.exit t = s' := by simpa [ht] using hs
        by_cases hone : t = 1
        · refine ⟨h.lock, fun thread hthread => ?_⟩
          simp [hone, State.exit, State.setThread] at hthread
        · refine h.frame hinv h.lock ?_ (fun _ _ hz => hz)
          simp [State.exit, State.setThread, Ne.symm hone]
      · simp [ht] at hs
    | waitpid t req =>
      by_cases ht : s.threads t = some .user
      · obtain rfl : s.waitpid t req = s' := by simpa [ht] using hs
        unfold State.waitpid
        split
        · exact h
        · exact h.setThread hinv rfl rfl (fun _ _ hz => hz) (fun _ => trivial)
      · simp [ht] at hs
    | kthreadDestroy p =>
      by_cases hexited : s.exited p = 0
      · simp [hexited] at hs
      · obtain rfl : s.kthreadDestroy p = s' := by simpa [hexited] using hs
        exact h.kthreadDestroy hinv hexited
    | run t =>
      obtain ⟨thread, ht, hadvance⟩ := Option.bind_eq_some_iff.1 hs
      exact h.advanceThread hinv ht hcareful hadvance

/-- **Reaping is safe.** In every run in which init leaves the zombies with children alone, no
thread takes a lock that it has, every process is on the list of its parent, and what is gone has
been reaped once. -/
theorem reaping_safe (h : system.ReachableUnder Careful s) : Safe s := by
  have hclean : WellFormed s ∧ Clean s := by
    apply h.invariant
    · rintro s rfl
      refine ⟨⟨_, boot_inv⟩, by simp [boot], ?_⟩
      intro thread ht
      obtain rfl : .user = thread := by simpa [boot] using ht
      trivial
    · rintro s e s' ⟨hinv, hclean⟩ hcareful hs
      obtain ⟨place, hplace⟩ := hinv
      exact ⟨step_wellFormed ⟨place, hplace⟩ hs, step_clean hclean hplace hcareful hs⟩
  obtain ⟨⟨place, hinv⟩, hclean⟩ := hclean
  exact hinv.safe hclean.lock

/-! ## Two runs -/

/-- A fork that goes through. -/
def forks (t : ℕ) : List Event := [.fork t, .run t, .run t]

/-- The only thread of a process ends. -/
def exits (t : ℕ) : List Event := [.exit t, .kthreadDestroy t]

/-- `sys_waitpid` with `-1`, and then `n` steps. -/
def waits (t n : ℕ) : List Event := .waitpid t ⟨-1, false⟩ :: List.replicate n (.run t)

/-- Process 3 has a child when its parent reaps it, and init reaps the child. -/
theorem reaping_safe_two : ∃ s, s.reaped = [4, 3] ∧ Safe s := by
  have hrun : ∃ s, system.ReachableUnder Careful s ∧ decide (s.reaped = [4, 3]) = true :=
    exists_reachableUnder_of_runUnder (show system.init boot from rfl)
      (forks 1 ++ forks 2 ++ forks 3 ++ exits 3 ++ waits 2 7 ++ exits 4 ++ waits 1 5) _
      (by decide +kernel)
  obtain ⟨s, hs, hreaped⟩ := hrun
  exact ⟨s, of_decide_eq_true hreaped, reaping_safe hs⟩

/-- **Init locks its list twice.** Init forks 2 and 2 forks 3; 2 exits, and init reaps it. -/
theorem init_locks_twice : ∃ s, system.Reachable s ∧ s.threads 1 = some (.moving 2 3) ∧
    s.childListLock 1 = some 1 ∧ s.halt = some .ownLock ∧ ¬ Safe s := by
  have hrun : ∃ s, system.Reachable s ∧ decide (s.threads 1 = some (.moving 2 3) ∧
      s.childListLock 1 = some 1 ∧ s.halt = some .ownLock) = true :=
    exists_reachable_of_run (show system.init boot from rfl)
      (forks 1 ++ forks 2 ++ exits 2 ++ waits 1 5) _ (by decide +kernel)
  obtain ⟨s, hs, hend⟩ := hrun
  obtain ⟨hthread, hlock, hhalt⟩ := of_decide_eq_true hend
  exact ⟨s, hs, hthread, hlock, hhalt, fun hsafe => hsafe.lock hhalt⟩

end ProcTree
