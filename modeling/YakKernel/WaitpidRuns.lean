/-
# Waiting for a child

A parent that blocks in `sys_waitpid` has looked at all of its children, and the signal of each that
has become a zombie since is still in its `wait_semaphore`.  A zombie that init gets from
`process_destroy` brings no signal with it; in the runs in which init gets no such zombie while it
waits for one, no parent blocks in vain.
-/
import YakKernel.ProcTreeRuns

namespace ProcTree

open Function TransitionSystem

variable {s s' : State} {place : ℕ → Option Place} {t u p c z : ℕ} {thread thread' : Thread}
  {req : Request} {rest : List ℕ} {found : Bool}

/-! ## What is to hold -/

/-- **No notification is lost.** No parent is blocked with a child to reap. -/
def NoneLost (s : State) : Prop :=
  ∀ p req, s.threads p = some (.waiting req) → s.waitSemaphore p = 0 →
    ∀ c ∈ s.childList p, req.accepts c = true → s.state c ≠ .zombie

/-- What init waits for, when no signal will wake it. -/
def State.initWaits (s : State) : Option Request :=
  match s.threads 1 with
  | some (.waitNext req) => if s.waitSemaphore 1 = 0 then some req else none
  | some (.waiting req) => some req
  | _ => none

/-- The zombie that `process_destroy` puts on the list of init in this step. -/
def State.handsOver (s : State) : Event → Option ℕ
  | .run t =>
    match s.threads t with
    | some (.moving _ child) => if s.state child = .zombie then some child else none
    | _ => none
  | _ => none

/-- Init gets no zombie that it waits for. -/
def Announced (s : State) (e : Event) : Prop :=
  ∀ c ∈ s.handsOver e, ∀ req ∈ s.initWaits, req.accepts c = false

instance (s : State) (e : Event) : Decidable (Announced s e) :=
  inferInstanceAs (Decidable (∀ c ∈ s.handsOver e, ∀ req ∈ s.initWaits, req.accepts c = false))

/-- There is a signal for every zombie that a thread of `p` has looked at, or missed. -/
def Thread.Notified (s : State) (p : ℕ) : Thread → Prop
  | .scanning req rest _ => ∀ c ∈ s.childList p, c ∉ rest → req.accepts c = true →
      s.state c = .zombie → s.waitSemaphore p ≠ 0
  | .waitNext req => ∀ c ∈ s.childList p, req.accepts c = true → s.state c = .zombie →
      s.waitSemaphore p ≠ 0
  | .waiting req => ∀ c ∈ s.childList p, req.accepts c = true → s.state c ≠ .zombie
  | _ => True

def Notified (s : State) : Prop :=
  ∀ p thread, s.threads p = some thread → thread.Notified s p

theorem Notified.noneLost (h : Notified s) : NoneLost s :=
  fun p req ht _ => h p (.waiting req) ht

/-! ## Frames -/

/-- **Frame.** No child is new, or has become a zombie, and no signal has been taken. -/
theorem Thread.Notified.frame (h : thread.Notified s p) (hlist : s'.childList p ⊆ s.childList p)
    (hstate : ∀ c ∈ s.childList p, s'.state c = .zombie → s.state c = .zombie)
    (hsem : s.waitSemaphore p ≠ 0 → s'.waitSemaphore p ≠ 0) : thread.Notified s' p := by
  cases thread with
  | scanning req rest found =>
    intro c hc hrest haccepts hz
    exact hsem (h c (hlist hc) hrest haccepts (hstate c (hlist hc) hz))
  | waitNext req =>
    intro c hc haccepts hz
    exact hsem (h c (hlist hc) haccepts (hstate c (hlist hc) hz))
  | waiting req =>
    intro c hc haccepts hz
    exact h c (hlist hc) haccepts (hstate c (hlist hc) hz)
  | user => trivial
  | forking child => trivial
  | inserted child => trivial
  | locking req => trivial
  | reaping z => trivial
  | destroying z => trivial
  | moving z child => trivial
  | freeing z => trivial

/-- A signal that nobody has taken is enough for a thread that is not blocked. -/
theorem Thread.notified_of_pos (hthread : ∀ req, thread ≠ .waiting req)
    (hsem : s.waitSemaphore p ≠ 0) : thread.Notified s p := by
  cases thread with
  | scanning req rest found => exact fun _ _ _ _ _ => hsem
  | waitNext req => exact fun _ _ _ _ => hsem
  | waiting req => exact absurd rfl (hthread req)
  | user => trivial
  | forking child => trivial
  | inserted child => trivial
  | locking req => trivial
  | reaping z => trivial
  | destroying z => trivial
  | moving z child => trivial
  | freeing z => trivial

namespace Notified

theorem frame (h : Notified s) (hthreads : s'.threads = s.threads)
    (hlist : ∀ p, s'.childList p ⊆ s.childList p)
    (hstate : ∀ c, s'.state c = .zombie → s.state c = .zombie)
    (hsem : ∀ p, s.waitSemaphore p ≠ 0 → s'.waitSemaphore p ≠ 0) : Notified s' := by
  intro p thread ht
  rw [hthreads] at ht
  exact (h p thread ht).frame (hlist p) (fun c _ => hstate c) (hsem p)

theorem setThread (h : Notified s) (hthreads : s'.threads = update s.threads t (some thread))
    (hlist : ∀ p, p ≠ t → s'.childList p ⊆ s.childList p)
    (hstate : ∀ c, s'.state c = .zombie → s.state c = .zombie)
    (hsem : ∀ p, p ≠ t → s'.waitSemaphore p = s.waitSemaphore p)
    (hnotified : thread.Notified s' t) : Notified s' := by
  intro p thread' ht
  rw [hthreads] at ht
  by_cases hpt : p = t
  · subst hpt
    rw [update_self, Option.some.injEq] at ht
    rw [← ht]
    exact hnotified
  · rw [update_of_ne hpt] at ht
    refine (h p thread' ht).frame (hlist p hpt) (fun c _ => hstate c) ?_
    rw [hsem p hpt]
    exact id

/-! ## The steps -/

theorem fork (h : Notified s) (hinv : Inv s place) (ht : s.threads t = some .user) :
    Notified (s.fork t) := by
  intro p thread hp
  by_cases hpt : p = t
  · subst hpt
    obtain rfl : .forking s.nextPid = thread := by simpa [State.fork, State.setThread] using hp
    trivial
  · have hp' : s.threads p = some thread := by
      simpa [State.fork, State.setThread, State.uprocessInit, hpt] using hp
    have hpn : p ≠ s.nextPid := hinv.ne_nextPid (hinv.allocated hp')
    refine (h p thread hp').frame ?_ ?_ ?_
    · simp [State.fork, State.setThread, State.uprocessInit, hpn]
    · intro c hc
      have hcn := hinv.ne_nextPid (hinv.pidTable_of_place (hinv.place_list hc)).2
      simp [State.fork, State.setThread, State.uprocessInit, hcn]
    · simp [State.fork, State.setThread, State.uprocessInit, hpn]

theorem exec (h : Notified s) (t : ℕ) : Notified (s.exec t) := by
  unfold State.exec
  split
  · exact h.frame rfl (fun _ => List.Subset.refl _) (fun _ hc => hc) (fun _ hp => hp)
  · exact h.frame rfl (fun _ => List.Subset.refl _) (fun _ hc => hc) (fun _ hp => hp)

theorem exit (h : Notified s) (t : ℕ) : Notified (s.exit t) := by
  intro p thread hp
  have hpt : p ≠ t := by
    rintro rfl
    simp [State.exit, State.setThread] at hp
  have hp' : s.threads p = some thread := by
    simpa [State.exit, State.setThread, hpt] using hp
  exact (h p thread hp').frame (List.Subset.refl _) (fun _ _ hc => hc) (fun hp => hp)

theorem waitpid (h : Notified s) (t : ℕ) (req : Request) : Notified (s.waitpid t req) := by
  unfold State.waitpid
  split
  · exact h
  · exact h.setThread rfl (fun _ _ => List.Subset.refl _) (fun _ hc => hc) (fun _ _ => rfl) trivial

theorem semaphoreSignal_threads_of_ne (s : State) (hp : p ≠ u) :
    (s.semaphoreSignal u).threads p = s.threads p := by
  unfold State.semaphoreSignal
  split
  · simp [State.setThread, hp]
  · rfl

theorem semaphoreSignal_childList (s : State) (u : ℕ) :
    (s.semaphoreSignal u).childList = s.childList := by
  unfold State.semaphoreSignal
  split <;> rfl

theorem semaphoreSignal_state (s : State) (u : ℕ) : (s.semaphoreSignal u).state = s.state := by
  unfold State.semaphoreSignal
  split <;> rfl

theorem semaphoreSignal_waitSemaphore_of_ne (s : State) (hp : p ≠ u) :
    (s.semaphoreSignal u).waitSemaphore p = s.waitSemaphore p := by
  unfold State.semaphoreSignal
  split
  · rfl
  · simp [hp]

theorem semaphoreSignal_notified (s : State)
    (ht : (s.semaphoreSignal u).threads u = some thread) :
    thread.Notified (s.semaphoreSignal u) u := by
  unfold State.semaphoreSignal at ht ⊢
  split at ht
  · next req _ =>
    obtain rfl : .locking req = thread := by simpa [State.setThread] using ht
    trivial
  · next hblocked =>
    refine Thread.notified_of_pos ?_ (by simp)
    rintro req rfl
    exact hblocked req ht

theorem kthreadDestroy (h : Notified s) (hinv : Inv s place) (hexited : s.exited p ≠ 0) :
    Notified (s.kthreadDestroy p) := by
  have hdrop : Notified (s.dropThread p) :=
    h.frame rfl (fun _ => List.Subset.refl _) (fun _ hc => hc) (fun _ hp => hp)
  obtain ⟨-, hs | hs | ⟨q, hparent, -, hs⟩⟩ := hinv.kthreadDestroy_cases hexited
  · rw [hs]
    exact hdrop
  · rw [hs]
    exact hdrop.frame rfl (fun _ => List.Subset.refl _) (fun _ hc => hc) (fun _ hp => hp)
  · rw [hs]
    intro u thread hu
    by_cases huq : u = q
    · subst huq
      exact semaphoreSignal_notified _ hu
    · rw [semaphoreSignal_threads_of_ne _ huq] at hu
      refine (h u thread hu).frame ?_ ?_ ?_
      · rw [semaphoreSignal_childList]
        exact List.Subset.refl _
      · intro c hc hzombie
        -- the new zombie is on the list of the parent that is signalled
        have hcp : c ≠ p := by
          rintro rfl
          have hnamed := (hinv.named c u (hinv.place_list hc)).1
          rw [hparent] at hnamed
          exact huq (Option.some.inj hnamed).symm
        rw [semaphoreSignal_state] at hzombie
        simpa [hcp] using hzombie
      · rw [semaphoreSignal_waitSemaphore_of_ne _ huq]
        exact id

theorem resumeChild (h : Notified s) : Notified (s.resumeChild t c) := by
  have hchild : Notified ({ s with
      threadCount := update s.threadCount c (s.threadCount c + 1) }.setThread c (some .user)) :=
    h.setThread rfl (fun _ _ => List.Subset.refl _) (fun _ hc => hc) (fun _ _ => rfl) trivial
  exact hchild.setThread rfl (fun _ _ => List.Subset.refl _) (fun _ hc => hc) (fun _ _ => rfl)
    trivial

theorem lookAt (h : Notified s) (ht : s.threads t = some (.scanning req (c :: rest) found)) :
    Notified (s.lookAt t c req rest found) := by
  have hscan := h t _ ht
  unfold State.lookAt
  split
  · exact h.frame rfl (fun _ => List.Subset.refl _) (fun _ hc => hc) (fun _ hp => hp)
  · split
    · next haccepts =>
      refine h.setThread rfl (fun _ _ => List.Subset.refl _) (fun _ hc => hc) (fun _ _ => rfl) ?_
      intro d hd hrest hd' hz
      have hdc : d ≠ c := by
        rintro rfl
        simp [haccepts] at hd'
      exact hscan d hd (by simp [hdc, hrest]) hd' hz
    · split
      · refine h.setThread rfl ?_ (fun _ hc => hc) (fun _ _ => rfl) trivial
        intro p hp
        simp [State.setThread, State.setChildList, hp]
      · next hzombie =>
        refine h.setThread rfl (fun _ _ => List.Subset.refl _) (fun _ hc => hc) (fun _ _ => rfl) ?_
        intro d hd hrest hd' hz
        have hdc : d ≠ c := by
          rintro rfl
          exact hzombie hz
        exact hscan d hd (by simp [hdc, hrest]) hd' hz

theorem endScan (h : Notified s) (hinv : Inv s place)
    (ht : s.threads t = some (.scanning req [] found)) : Notified (s.endScan t req found) := by
  have hscan := h t _ ht
  rw [hinv.endScan_eq ht]
  refine h.setThread rfl (fun _ _ => List.Subset.refl _) (fun _ hc => hc) (fun _ _ => rfl) ?_
  split
  · trivial
  · exact fun c hc => hscan c hc List.not_mem_nil

theorem schedWait (h : Notified s) (ht : s.threads t = some (.waitNext req)) :
    Notified (s.schedWait t req) := by
  have hnext := h t _ ht
  unfold State.schedWait
  split
  · next hsem =>
    refine h.setThread rfl (fun _ _ => List.Subset.refl _) (fun _ hc => hc) (fun _ _ => rfl) ?_
    exact fun c hc haccepts hz => hnext c hc haccepts hz hsem
  · refine h.setThread rfl (fun _ _ => List.Subset.refl _) (fun _ hc => hc) ?_ trivial
    intro p hp
    simp [State.setThread, hp]

theorem destroyChild (h : Notified s) (hinv : Inv s place)
    (ht : s.threads t = some (.destroying z)) : Notified (s.destroyChild t z) := by
  cases hchildren : s.childList z with
  | nil =>
    rw [hinv.destroyChild_nil_eq ht hchildren]
    exact h.setThread rfl (fun _ _ => List.Subset.refl _) (fun _ hc => hc) (fun _ _ => rfl) trivial
  | cons child rest =>
    rw [State.destroyChild, hchildren]
    refine h.setThread rfl ?_ (fun _ hc => hc) (fun _ _ => rfl) trivial
    intro p _
    by_cases hpz : p = z
    · subst hpz
      simp [State.takeChild, State.setThread, State.setChildList, hchildren]
    · simp [State.takeChild, State.setThread, State.setChildList, hpz]

theorem giveToInit (h : Notified s) (hinv : Inv s place)
    (ht : s.threads t = some (.moving z c)) (hannounced : Announced s (.run t))
    (hs : s.giveToInit t z c = some s') : Notified s' := by
  rcases State.guarded_eq_some hs with ⟨hfree, rfl⟩ | ⟨-, rfl⟩
  · have hother : ∀ req, req ∈ s.initWaits → req.accepts c = true → s.state c ≠ .zombie := by
      intro req hreq haccepts hz
      have hhands : c ∈ s.handsOver (.run t) := by simp [State.handsOver, ht, hz]
      simp [hannounced c hhands req hreq] at haccepts
    intro p thread hp
    by_cases hpt : p = t
    · subst hpt
      obtain rfl : .destroying z = thread := by simpa [State.setThread] using hp
      trivial
    · have hp' : s.threads p = some thread := by
        simpa [State.setThread, State.setChildList, hpt] using hp
      have hnotified := h p thread hp'
      by_cases hone : p = 1
      · subst hone
        have hmem : ∀ d, d ∈ ((s.setChildList 1 (c :: s.childList 1)).setThread t
            (some (.destroying z))).childList 1 ↔ d = c ∨ d ∈ s.childList 1 := by
          simp [State.setThread, State.setChildList]
        cases thread with
        | scanning req rest found =>
          -- init has its lock, and the child waits for it
          have howner := hinv.owner_eq hp' (p := 1) (by simp [Thread.locks])
          simp [hfree] at howner
        | waitNext req =>
          intro d hd haccepts hz
          rcases (hmem d).1 hd with rfl | hd
          · by_contra hsem
            have hsem' : s.waitSemaphore 1 = 0 := hsem
            exact hother req (by simp [State.initWaits, hp', hsem']) haccepts hz
          · exact hnotified d hd haccepts hz
        | waiting req =>
          intro d hd haccepts
          rcases (hmem d).1 hd with rfl | hd
          · exact hother req (by simp [State.initWaits, hp']) haccepts
          · exact hnotified d hd haccepts
        | user => trivial
        | forking child => trivial
        | inserted child => trivial
        | locking req => trivial
        | reaping z => trivial
        | destroying z => trivial
        | moving z child => trivial
        | freeing z => trivial
      · refine hnotified.frame ?_ (fun _ _ hc => hc) (fun hsem => hsem)
        simp [State.setThread, State.setChildList, hone]
  · exact h.frame rfl (fun _ => List.Subset.refl _) (fun _ hc => hc) (fun _ hp => hp)

theorem advanceThread (h : Notified s) (hinv : Inv s place) (ht : s.threads t = some thread)
    (hannounced : Announced s (.run t)) (hs : s.advance t thread = some s') : Notified s' := by
  cases thread with
  | user => simp [State.advance] at hs
  | forking child =>
    rw [hinv.insertChild_eq ht hs]
    refine h.setThread rfl ?_ (fun _ hc => hc) (fun _ _ => rfl) trivial
    intro p hp
    simp [State.setThread, State.setChildList, hp]
  | inserted child =>
    obtain rfl : s.resumeChild t child = s' := by simpa [State.advance] using hs
    exact h.resumeChild
  | locking req =>
    rw [(hinv.startScan_eq ht hs).2]
    refine h.setThread rfl (fun _ _ => List.Subset.refl _) (fun _ hc => hc) (fun _ _ => rfl) ?_
    exact fun c hc hrest => absurd hc hrest
  | scanning req rest found =>
    cases rest with
    | nil =>
      obtain rfl : s.endScan t req found = s' := by simpa [State.advance] using hs
      exact h.endScan hinv ht
    | cons child rest =>
      obtain rfl : s.lookAt t child req rest found = s' := by simpa [State.advance] using hs
      exact h.lookAt ht
  | waitNext req =>
    obtain rfl : s.schedWait t req = s' := by simpa [State.advance] using hs
    exact h.schedWait ht
  | waiting req => simp [State.advance] at hs
  | reaping z =>
    rw [(hinv.lockZombie_eq ht hs).2]
    exact h.setThread rfl (fun _ _ => List.Subset.refl _) (fun _ hc => hc) (fun _ _ => rfl) trivial
  | destroying z =>
    obtain rfl : s.destroyChild t z = s' := by simpa [State.advance] using hs
    exact h.destroyChild hinv ht
  | moving z child => exact h.giveToInit hinv ht hannounced hs
  | freeing z =>
    obtain rfl : s.free t z = s' := by simpa [State.advance] using hs
    rw [hinv.free_eq ht]
    exact h.setThread rfl (fun _ _ => List.Subset.refl _) (fun _ hc => hc) (fun _ _ => rfl) trivial

end Notified

/-- **Step lemma.** -/
theorem step_notified (h : Notified s) (hinv : Inv s place) {e : Event}
    (hannounced : Announced s e) (hs : step s e = some s') : Notified s' := by
  unfold step at hs
  split at hs
  · simp at hs
  · cases e with
    | fork t =>
      by_cases ht : s.threads t = some .user
      · obtain rfl : s.fork t = s' := by simpa [ht] using hs
        exact h.fork hinv ht
      · simp [ht] at hs
    | exec t =>
      by_cases ht : s.threads t = some .user
      · obtain rfl : s.exec t = s' := by simpa [ht] using hs
        exact h.exec t
      · simp [ht] at hs
    | exit t =>
      by_cases ht : s.threads t = some .user
      · obtain rfl : s.exit t = s' := by simpa [ht] using hs
        exact h.exit t
      · simp [ht] at hs
    | waitpid t req =>
      by_cases ht : s.threads t = some .user
      · obtain rfl : s.waitpid t req = s' := by simpa [ht] using hs
        exact h.waitpid t req
      · simp [ht] at hs
    | kthreadDestroy p =>
      by_cases hexited : s.exited p = 0
      · simp [hexited] at hs
      · obtain rfl : s.kthreadDestroy p = s' := by simpa [hexited] using hs
        exact h.kthreadDestroy hinv hexited
    | run t =>
      obtain ⟨thread, ht, hadvance⟩ := Option.bind_eq_some_iff.1 hs
      exact h.advanceThread hinv ht hannounced hadvance

/-- **No exit notification is lost.** In every run in which init gets no zombie that it already
waits for, no parent is blocked in `sys_waitpid` with a child to reap. -/
theorem waitpid_notified (h : system.ReachableUnder Announced s) : NoneLost s := by
  have hnotified : WellFormed s ∧ Notified s := by
    apply h.invariant
    · rintro s rfl
      refine ⟨⟨_, boot_inv⟩, ?_⟩
      intro p thread hp
      by_cases hone : p = 1
      · obtain rfl : .user = thread := by simpa [boot, hone] using hp
        trivial
      · simp [boot, hone] at hp
    · rintro s e s' ⟨⟨place, hinv⟩, hnotified⟩ hannounced hs
      exact ⟨step_wellFormed ⟨place, hinv⟩ hs, step_notified hnotified hinv hannounced hs⟩
  exact hnotified.2.noneLost

/-! ## Two runs -/

/-- Init waits for any child; 2 reaps 3, and init gets 4, which is alive. -/
theorem waitpid_notified_two : ∃ s, s.threads 1 = some (.waiting ⟨-1, false⟩) ∧
    s.childList 1 = [4, 2] ∧ s.reaped = [3] ∧ NoneLost s := by
  have hrun : ∃ s, system.ReachableUnder Announced s ∧
      decide (s.threads 1 = some (.waiting ⟨-1, false⟩) ∧ s.childList 1 = [4, 2] ∧
        s.reaped = [3]) = true :=
    exists_reachableUnder_of_runUnder (show system.init boot from rfl)
      (forks 1 ++ forks 2 ++ forks 3 ++ exits 3 ++ waits 1 4 ++ waits 2 7) _ (by decide +kernel)
  obtain ⟨s, hs, hend⟩ := hrun
  obtain ⟨hthread, hlist, hreaped⟩ := of_decide_eq_true hend
  exact ⟨s, hthread, hlist, hreaped, waitpid_notified hs⟩

/-- **Init sleeps on.** 4 and then its parent 3 end; init waits for any child, and only then 2 reaps
3, which hands 4 over to init. -/
theorem init_sleeps_on : ∃ s, system.Reachable s ∧ s.threads 1 = some (.waiting ⟨-1, false⟩) ∧
    s.waitSemaphore 1 = 0 ∧ 4 ∈ s.childList 1 ∧ s.state 4 = .zombie ∧ ¬ NoneLost s := by
  have hrun : ∃ s, system.Reachable s ∧
      decide (s.threads 1 = some (.waiting ⟨-1, false⟩) ∧ s.waitSemaphore 1 = 0 ∧
        4 ∈ s.childList 1 ∧ s.state 4 = .zombie) = true :=
    exists_reachable_of_run (show system.init boot from rfl)
      (forks 1 ++ forks 2 ++ forks 3 ++ exits 4 ++ exits 3 ++ waits 1 4 ++ waits 2 7) _
      (by decide +kernel)
  obtain ⟨s, hs, hend⟩ := hrun
  obtain ⟨hthread, hsem, hchild, hzombie⟩ := of_decide_eq_true hend
  exact ⟨s, hs, hthread, hsem, hchild, hzombie,
    fun hnone => hnone 1 ⟨-1, false⟩ hthread hsem 4 hchild rfl hzombie⟩

end ProcTree
