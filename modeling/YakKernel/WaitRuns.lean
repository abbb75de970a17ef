/-
# Runs of waiting threads

The invariant and the accounts along every run: what a wait returns is the one signal that it
has consumed, and none of its blocks stays behind.  Two steps break this for
`sched_wait_many`: the early return when a later object is already signalled, and an alarm
that finds only stale waiters.
-/
import YakKernel.WaitConservation

namespace Wait

variable {T O : Type*} [DecidableEq T] [DecidableEq O] {kinds : O → Kind} {counts : O → ℤ}
  {s s' : State T O} {t : T}

/-! ## Step and run lemma -/

/-- The thread finds an object signalled after it has queued blocks for earlier ones. -/
def earlyReturn (s : State T O) : Event T O → Bool
  | .run t => match (s.threads t).pc with
    | .enqueue (i + 1) =>
      (s.threads t).objects[i + 1]?.any (fun o => (s.kobj (.obj o)).isObjSignaled)
    | _ => false
  | _ => false

/-- An alarm of an unsignalled synchronization event all of whose waiters are stale. -/
def alarmLost (s : State T O) : Event T O → Bool
  | .eventAlarm o _ =>
    decide ((s.kobj (.obj o)).objType = .objSync) &&
      decide ((s.kobj (.obj o)).objSignalCount = 0) &&
      !(s.kobj (.obj o)).objWaitList.isEmpty &&
      (s.kobj (.obj o)).objWaitList.all (fun wb => (s.threads wb.thread).unwaited wb.index)
  | _ => false

omit [DecidableEq T] [DecidableEq O] in
theorem alarmHeard_of_not_lost {o : O} {wakeAll : Bool}
    (h : alarmLost s (.eventAlarm o wakeAll) = false) (htype : (s.kobj (.obj o)).objType = .objSync)
    (hzero : (s.kobj (.obj o)).objSignalCount = 0) : alarmHeard s o := by
  intro hne
  by_contra hno
  have hall : (s.kobj (.obj o)).objWaitList.all
      (fun wb => (s.threads wb.thread).unwaited wb.index) = true := by
    rw [List.all_eq_true]
    intro wb hwb
    by_contra hlive
    exact hno ⟨wb, hwb, Bool.eq_false_iff.mpr hlive⟩
  unfold alarmLost at h
  simp [htype, hzero, hall, hne] at h

omit [DecidableEq T] [DecidableEq O] in
theorem ok_initial (kinds : O → Kind) (counts : O → ℤ) :
    Ok (initial kinds counts : State T O) where
  threads := by
    intro t
    refine ⟨fun index k => iff_of_false ?_ (fun h => h.2.1), ⟨rfl, rfl⟩,
      ⟨iff_of_false nofun nofun, nofun⟩, fun _ => Nat.zero_le 1⟩
    cases k <;> exact List.not_mem_nil
  kobj := by
    intro k
    cases k <;> exact ⟨rfl, List.nodup_nil⟩
  panicked := rfl

omit [DecidableEq T] [DecidableEq O] in
theorem balanced_initial (kinds : O → Kind) (counts : O → ℤ) :
    Balanced kinds counts (initial kinds counts : State T O) where
  objType := fun _ => rfl
  account := by
    intro o _
    refine ⟨0, Tally.zero_iff.mpr ?_, ?_⟩
    · rintro t ⟨g, hg, -⟩
      cases hg
    · show counts o + ((0 : ℕ) : ℤ) + 0 = ((0 : ℕ) : ℤ) + counts o + ((0 : ℕ) : ℤ)
      push_cast
      omega

/-- What every step of the system keeps. -/
structure Inv (kinds : O → Kind) (counts : O → ℤ) (s : State T O) : Prop where
  ok : Ok s
  balanced : Balanced kinds counts s

/-- **Step lemma.** -/
theorem Inv.step (h : Inv kinds counts s) {ev : Event T O} (hearly : earlyReturn s ev = false)
    (hlost : alarmLost s ev = false) (hs : Wait.step kinds s ev = some s') :
    Inv kinds counts s' := by
  unfold Wait.step at hs
  rw [if_neg (by rw [h.ok.panicked]; exact nofun)] at hs
  cases ev with
  | schedWait t object hasTimeout =>
    have hcall : s.call t [object] false hasTimeout = some s' := hs
    refine ⟨h.ok.call (fun _ => le_rfl) hcall, ?_⟩
    unfold State.call at hcall
    split at hcall
    · cases hcall
      exact h.balanced.frame (frame_modifyThread rfl)
    · cases hcall
  | schedWaitMany t objects hasTimeout =>
    have hcall : s.call t objects true hasTimeout = some s' := hs
    refine ⟨h.ok.call (fun hm => by cases hm) hcall, ?_⟩
    unfold State.call at hcall
    split at hcall
    · cases hcall
      exact h.balanced.frame (frame_modifyThread rfl)
    · cases hcall
  | run t =>
    simp only [stepEvent] at hs
    split at hs
    · rename_i hrun
      have htame : ∀ i o, (s.threads t).pc = .enqueue (i + 1) →
          (s.threads t).objects[i + 1]? = some o → (s.kobj (.obj o)).isObjSignaled = false := by
        intro i o hpc ho
        unfold earlyReturn at hearly
        simpa [hpc, ho] using hearly
      exact ⟨h.ok.runPc hrun htame hs, (h.balanced.runPc h.ok htame hs).1⟩
    · cases hs
  | dispatch t =>
    simp only [stepEvent] at hs
    split at hs
    · rename_i hst
      cases hs
      exact ⟨h.ok.dispatch hst, h.balanced.frame (frame_modifyThread rfl)⟩
    · cases hs
  | semaphoreSignal o =>
    simp only [stepEvent] at hs
    split at hs
    · cases hs
      have hk := h.ok.semaphoreSignal h.balanced o
      exact ⟨hk.ok, hk.balanced⟩
    · cases hs
  | eventAlarm o wakeAll =>
    simp only [stepEvent] at hs
    split at hs
    · cases hs
      have hk := h.ok.eventAlarm h.balanced o wakeAll (alarmHeard_of_not_lost hlost)
      exact ⟨hk.ok, hk.balanced⟩
    · cases hs
  | timerExpiry o =>
    simp only [stepEvent] at hs
    split at hs
    · rename_i ho
      cases hs
      have hk := h.ok.timerSignal h.balanced (k := .obj o) (fun o' he => by
        obtain rfl := Kptr.obj.inj he
        rw [ho]
        rfl)
      exact ⟨hk.ok, hk.balanced⟩
    · cases hs
  | timerUpdate t =>
    simp only [stepEvent] at hs
    split at hs
    · cases hs
      have hok : Ok (s.modifyTimer t (fun _ => ⟨.fired, false⟩)) := h.ok.modifyTimer nofun
      have hk := hok.timerSignal (h.balanced.frame frame_modifyTimer) (k := .timer t) nofun
      exact ⟨hk.ok, hk.balanced⟩
    · cases hs

/-- **Run lemma.** -/
theorem Inv.of_reachable (h : (system T kinds counts).ReachableUnder
      (fun s ev => earlyReturn s ev = false ∧ alarmLost s ev = false) s) :
    Inv kinds counts s := by
  apply TransitionSystem.ReachableUnder.invariant ?_ ?_ h
  · rintro _ rfl
    exact ⟨ok_initial kinds counts, balanced_initial kinds counts⟩
  · rintro s ev s' hI ⟨hearly, hlost⟩ hs
    exact hI.step hearly hlost hs

/-! ## `sched_wait_many` -/

omit [DecidableEq T] [DecidableEq O] in
theorem ThreadOk.returning (h : ThreadOk s t) {status : WaitStatus}
    (hpc : (s.threads t).pc = .returning status) :
    (∀ index k, ⟨t, index⟩ ∉ (s.kobj k).objWaitList) ∧
    ∃ index k, (s.threads t).object t index = some k ∧
      status = (s.threads t).blockStatus index ∧ (s.threads t).grants = [(k, status)] := by
  refine ⟨h.not_mem ?_, ?_⟩
  · intro index hl
    unfold Thread.Linked at hl
    simp only [hpc] at hl
  · have hsh := h.shape
    unfold Thread.Shape at hsh
    simp only [hpc] at hsh
    obtain ⟨-, ⟨k, status'⟩, hg, ⟨index, ho, hst⟩, rfl⟩ := hsh
    exact ⟨index, k, ho, hst, hg⟩

/-- **A wait consumes what it returns.**  As long as no thread returns early with blocks
queued and no alarm meets only stale waiters: no assertion fails; when a wait returns, none of
its blocks is on a list, and exactly the one signal that the status names has ended it; and
every signal of a synchronization object has been taken by the wait that it has ended, or is
still there. -/
theorem waits_consume_one (h : (system T kinds counts).ReachableUnder
      (fun s ev => earlyReturn s ev = false ∧ alarmLost s ev = false) s) :
    s.panicked = false ∧
    (∀ t status, (s.threads t).pc = .returning status →
      (∀ index k, ⟨t, index⟩ ∉ (s.kobj k).objWaitList) ∧
      ∃ index k, (s.threads t).object t index = some k ∧
        status = (s.threads t).blockStatus index ∧ (s.threads t).grants = [(k, status)]) ∧
    ∀ o, (kinds o).objType = .objSync → ∃ G, Tally (Granted s o) G ∧
      counts o + s.signals o = s.taken o + (s.kobj (.obj o)).objSignalCount + G := by
  have hI := Inv.of_reachable h
  refine ⟨hI.ok.panicked, fun t status hpc => (hI.ok.threads t).returning hpc, fun o ho => ?_⟩
  obtain ⟨G, hG, heq⟩ := hI.balanced.account o ho
  refine ⟨G, hG, ?_⟩
  rwa [add_zero] at heq

/-- Thread 0 waits for objects 0 and 1 and gets the signal of object 1. -/
def secondSignalledRun : List (Event ℕ ℕ) :=
  [Event.schedWaitMany 0 [0, 1] false] ++ List.replicate 4 (Event.run 0) ++
    [Event.semaphoreSignal 1, Event.dispatch 0] ++ List.replicate 4 (Event.run 0)

/-- Both blocks are off their lists when the wait returns. -/
theorem waits_consume_one_second :
    ∃ s, (system ℕ (fun _ : ℕ => .semaphore) (fun _ => 0)).Reachable s ∧
      (s.threads 0).pc = .returning (.waitSuccess 1) ∧
      (∀ index k, ⟨0, index⟩ ∉ (s.kobj k).objWaitList) ∧
      ∃ G, Tally (Granted s 1) G ∧
        0 + (s.signals 1 : ℤ) = s.taken 1 + (s.kobj (.obj 1)).objSignalCount + G := by
  obtain ⟨s, hs, hp⟩ := TransitionSystem.exists_reachableUnder_of_runUnder
    (C := fun s ev => earlyReturn s ev = false ∧ alarmLost s ev = false)
    (show (system ℕ (fun _ : ℕ => .semaphore) (fun _ => 0)).init
      (initial (fun _ => .semaphore) (fun _ => 0)) from rfl) secondSignalledRun
    (fun s => decide ((s.threads 0).pc = .returning (.waitSuccess 1)))
    (by decide +kernel)
  obtain ⟨-, hret, hacc⟩ := waits_consume_one hs
  have hpc := of_decide_eq_true hp
  exact ⟨s, hs.reachable, hpc, (hret 0 _ hpc).1, hacc 1 rfl⟩

/-- Object 1 is signalled before thread 0 waits for objects 0 and 1. -/
def earlyReturnRun : List (Event ℕ ℕ) :=
  [Event.semaphoreSignal 1, Event.schedWaitMany 0 [0, 1] false] ++ List.replicate 4 (Event.run 0)

/-- The wait returns while its first block is still on the list of object 0. -/
theorem block_outlives_wait :
    ∃ s, (system ℕ (fun _ : ℕ => .semaphore) (fun _ => 0)).Reachable s ∧
      (s.threads 0).pc = .returning (.waitSuccess 1) ∧
      ⟨0, some 0⟩ ∈ (s.kobj (.obj 0)).objWaitList := by
  obtain ⟨s, hs, hp⟩ := TransitionSystem.exists_reachable_of_run
    (show (system ℕ (fun _ : ℕ => .semaphore) (fun _ => 0)).init
      (initial (fun _ => .semaphore) (fun _ => 0)) from rfl) earlyReturnRun
    (fun s => decide ((s.threads 0).pc = .returning (.waitSuccess 1) ∧
      ⟨0, some 0⟩ ∈ (s.kobj (.obj 0)).objWaitList)) (by decide +kernel)
  obtain ⟨hpc, hmem⟩ := of_decide_eq_true hp
  exact ⟨s, hs, hpc, hmem⟩

/-! ## `sched_wait` -/

/-- Threads only use `sched_wait`, and only notification events are alarmed. -/
def singleWait (kinds : O → Kind) : Event T O → Bool
  | .schedWaitMany _ _ _ => false
  | .eventAlarm o _ => decide (kinds o = .event .objNotif)
  | _ => true

/-- Every thread in a wait waits for one object. -/
def SingleTable (s : State T O) : Prop :=
  ∀ t, (s.threads t).many = false ∧ (s.threads t).objects.length ≤ 1 ∧
    ((s.threads t).pc ≠ .outside → ∃ o, (s.threads t).objects = [o])

omit [DecidableEq T] [DecidableEq O] in
theorem SingleTable.not_early (h : SingleTable s) {ev : Event T O} : earlyReturn s ev = false := by
  unfold earlyReturn
  split
  · rename_i t
    split
    · rename_i i _
      have hlen := (h t).2.1
      have hnone : (s.threads t).objects[i + 1]? = none := List.getElem?_eq_none (by omega)
      rw [hnone]
      rfl
    · rfl
  · rfl

omit [DecidableEq T] [DecidableEq O] in
theorem SingleTable.congr (h : SingleTable s) (htable : SameTable s s') : SingleTable s' := by
  intro t
  rw [htable.objects t, htable.many t]
  exact ⟨(h t).1, (h t).2.1, fun hne => (h t).2.2 (fun ho => hne (htable.outside t ho))⟩

omit [DecidableEq O] in
theorem SingleTable.modifyThread (h : SingleTable s) {f : Thread T O → Thread T O}
    (hf : (f (s.threads t)).many = false ∧ (f (s.threads t)).objects.length ≤ 1 ∧
      ((f (s.threads t)).pc ≠ .outside → ∃ o, (f (s.threads t)).objects = [o])) :
    SingleTable (s.modifyThread t f) := by
  intro u
  by_cases hu : u = t
  · subst hu
    rw [State.modifyThread_threads, Function.update_self]
    exact hf
  · rw [State.modifyThread_threads, Function.update_of_ne hu]
    exact h u

/-- **Step lemma for single waits.** -/
theorem SingleTable.step (h : SingleTable s) (hI : Inv kinds counts s) {ev : Event T O}
    (hev : singleWait kinds ev = true) (hs : Wait.step kinds s ev = some s') :
    SingleTable s' := by
  unfold Wait.step at hs
  rw [if_neg (by rw [hI.ok.panicked]; exact nofun)] at hs
  cases ev with
  | schedWait t object hasTimeout =>
    have hcall : s.call t [object] false hasTimeout = some s' := hs
    unfold State.call at hcall
    split at hcall
    · cases hcall
      exact h.modifyThread ⟨rfl, le_rfl, fun _ => ⟨object, rfl⟩⟩
    · cases hcall
  | schedWaitMany t objects hasTimeout => cases hev
  | run t =>
    simp only [stepEvent] at hs
    split at hs
    · have htame : ∀ i o, (s.threads t).pc = .enqueue (i + 1) →
          (s.threads t).objects[i + 1]? = some o → (s.kobj (.obj o)).isObjSignaled = false := by
        intro i o _ ho
        have hlt := (List.getElem?_eq_some_iff.mp ho).1
        have hlen := (h t).2.1
        omega
      exact h.congr (hI.balanced.runPc hI.ok htame hs).2
    · cases hs
  | dispatch t =>
    simp only [stepEvent] at hs
    split at hs
    · cases hs
      exact h.modifyThread (h t)
    · cases hs
  | semaphoreSignal o =>
    simp only [stepEvent] at hs
    split at hs
    · cases hs
      exact h.congr (hI.ok.semaphoreSignal hI.balanced o).table
    · cases hs
  | eventAlarm o wakeAll =>
    simp only [stepEvent] at hs
    split at hs
    · cases hs
      have htype : (s.kobj (.obj o)).objType = .objNotif :=
        (hI.balanced.objType o).trans (by rw [of_decide_eq_true hev]; rfl)
      exact h.congr (hI.ok.eventAlarm hI.balanced o wakeAll (fun hsync => by
        rw [htype] at hsync
        cases hsync)).table
    · cases hs
  | timerExpiry o =>
    simp only [stepEvent] at hs
    split at hs
    · rename_i ho
      cases hs
      exact h.congr (hI.ok.timerSignal hI.balanced (k := .obj o) (fun o' he => by
        obtain rfl := Kptr.obj.inj he
        rw [ho]
        rfl)).table
    · cases hs
  | timerUpdate t =>
    simp only [stepEvent] at hs
    split at hs
    · cases hs
      have hok : Ok (s.modifyTimer t (fun _ => ⟨.fired, false⟩)) := hI.ok.modifyTimer nofun
      have hk := hok.timerSignal (hI.balanced.frame frame_modifyTimer) (k := .timer t) nofun
      have hfired : SingleTable (s.modifyTimer t (fun _ => ⟨.fired, false⟩)) := h
      exact hfired.congr hk.table
    · cases hs

omit [DecidableEq T] [DecidableEq O] in
theorem not_lost_of_singleWait (hb : Balanced kinds counts s) {ev : Event T O}
    (hev : singleWait kinds ev = true) : alarmLost s ev = false := by
  cases ev with
  | eventAlarm o wakeAll =>
    have htype : (s.kobj (.obj o)).objType = .objNotif :=
      (hb.objType o).trans (by rw [of_decide_eq_true hev]; rfl)
    simp [alarmLost, htype]
  | schedWait | schedWaitMany | run | dispatch | semaphoreSignal | timerExpiry | timerUpdate => rfl

/-- **Run lemma for single waits.** -/
theorem SingleTable.of_reachable
    (h : (system T kinds counts).ReachableUnder (fun _ ev => singleWait kinds ev = true) s) :
    Inv kinds counts s ∧ SingleTable s := by
  apply TransitionSystem.ReachableUnder.invariant ?_ ?_ h
  · rintro _ rfl
    exact ⟨⟨ok_initial kinds counts, balanced_initial kinds counts⟩,
      fun _ => ⟨rfl, Nat.zero_le 1, fun hne => absurd rfl hne⟩⟩
  · rintro s ev s' ⟨hI, hsingle⟩ hev hs
    exact ⟨hI.step hsingle.not_early (not_lost_of_singleWait hI.balanced hev) hs,
      hsingle.step hI hev hs⟩

omit [DecidableEq T] [DecidableEq O] in
theorem ThreadOk.grants_le_one (h : ThreadOk s t) : (s.threads t).grants.length ≤ 1 := by
  have hsh := h.shape
  have hw : ∀ {th : Thread T O}, th.InWait t → th.grants.length ≤ 1 := by
    intro th hw
    rcases hw.grants with h0 | ⟨g, hg, -⟩
    · rw [h0]
      exact Nat.zero_le 1
    · rw [hg]
      exact le_rfl
  unfold Thread.Shape at hsh
  cases hpc : (s.threads t).pc with
  | outside | setup =>
    simp only [hpc] at hsh
    rw [hsh.1]
    exact Nat.zero_le 1
  | enqueue | arming | committing | waiting | cleanup =>
    simp only [hpc] at hsh
    exact hw hsh.1
  | found i =>
    simp only [hpc] at hsh
    obtain ⟨-, o, -, hg⟩ := hsh
    rw [hg]
    exact le_rfl
  | returning status =>
    simp only [hpc] at hsh
    obtain ⟨-, g, hg, -⟩ := hsh
    rw [hg]
    exact le_rfl

/-- **The protocol of `sched_wait`.**  In every run of threads that wait for one object at a
time, with semaphores, notification events and timers: no assertion of `thread_unwait` fails;
a wait is ended at most once, and a thread sleeps exactly until then; when it returns, its
blocks are off every list and the status is that of the object or of the timeout, whichever
has ended it; and the signals of a semaphore are the successful waits, the remaining count and
the granted waits that have not returned. -/
theorem single_wait
    (h : (system T kinds counts).ReachableUnder (fun _ ev => singleWait kinds ev = true) s) :
    s.panicked = false ∧
    (∀ t, (s.threads t).grants.length ≤ 1) ∧
    (∀ t, (s.threads t).pc = .waiting →
      ((s.threads t).grants = [] ↔ (s.threads t).status = .waiting)) ∧
    (∀ t status, (s.threads t).pc = .returning status →
      (∀ index k, ⟨t, index⟩ ∉ (s.kobj k).objWaitList) ∧
      ∃ o, (s.threads t).objects = [o] ∧
        (status = .success ∧ (s.threads t).grants = [(.obj o, .success)] ∨
          status = .timeout ∧ (s.threads t).grants = [(.timer t, .timeout)])) ∧
    ∀ o, kinds o = .semaphore → ∃ G, Tally (Granted s o) G ∧
      s.signals o + counts o = s.taken o + (s.kobj (.obj o)).objSignalCount + G := by
  obtain ⟨hI, hsingle⟩ := SingleTable.of_reachable h
  refine ⟨hI.ok.panicked, fun t => (hI.ok.threads t).grants_le_one, fun t hpc => ?_,
    fun t status hpc => ?_, fun o ho => ?_⟩
  · have hsh := (hI.ok.threads t).shape
    unfold Thread.Shape at hsh
    simp only [hpc] at hsh
    exact hsh.2
  · obtain ⟨hlists, index, k, hobj, hst, hg⟩ := (hI.ok.threads t).returning hpc
    obtain ⟨hmany, -, hone⟩ := hsingle t
    obtain ⟨o, ho⟩ := hone (by rw [hpc]; exact nofun)
    refine ⟨hlists, o, ho, ?_⟩
    cases index with
    | none =>
      obtain rfl := Option.some.inj hobj
      obtain rfl : status = .timeout := hst
      exact Or.inr ⟨rfl, hg⟩
    | some i =>
      simp only [Thread.object, ho, Option.map_eq_some_iff] at hobj
      obtain ⟨o', ho', rfl⟩ := hobj
      obtain rfl : o' = o := List.mem_singleton.mp (List.mem_of_getElem? ho')
      obtain rfl : status = .success := by
        rw [hst]
        simp [Thread.blockStatus, hmany]
      exact Or.inl ⟨rfl, hg⟩
  · obtain ⟨G, hG, heq⟩ := hI.balanced.account o (by rw [ho]; rfl)
    exact ⟨G, hG, by omega⟩

/-- Thread 0 waits for a semaphore with a timeout; the timeout comes first, then the signal. -/
def timeoutFirstRun : List (Event ℕ ℕ) :=
  [Event.schedWait 0 0 true] ++ List.replicate 4 (Event.run 0) ++
    [Event.timerUpdate 0, Event.semaphoreSignal 0, Event.dispatch 0] ++ List.replicate 5 (Event.run 0)

/-- The wait times out, and the signal stays with the semaphore. -/
theorem single_wait_timeout :
    ∃ s, (system ℕ (fun _ : ℕ => .semaphore) (fun _ => 0)).Reachable s ∧
      (s.threads 0).pc = .returning .timeout ∧
      (s.threads 0).grants = [(.timer 0, .timeout)] ∧
      (∀ index k, ⟨0, index⟩ ∉ (s.kobj k).objWaitList) ∧
      (s.kobj (.obj 0)).objSignalCount = 1 := by
  obtain ⟨s, hs, hp⟩ := TransitionSystem.exists_reachableUnder_of_runUnder
    (C := fun _ ev => singleWait (fun _ => .semaphore) ev = true)
    (show (system ℕ (fun _ : ℕ => .semaphore) (fun _ => 0)).init
      (initial (fun _ => .semaphore) (fun _ => 0)) from rfl) timeoutFirstRun
    (fun s => decide ((s.threads 0).pc = .returning .timeout ∧
      (s.kobj (.obj 0)).objSignalCount = 1)) (by decide +kernel)
  obtain ⟨hpc, hcount⟩ := of_decide_eq_true hp
  obtain ⟨-, -, -, hret, -⟩ := single_wait hs
  obtain ⟨hlists, o, -, ⟨hst, -⟩ | ⟨-, hg⟩⟩ := hret 0 _ hpc
  · cases hst
  · exact ⟨s, hs.reachable, hpc, hg, hlists, hcount⟩

end Wait
