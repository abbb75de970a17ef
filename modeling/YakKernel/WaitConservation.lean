/-
# What waiting does with signals

Every signal of a synchronization object is consumed by exactly one wait, is still counted by
the object, or has ended a wait that has not returned yet; and a wait that returns leaves none
of its blocks behind.  For `sched_wait` this holds in every run.  `sched_wait_many` keeps it
as long as it does not return early with blocks still queued.
-/
import YakKernel.WaitSteps

namespace Wait

variable {T O : Type*}

/-! ## Accounts -/

/-- The account of an object: what has been signalled is what has been taken, what is still
counted and what has ended a wait that has not returned.  So far `d` signals have been handed
out and are not yet in the account. -/
def Account (counts : O → ℤ) (s : State T O) (o : O) (d : ℤ) : Prop :=
  ∃ G, Tally (Granted s o) G ∧
    counts o + s.signals o + d = s.taken o + (s.kobj (.obj o)).objSignalCount + G

/-- The accounts of all synchronization objects are balanced. -/
structure Balanced (kinds : O → Kind) (counts : O → ℤ) (s : State T O) : Prop where
  objType : ∀ o, (s.kobj (.obj o)).objType = (kinds o).objType
  account : ∀ o, (kinds o).objType = .objSync → Account counts s o 0

/-- What most steps leave alone. -/
structure Frame (s s' : State T O) : Prop where
  objType : ∀ o, (s'.kobj (.obj o)).objType = (s.kobj (.obj o)).objType
  objSignalCount : ∀ o, (s'.kobj (.obj o)).objSignalCount = (s.kobj (.obj o)).objSignalCount
  signals : s'.signals = s.signals
  taken : s'.taken = s.taken
  grants : ∀ t, (s'.threads t).grants = (s.threads t).grants

variable {kinds : O → Kind} {counts : O → ℤ} {s s' : State T O} {t : T} {o : O} {d : ℤ}

theorem Frame.trans {s'' : State T O} (h : Frame s s') (h' : Frame s' s'') : Frame s s'' where
  objType := fun o => (h'.objType o).trans (h.objType o)
  objSignalCount := fun o => (h'.objSignalCount o).trans (h.objSignalCount o)
  signals := h'.signals.trans h.signals
  taken := h'.taken.trans h.taken
  grants := fun t => (h'.grants t).trans (h.grants t)

theorem Balanced.frame (h : Balanced kinds counts s) (hf : Frame s s') :
    Balanced kinds counts s' where
  objType := fun o => (hf.objType o).trans (h.objType o)
  account := by
    intro o ho
    obtain ⟨G, hG, heq⟩ := h.account o ho
    refine ⟨G, hG.congr (fun u => ?_), ?_⟩
    · unfold Granted
      rw [hf.grants u]
    · rw [hf.signals, hf.taken, hf.objSignalCount]
      exact heq

theorem Account.of_eq {d' : ℤ} (h : Account counts s o d) (hd : d = d') : Account counts s o d' :=
  hd ▸ h

theorem Account.signalled {k : Kptr T O} {m : ℕ} [DecidableEq T] [DecidableEq O]
    (h : Account counts s o d) (hs : Signalled k s s' m) :
    Account counts s' o (if k = .obj o then d + m else d) := by
  obtain ⟨G, hG, heq⟩ := h
  refine ⟨_, hs.granted o G hG, ?_⟩
  rw [hs.same.signals, hs.same.taken, hs.same.objSignalCount]
  split
  · push_cast
    omega
  · exact heq

section Signals

variable [DecidableEq T] [DecidableEq O]

theorem Account.setSignalCount (h : Account counts s o d) (k : Kptr T O) (n : ℤ) :
    Account counts (s.setSignalCount k n) o
      (if k = .obj o then d + n - (s.kobj k).objSignalCount else d) := by
  obtain ⟨G, hG, heq⟩ := h
  refine ⟨G, hG, ?_⟩
  show counts o + s.signals o + _
    = s.taken o + ((s.setSignalCount k n).kobj (.obj o)).objSignalCount + _
  by_cases hk : k = .obj o
  · subst hk
    simp only [if_true, State.setSignalCount, State.modifyKobj_kobj, Function.update_self]
    omega
  · simp only [if_neg hk, State.setSignalCount, State.modifyKobj_kobj,
      Function.update_of_ne (Ne.symm hk)]
    exact heq

omit [DecidableEq T] in
theorem Account.countSignals (h : Account counts s o d) (o' : O) (n : ℕ) :
    Account counts (s.countSignals o' n) o (if o' = o then d - n else d) := by
  obtain ⟨G, hG, heq⟩ := h
  refine ⟨G, hG, ?_⟩
  show counts o + ((s.countSignals o' n).signals o : ℤ) + _
    = s.taken o + (s.kobj (.obj o)).objSignalCount + _
  by_cases ho : o' = o
  · subst ho
    simp only [if_true, State.countSignals_signals, Function.update_self]
    push_cast
    omega
  · simp only [if_neg ho, State.countSignals_signals, Function.update_of_ne (Ne.symm ho)]
    exact heq

theorem objType_setSignalCount (k : Kptr T O) (n : ℤ) (k' : Kptr T O) :
    ((s.setSignalCount k n).kobj k').objType = (s.kobj k').objType := by
  by_cases hk : k' = k
  · subst hk
    simp [State.setSignalCount]
  · simp [State.setSignalCount, hk]

theorem Ok.setSignalCount (h : Ok s) (k : Kptr T O) (n : ℤ) : Ok (s.setSignalCount k n) := by
  refine h.sameLists (fun k' => ?_) (fun _ => rfl) (fun _ => rfl) rfl
  by_cases hk : k' = k
  · subst hk
    simp [State.setSignalCount]
  · simp [State.setSignalCount, hk]

theorem Ok.kobjectSignalLocked (h : Ok s) (k : Kptr T O) (unblockAll : Bool) :
    Signalled k s (Wait.kobjectSignalLocked s k unblockAll).1
      (Wait.kobjectSignalLocked s k unblockAll).2 :=
  h.signalLoop unblockAll _ rfl

/-- Every thread waits for the same objects as before, and none starts to wait. -/
structure SameTable (s s' : State T O) : Prop where
  objects : ∀ t, (s'.threads t).objects = (s.threads t).objects
  many : ∀ t, (s'.threads t).many = (s.threads t).many
  outside : ∀ t, (s.threads t).pc = .outside → (s'.threads t).pc = .outside

/-- What a signal keeps. -/
structure Kept (kinds : O → Kind) (counts : O → ℤ) (s s' : State T O) : Prop where
  ok : Ok s'
  balanced : Balanced kinds counts s'
  table : SameTable s s'

omit [DecidableEq T] [DecidableEq O] in
theorem SameObjects.table {s'' : State T O} (h : SameObjects s s')
    (hth : s''.threads = s'.threads) : SameTable s s'' := by
  refine ⟨fun t => ?_, fun t => ?_, fun t ht => ?_⟩
  · rw [hth]
    exact h.objects t
  · rw [hth]
    exact h.many t
  · rw [hth]
    exact (h.pc t).trans ht

/-- **`semaphore_signal`** wakes one thread or counts the signal. -/
theorem Ok.semaphoreSignal (h : Ok s) (hb : Balanced kinds counts s) (o : O) :
    Kept kinds counts s (Wait.semaphoreSignal s o) := by
  have hs := h.kobjectSignalLocked (.obj o) false
  have hle : (Wait.kobjectSignalLocked s (.obj o) false).2 ≤ 1 := signalLoop_le_one _ _
  unfold Wait.semaphoreSignal
  generalize Wait.kobjectSignalLocked s (.obj o) false = r at hs hle
  simp only
  by_cases hr : r.2 = 0
  · rw [if_pos hr]
    refine ⟨(hs.ok.setSignalCount _ _).of_eq rfl rfl rfl rfl, ⟨fun o' => ?_, fun o' ho' => ?_⟩,
      hs.same.table rfl⟩
    · refine (objType_setSignalCount _ _ _).trans ?_
      exact (hs.same.objType _).trans (hb.objType o')
    · have ha := (((hb.account o' ho').signalled hs).setSignalCount (.obj o)
        ((r.1.kobj (.obj o)).objSignalCount + 1)).countSignals o 1
      refine ha.of_eq ?_
      by_cases ho : o = o'
      · subst ho
        simp only [if_true, hr]
        omega
      · simp [ho]
  · rw [if_neg hr]
    refine ⟨hs.ok.of_eq rfl rfl rfl rfl, ⟨fun o' => ?_, fun o' ho' => ?_⟩,
      hs.same.table rfl⟩
    · exact (hs.same.objType _).trans (hb.objType o')
    · have ha := ((hb.account o' ho').signalled hs).countSignals o 1
      refine ha.of_eq ?_
      by_cases ho : o = o'
      · subst ho
        simp only [if_true]
        omega
      · simp [ho]

/-- An alarm is not lost: not all waiters are stale. -/
def alarmHeard (s : State T O) (o : O) : Prop :=
  (s.kobj (.obj o)).objWaitList ≠ [] →
    ∃ wb ∈ (s.kobj (.obj o)).objWaitList, (s.threads wb.thread).unwaited wb.index = false

/-- **`event_alarm`** wakes somebody or leaves the event signalled. -/
theorem Ok.eventAlarm (h : Ok s) (hb : Balanced kinds counts s) (o : O) (wakeAll : Bool)
    (hheard : (s.kobj (.obj o)).objType = .objSync → (s.kobj (.obj o)).objSignalCount = 0 →
      alarmHeard s o) :
    Kept kinds counts s (Wait.eventAlarm s o wakeAll) := by
  unfold Wait.eventAlarm
  split
  · rename_i hzero
    split
    · rename_i hcount
      split
      · rename_i htype
        have hs := h.kobjectSignalLocked (.obj o) wakeAll
        have hpos : 0 < (Wait.kobjectSignalLocked s (.obj o) wakeAll).2 := by
          refine h.signalLoop_pos wakeAll _ rfl (hheard htype hzero ?_)
          intro hnil
          have hlen := (h.kobj (.obj o)).count
          rw [hnil] at hlen
          exact hcount hlen
        generalize Wait.kobjectSignalLocked s (.obj o) wakeAll = r at hs hpos
        refine ⟨hs.ok.of_eq rfl rfl rfl rfl, ⟨fun o' => ?_, fun o' ho' => ?_⟩,
          hs.same.table rfl⟩
        · exact (hs.same.objType _).trans (hb.objType o')
        · have ha := ((hb.account o' ho').signalled hs).countSignals o (max 1 r.2)
          refine ha.of_eq ?_
          by_cases ho : o = o'
          · subst ho
            simp only [if_true]
            omega
          · simp [ho]
      · rename_i htype
        have hs := h.kobjectSignalLocked (.obj o) true
        generalize Wait.kobjectSignalLocked s (.obj o) true = r at hs
        refine ⟨hs.ok.setSignalCount _ _, ⟨fun o' => ?_, fun o' ho' => ?_⟩,
          hs.same.table rfl⟩
        · refine (objType_setSignalCount _ _ _).trans ?_
          exact (hs.same.objType _).trans (hb.objType o')
        · have hne : o ≠ o' := by
            rintro rfl
            rw [hb.objType o, ho'] at htype
            cases htype
          have ha := ((hb.account o' ho').signalled hs).setSignalCount (.obj o) 1
          exact ha.of_eq (by simp [hne])
    · refine ⟨(h.setSignalCount _ _).of_eq rfl rfl rfl rfl, ⟨fun o' => ?_, fun o' ho' => ?_⟩,
        ⟨fun _ => rfl, fun _ => rfl, fun _ => id⟩⟩
      · exact (objType_setSignalCount _ _ _).trans (hb.objType o')
      · have ha := ((hb.account o' ho').setSignalCount (.obj o) 1).countSignals o 1
        refine ha.of_eq ?_
        by_cases ho : o = o'
        · subst ho
          simp [hzero]
        · simp [ho]
  · exact ⟨h, hb, ⟨fun _ => rfl, fun _ => rfl, fun _ => id⟩⟩

/-- **A timer expires.** -/
theorem Ok.timerSignal (h : Ok s) (hb : Balanced kinds counts s) {k : Kptr T O}
    (hk : ∀ o, k = .obj o → (kinds o).objType = .objNotif) :
    Kept kinds counts s (Wait.timerSignal s k) := by
  obtain ⟨m, hs⟩ : ∃ m, Signalled k s (if (s.kobj k).objWaitCount ≠ 0 then
      (Wait.kobjectSignalLocked s k true).1 else s) m := by
    split
    · exact ⟨_, h.kobjectSignalLocked k true⟩
    · exact ⟨0, Signalled.refl h⟩
  unfold Wait.timerSignal
  refine ⟨hs.ok.setSignalCount _ _, ⟨fun o' => ?_, fun o' ho' => ?_⟩,
    hs.same.table rfl⟩
  · refine (objType_setSignalCount _ _ _).trans ?_
    exact (hs.same.objType _).trans (hb.objType o')
  · have hne : k ≠ .obj o' := by
      intro he
      rw [hk o' he] at ho'
      cases ho'
    have ha := ((hb.account o' ho').signalled hs).setSignalCount k 1
    exact ha.of_eq (by simp [hne])

end Signals

/-! ## The steps of a thread -/

section Threads

variable [DecidableEq T] [DecidableEq O]

omit [DecidableEq O] in
theorem frame_modifyThread {f : Thread T O → Thread T O}
    (hf : (f (s.threads t)).grants = (s.threads t).grants) : Frame s (s.modifyThread t f) := by
  refine ⟨fun _ => rfl, fun _ => rfl, rfl, rfl, fun u => ?_⟩
  by_cases hu : u = t
  · subst hu
    simp [hf]
  · simp [hu]

theorem frame_modifyKobj {k : Kptr T O} {f : Kobj T → Kobj T}
    (htype : (f (s.kobj k)).objType = (s.kobj k).objType)
    (hcount : ∀ o, k = .obj o → (f (s.kobj k)).objSignalCount = (s.kobj k).objSignalCount) :
    Frame s (s.modifyKobj k f) := by
  refine ⟨fun o => ?_, fun o => ?_, rfl, rfl, fun _ => rfl⟩
  · by_cases hk : k = .obj o
    · subst hk
      simp [htype]
    · simp [Ne.symm hk]
  · by_cases hk : k = .obj o
    · subst hk
      simp [hcount o rfl]
    · simp [Ne.symm hk]

omit [DecidableEq O] in
theorem frame_modifyTimer {f : Timer → Timer} : Frame s (s.modifyTimer t f) :=
  ⟨fun _ => rfl, fun _ => rfl, rfl, rfl, fun _ => rfl⟩

omit [DecidableEq T] [DecidableEq O] in
theorem frame_refl (s : State T O) : Frame s s :=
  ⟨fun _ => rfl, fun _ => rfl, rfl, rfl, fun _ => rfl⟩

omit [DecidableEq T] [DecidableEq O] in
theorem frame_panic (s : State T O) : Frame s s.panic :=
  ⟨fun _ => rfl, fun _ => rfl, rfl, rfl, fun _ => rfl⟩

theorem frame_setTimeout (s : State T O) (t : T) : Frame s (setTimeout s t) := by
  unfold setTimeout
  split
  · exact frame_panic s
  · have h1 : Frame s (s.setSignalCount (.timer t) 0) := frame_modifyKobj rfl nofun
    refine Frame.trans ?_ (frame_modifyKobj rfl (fun _ _ => rfl))
    split
    · exact h1
    · exact (h1.trans frame_modifyTimer).trans (frame_modifyKobj rfl nofun)

theorem frame_wbDequeue (s : State T O) (t : T) (index : Option ℕ) :
    Frame s (wbDequeue s t index) := by
  unfold wbDequeue
  split
  · exact frame_refl s
  · split
    · exact frame_panic s
    · split
      · exact frame_modifyKobj rfl (fun _ _ => rfl)
      · exact frame_panic s

theorem frame_runTask (s : State T O) (t : T) (aborted : Bool) (task : Task) (todo : List Task) :
    Frame s (runTask s t aborted task todo) := by
  unfold runTask
  split
  · exact (frame_wbDequeue s t _).trans (frame_modifyThread rfl)
  · split <;> exact frame_modifyThread rfl
  · split
    · exact frame_modifyTimer.trans (frame_modifyThread rfl)
    · exact frame_modifyThread rfl

/-- A signal that a thread takes itself moves from the object to the thread. -/
theorem Balanced.acquire (h : Balanced kinds counts s) (hg : (s.threads t).grants = [])
    {f : Thread T O → Thread T O} {status : WaitStatus}
    (hf : (f (s.threads t)).grants = [(.obj o, status)]) :
    Balanced kinds counts ((s.modifyKobj (.obj o) Kobj.objMaybeAcquire).modifyThread t f) := by
  have hacq : ∀ obj : Kobj T, obj.objMaybeAcquire.objType = obj.objType ∧
      (obj.objType = .objSync →
        obj.objMaybeAcquire.objSignalCount = obj.objSignalCount - 1) := by
    intro obj
    unfold Kobj.objMaybeAcquire
    split
    · exact ⟨rfl, fun _ => rfl⟩
    · rename_i htype
      refine ⟨rfl, fun hs => ?_⟩
      rw [hs] at htype
      cases htype
  have hnot : ∀ o', ¬ Granted s o' t := by
    rintro o' ⟨g, hmem, -⟩
    rw [hg] at hmem
    cases hmem
  have hgr : ∀ o' u, Granted ((s.modifyKobj (.obj o) Kobj.objMaybeAcquire).modifyThread t f) o' u ↔
      (u = t ∧ o = o') ∨ Granted s o' u := by
    intro o' u
    by_cases hu : u = t
    · subst hu
      unfold Granted
      simp only [State.modifyThread_threads, State.modifyKobj_threads, Function.update_self, hf, hg]
      simp
    · unfold Granted
      simp [hu]
  refine ⟨fun o' => ?_, fun o' ho' => ?_⟩
  · rw [← h.objType o']
    by_cases ho : o' = o
    · subst ho
      simp [hacq]
    · simp [ho]
  · obtain ⟨G, hG, heq⟩ := h.account o' ho'
    by_cases ho : o = o'
    · subst ho
      refine ⟨G + 1, hG.insert (hnot o) (fun u => ?_), ?_⟩
      · rw [hgr]
        simp
      · have htype := (h.objType o).trans ho'
        show _ = (s.taken o : ℤ) + _ + _
        simp only [State.modifyThread_kobj, State.modifyKobj_kobj, Function.update_self,
          (hacq _).2 htype]
        push_cast
        show counts o + s.signals o + 0 = _
        omega
    · refine ⟨G, hG.congr (fun u => ?_), ?_⟩
      · rw [hgr]
        simp [ho]
      · show _ = (s.taken o' : ℤ) + _ + _
        simp only [State.modifyThread_kobj, State.modifyKobj_kobj,
          Function.update_of_ne (show Kptr.obj o' ≠ .obj o from fun he => ho (Kptr.obj.inj he).symm)]
        exact heq

omit [DecidableEq T] [DecidableEq O] in
theorem named_iff {th : Thread T O} {g : Kptr T O × WaitStatus}
    (hsingle : th.many = false → th.objects.length ≤ 1) (hg : th.Names t g) (o : O) :
    th.named g.2 = some o ↔ g.1 = .obj o := by
  obtain ⟨index, ho, hs⟩ := hg
  rw [hs]
  cases index with
  | none =>
    have hk : g.1 = .timer t := (Option.some.inj ho).symm
    rw [hk]
    exact iff_of_false nofun nofun
  | some i =>
    simp only [Thread.object, Option.map_eq_some_iff] at ho
    obtain ⟨o', ho', hk⟩ := ho
    rw [← hk]
    have hnamed : th.named (th.blockStatus (some i)) = some o' := by
      cases hm : th.many with
      | true => simp [Thread.blockStatus, Thread.named, hm, ho']
      | false =>
        have hi := (List.getElem?_eq_some_iff.mp ho').1
        have hle := hsingle hm
        obtain rfl : i = 0 := by omega
        simp [Thread.blockStatus, Thread.named, hm, ho']
    rw [hnamed]
    constructor
    · intro h
      rw [Option.some.inj h]
    · intro h
      rw [Kptr.obj.inj h]

theorem Balanced.returning (h : Balanced kinds counts s) {g : Kptr T O × WaitStatus}
    (hg : (s.threads t).grants = [g]) {f : Thread T O → Thread T O}
    (hf : (f (s.threads t)).grants = []) {s₁ : State T O} (hth : s₁.threads = s.threads)
    (hk : s₁.kobj = s.kobj) (hsig : s₁.signals = s.signals)
    (htaken : ∀ o, s₁.taken o = if g.1 = .obj o then s.taken o + 1 else s.taken o) :
    Balanced kinds counts (s₁.modifyThread t f) := by
  have hgr : ∀ o u, Granted (s₁.modifyThread t f) o u ↔ u ≠ t ∧ Granted s o u := by
    intro o u
    unfold Granted
    by_cases hu : u = t
    · subst hu
      simp [hth, hf]
    · simp [hu, hth]
  have hself : ∀ o, Granted s o t ↔ g.1 = .obj o := by
    intro o
    unfold Granted
    rw [hg]
    simp
  refine ⟨fun o => ?_, fun o ho => ?_⟩
  · rw [← h.objType o, ← hk]
    rfl
  · obtain ⟨G, hG, heq⟩ := h.account o ho
    by_cases he : g.1 = .obj o
    · have hpos := hG.pos ((hself o).mpr he)
      obtain ⟨n, rfl⟩ : ∃ n, G = n + 1 := ⟨G - 1, by omega⟩
      refine ⟨n, hG.erase ((hself o).mpr he) (hgr o), ?_⟩
      show counts o + (s₁.signals o : ℤ) + 0 = s₁.taken o + (s₁.kobj (.obj o)).objSignalCount + n
      rw [hk, hsig, htaken, if_pos he]
      push_cast at heq ⊢
      omega
    · refine ⟨G, hG.congr (fun u => ?_), ?_⟩
      · rw [hgr]
        refine ⟨fun hu => hu.2, fun hu => ⟨?_, hu⟩⟩
        rintro rfl
        exact he ((hself o).mp hu)
      · show counts o + (s₁.signals o : ℤ) + 0 = s₁.taken o + (s₁.kobj (.obj o)).objSignalCount + G
        rw [hk, hsig, htaken, if_neg he]
        exact heq

/-- **Step lemma for the accounts**, unless a thread finds a later object signalled. -/
theorem Balanced.runPc (h : Balanced kinds counts s) (hok : Ok s)
    (htame : ∀ i o, (s.threads t).pc = .enqueue (i + 1) → (s.threads t).objects[i + 1]? = some o →
      (s.kobj (.obj o)).isObjSignaled = false)
    (hs : Wait.runPc s t = some s') : Balanced kinds counts s' ∧ SameTable s s' := by
  have hne : (s.threads t).pc ≠ .outside := by
    intro hpc
    simp [Wait.runPc, hpc] at hs
  have hmod : ∀ (s₁ : State T O) (f : Thread T O → Thread T O), s₁.threads = s.threads →
      (f (s.threads t)).objects = (s.threads t).objects →
      (f (s.threads t)).many = (s.threads t).many → SameTable s (s₁.modifyThread t f) := by
    intro s₁ f hth hobj hmany
    refine ⟨fun u => ?_, fun u => ?_, fun u hu => ?_⟩
    · by_cases hu : u = t
      · subst hu
        simp [hth, hobj]
      · simp [hth, hu]
    · by_cases hu : u = t
      · subst hu
        simp [hth, hmany]
      · simp [hth, hu]
    · have hut : u ≠ t := by
        rintro rfl
        exact hne hu
      simp [hth, hut, hu]
  cases hpc : (s.threads t).pc with
  | outside => exact absurd hpc hne
  | setup =>
    simp only [Wait.runPc, hpc, Option.some.injEq] at hs
    subst hs
    exact ⟨h.frame (frame_modifyThread rfl), hmod s _ rfl rfl rfl⟩
  | enqueue i =>
    cases ho : (s.threads t).objects[i]? with
    | none => simp [Wait.runPc, hpc, ho] at hs
    | some o =>
      simp only [Wait.runPc, hpc, ho, Option.some.injEq] at hs
      subst hs
      unfold enqueueOne
      simp only
      split
      · rename_i hsig
        have hg : (s.threads t).grants = [] := by
          have hsh := (hok.threads t).shape
          unfold Thread.Shape at hsh
          simp only [hpc] at hsh
          cases i with
          | zero => exact hsh.2.2.2.1 rfl
          | succ i =>
            rw [htame i o hpc ho] at hsig
            cases hsig
        have hf : (s.threads t).grants ++ [(.obj o, (s.threads t).blockStatus (some i))]
            = [(.obj o, (s.threads t).blockStatus (some i))] := by
          rw [hg]
          rfl
        exact ⟨h.acquire hg hf, hmod _ _ rfl rfl rfl⟩
      · refine ⟨h.frame ?_, hmod _ _ rfl rfl rfl⟩
        exact (frame_modifyKobj rfl (fun _ _ => rfl)).trans (frame_modifyThread rfl)
  | found i =>
    simp only [Wait.runPc, hpc, Option.some.injEq] at hs
    subst hs
    exact ⟨h.frame (frame_modifyThread rfl), hmod s _ rfl rfl rfl⟩
  | arming =>
    simp only [Wait.runPc, hpc, Option.some.injEq] at hs
    subst hs
    have hth : (setTimeout s t).threads = s.threads := by
      unfold setTimeout
      split
      · rfl
      · simp only
        split <;> rfl
    refine ⟨h.frame ((frame_setTimeout s t).trans (frame_modifyThread rfl)), hmod _ _ hth ?_ ?_⟩
    · rfl
    · rfl
  | committing =>
    simp only [Wait.runPc, hpc] at hs
    split at hs
    · cases hs
      exact ⟨h.frame (frame_modifyThread rfl), hmod s _ rfl rfl rfl⟩
    · cases hs
      exact ⟨h.frame (frame_modifyThread rfl), hmod s _ rfl rfl rfl⟩
  | waiting =>
    simp only [Wait.runPc, hpc, Option.some.injEq] at hs
    subst hs
    exact ⟨h.frame (frame_modifyThread rfl), hmod s _ rfl rfl rfl⟩
  | cleanup aborted todo =>
    cases todo with
    | cons task todo =>
      simp only [Wait.runPc, hpc, Option.some.injEq] at hs
      subst hs
      refine ⟨h.frame (frame_runTask s t aborted task todo), ?_⟩
      have hth : ∀ index, (wbDequeue s t index).threads = s.threads := by
        intro index
        unfold wbDequeue
        split
        · rfl
        · split
          · rfl
          · split <;> rfl
      unfold runTask
      split
      · rename_i index
        exact hmod _ _ (hth index) rfl rfl
      · split <;> exact hmod s _ rfl rfl rfl
      · split
        · exact hmod _ _ rfl rfl rfl
        · exact hmod s _ rfl rfl rfl
    | nil =>
      cases aborted with
      | true =>
        simp only [Wait.runPc, hpc, Option.some.injEq] at hs
        subst hs
        exact ⟨h.frame (frame_modifyThread rfl), hmod s _ rfl rfl rfl⟩
      | false =>
        simp only [Wait.runPc, hpc, Option.some.injEq] at hs
        subst hs
        exact ⟨h.frame (frame_modifyThread rfl), hmod s _ rfl rfl rfl⟩
  | returning status =>
    have hsh := (hok.threads t).shape
    unfold Thread.Shape at hsh
    simp only [hpc] at hsh
    obtain ⟨-, g, hg, hn, rfl⟩ := hsh
    have hnamed := named_iff (hok.threads t).single hn
    simp only [Wait.runPc, hpc, Option.some.injEq] at hs
    subst hs
    split
    · rename_i o ho
      refine ⟨h.returning hg rfl rfl rfl rfl (fun o' => ?_), hmod _ _ rfl rfl rfl⟩
      by_cases hoo : o' = o
      · subst hoo
        rw [if_pos ((hnamed o').mp ho)]
        simp
      · rw [if_neg (fun he => hoo (Option.some.inj (((hnamed o').mpr he).symm.trans ho)))]
        simp [hoo]
    · rename_i hnone
      refine ⟨h.returning hg rfl rfl rfl rfl (fun o' => ?_), hmod _ _ rfl rfl rfl⟩
      rw [if_neg (fun he => by cases ((hnamed o').mpr he).symm.trans hnone)]

end Threads

end Wait
