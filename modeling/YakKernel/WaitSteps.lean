/-
# The steps of a waiting thread

Every step that a thread takes through a wait keeps the invariant of `WaitInvariant`.  The
only step that does not is the one that finds an object signalled after earlier blocks have
been queued: `sched_wait_many` then returns with these blocks still on their lists.
-/
import YakKernel.WaitInvariant

namespace Wait

variable {T O : Type*} [DecidableEq T] [DecidableEq O] {s s' : State T O} {t : T}

/-! ## Steps that only change the thread -/

omit [DecidableEq O] in
theorem Ok.modifyThread (h : Ok s) (t : T) (f : Thread T O → Thread T O)
    (hmem : ∀ index k, ((f (s.threads t)).object t index = some k ∧
        (f (s.threads t)).Linked index ∧ (f (s.threads t)).dequeued index = false) ↔
      ((s.threads t).object t index = some k ∧ (s.threads t).Linked index ∧
        (s.threads t).dequeued index = false))
    (hshape : (f (s.threads t)).Shape t) (htimer : TimerOk (f (s.threads t)) (s.timers t))
    (hsingle : (f (s.threads t)).many = false → (f (s.threads t)).objects.length ≤ 1) :
    Ok (s.modifyThread t f) := by
  have hself : (s.modifyThread t f).threads t = f (s.threads t) := Function.update_self _ _ _
  refine h.of_thread t ⟨?_, ?_, ?_, ?_⟩ (fun u hu => Function.update_of_ne hu _ _)
    (fun _ _ => rfl) (fun _ _ _ _ => Iff.rfl) h.kobj h.panicked
  · intro index k
    rw [hself, hmem]
    exact (h.threads t).mem_iff index k
  · rwa [hself]
  · rwa [hself]
  · rwa [hself]

omit [DecidableEq O] in
theorem Ok.modifyThread_unlinked (h : Ok s) (t : T) (f : Thread T O → Thread T O)
    (hbefore : ∀ index, ¬ (s.threads t).Linked index)
    (hafter : ∀ index, ¬ (f (s.threads t)).Linked index)
    (hshape : (f (s.threads t)).Shape t) (htimer : TimerOk (f (s.threads t)) (s.timers t))
    (hsingle : (f (s.threads t)).many = false → (f (s.threads t)).objects.length ≤ 1) :
    Ok (s.modifyThread t f) :=
  h.modifyThread t f
    (fun index _ => iff_of_false (fun hm => hafter index hm.2.1) (fun hm => hbefore index hm.2.1))
    hshape htimer hsingle

omit [DecidableEq T] [DecidableEq O] in
theorem TimerOk.idle {th th' : Thread T O} {timer : Timer} (h : TimerOk th timer)
    (hne : timer.state ≠ .queued) : TimerOk th' timer :=
  ⟨h.installed, fun hq => absurd hq hne⟩

omit [DecidableEq O] in
/-- **Entering a wait.** -/
theorem Ok.call (h : Ok s) {objects : List O} {many hasTimeout : Bool}
    (hsingle : many = false → objects.length ≤ 1)
    (hs : s.call t objects many hasTimeout = some s') : Ok s' := by
  unfold State.call at hs
  split at hs
  · rename_i hc
    obtain ⟨hpc, hrun, hne⟩ := hc
    have hsh := (h.threads t).shape
    have htm := (h.threads t).timer
    unfold Thread.Shape at hsh
    simp only [hpc] at hsh
    have hidle := htm.not_queued (by rw [hpc]; rfl)
    cases hs
    refine h.modifyThread_unlinked t _ ?_ ?_ ?_ (htm.idle hidle) hsingle
    · intro index hl
      unfold Thread.Linked at hl
      simp only [hpc] at hl
    · exact fun index hl => hl
    · refine ⟨hsh.1, hrun, hne, ?_⟩
      intro i hi
      have hi' : i < objects.length := hi
      simp [hi']
  · cases hs

/-! ## Setting the wait up -/

theorem Ok.setup (h : Ok s) (hpc : (s.threads t).pc = .setup) (hs : runPc s t = some s') :
    Ok s' := by
  have hsh := (h.threads t).shape
  have htm := (h.threads t).timer
  unfold Thread.Shape at hsh
  simp only [hpc] at hsh
  obtain ⟨hg, hrun, hne, hfresh⟩ := hsh
  have hidle := htm.not_queued (by rw [hpc]; rfl)
  simp only [runPc, hpc] at hs
  cases hs
  refine h.modifyThread_unlinked t _ ?_ ?_ ?_ (htm.idle hidle) (h.threads t).single
  · intro index hl
    unfold Thread.Linked at hl
    simp only [hpc] at hl
  · rintro index ⟨j, hj, -⟩
    exact Nat.not_lt_zero j hj
  · refine ⟨⟨?_, ?_, ?_, Or.inl hg⟩, ⟨hrun, fun _ => rfl, fun hn => absurd hg hn⟩,
      List.length_pos_iff.mpr hne, fun _ => hg, ?_, by simp⟩
    · intro index hin
      refine iff_of_false ?_ (fun hn => hn hg)
      cases index with
      | none => simp
      | some i => simp [(hfresh i hin).2]
    · rintro index ⟨j, hj, -⟩
      exact absurd hj (Nat.not_lt_zero j)
    · rintro - index ⟨j, hj, -⟩
      exact absurd hj (Nat.not_lt_zero j)
    · intro j _ hj
      simp [(hfresh j hj).1]

omit [DecidableEq T] [DecidableEq O] in
theorem Thread.object_some {th : Thread T O} {i : ℕ} {o : O} (ho : th.objects[i]? = some o) :
    th.object t (some i) = some (.obj o) := by
  simp [Thread.object, ho]

theorem Ok.pushBlock (h : Ok s) (t : T) (f : Thread T O → Thread T O) {k : Kptr T O}
    {index : Option ℕ} (obj : Kobj T) (tm : Timer)
    (hlist : obj.objWaitList = (s.kobj k).objWaitList ++ [⟨t, index⟩])
    (hcount : obj.objWaitCount = (s.kobj k).objWaitCount + 1)
    (hnew : ⟨t, index⟩ ∉ (s.kobj k).objWaitList)
    (hobj : (s.threads t).object t index = some k)
    (hsame : ∀ index', (f (s.threads t)).object t index' = (s.threads t).object t index')
    (hdeq : (f (s.threads t)).dequeued = (s.threads t).dequeued)
    (hfresh : (s.threads t).dequeued index = false)
    (hlinked : ∀ index', (f (s.threads t)).Linked index' ↔
      (s.threads t).Linked index' ∨ index' = index)
    (hshape : (f (s.threads t)).Shape t) (htimer : TimerOk (f (s.threads t)) tm)
    (hsingle : (f (s.threads t)).many = false → (f (s.threads t)).objects.length ≤ 1)
    (hs : s' = ((s.modifyKobj k (fun _ => obj)).modifyTimer t (fun _ => tm)).modifyThread t f) :
    Ok s' := by
  have hk : s'.kobj = Function.update s.kobj k obj := by
    rw [hs]
    rfl
  have hself : s'.threads t = f (s.threads t) := by
    rw [hs]
    exact Function.update_self _ _ _
  have hmem : ∀ b k', b ∈ (s'.kobj k').objWaitList ↔
      b ∈ (s.kobj k').objWaitList ∨ (k' = k ∧ b = ⟨t, index⟩) := by
    intro b k'
    rw [hk]
    by_cases hkk : k' = k
    · subst hkk
      rw [Function.update_self, hlist, List.mem_append, List.mem_singleton]
      simp
    · rw [Function.update_of_ne hkk]
      simp [hkk]
  refine h.of_thread t ⟨?_, ?_, ?_, ?_⟩ ?_ ?_ ?_ ?_ ?_
  · intro index' k'
    rw [hmem, (h.threads t).mem_iff, hself, hsame, hdeq, hlinked]
    constructor
    · rintro (⟨ho, hl, hd⟩ | ⟨rfl, he⟩)
      · exact ⟨ho, Or.inl hl, hd⟩
      · obtain rfl : index' = index := congrArg Block.index he
        exact ⟨hobj, Or.inr rfl, hfresh⟩
    · rintro ⟨ho, hl | rfl, hd⟩
      · exact Or.inl ⟨ho, hl, hd⟩
      · exact Or.inr ⟨Option.some.inj (ho.symm.trans hobj), rfl⟩
  · rwa [hself]
  · rw [hself]
    rw [show s'.timers t = tm by rw [hs]; exact Function.update_self _ _ _]
    exact htimer
  · rwa [hself]
  · intro u hu
    rw [hs]
    exact Function.update_of_ne hu _ _
  · intro u hu
    rw [hs]
    exact Function.update_of_ne hu _ _
  · intro u hu index' k'
    rw [hmem]
    refine ⟨fun hb => hb.resolve_right ?_, Or.inl⟩
    rintro ⟨-, he⟩
    exact hu (congrArg Block.thread he)
  · intro k'
    rw [hk]
    by_cases hkk : k' = k
    · subst hkk
      rw [Function.update_self]
      refine ⟨?_, ?_⟩
      · rw [hcount, hlist, List.length_append, (h.kobj k').count]
        rfl
      · rw [hlist, List.nodup_append]
        refine ⟨(h.kobj k').nodup, List.nodup_singleton _, ?_⟩
        rintro b hb _ hc rfl
        rw [List.mem_singleton] at hc
        exact hnew (hc ▸ hb)
    · rw [Function.update_of_ne hkk]
      exact h.kobj k'
  · rw [hs]
    exact h.panicked

omit [DecidableEq T] [DecidableEq O] in
/-- The end of the setup: the thread is not asleep and no grant has been missed. -/
theorem Thread.SettingUp.congr {th th' : Thread T O} (h : th.SettingUp)
    (hst : th'.status = th.status) (hph : th'.waitPhase = th.waitPhase)
    (hg : th'.grants = th.grants) : th'.SettingUp := by
  refine ⟨hst.trans h.running, ?_, ?_⟩
  · rw [hph, hg]
    exact h.inProgress
  · rw [hph, hg]
    exact h.aborted

omit [DecidableEq T] [DecidableEq O] in
theorem Thread.InWait.push {th th' : Thread T O} (h : th.InWait t) {index : Option ℕ}
    (hin : th.InTable index) (hfresh : th.dequeued index = false)
    (hlinked : ∀ index', th'.Linked index' ↔ th.Linked index' ∨ index' = index)
    (hobj : th'.objects = th.objects) (hmany : th'.many = th.many)
    (hunw : th'.unwaited = th.unwaited) (hdeq : th'.dequeued = th.dequeued)
    (hg : th'.grants = th.grants) (hst : th'.waitStatus = th.waitStatus) : th'.InWait t := by
  have hintable : ∀ index', th'.InTable index' ↔ th.InTable index' := by
    intro index'
    cases index' with
    | none => exact Iff.rfl
    | some i => simp only [Thread.InTable, hobj]
  refine ⟨?_, ?_, ?_, ?_⟩
  · intro index' hin'
    rw [hunw, hg]
    exact h.unwaited index' ((hintable index').mp hin')
  · intro index' hl
    rw [hintable]
    rcases (hlinked index').mp hl with hl | rfl
    · exact h.inTable index' hl
    · exact hin
  · intro h0 index' hl
    rw [hdeq]
    rcases (hlinked index').mp hl with hl | rfl
    · exact h.live (hg ▸ h0) index' hl
    · exact hfresh
  · rw [hg, hst]
    rcases h.grants with h0 | ⟨g, hgr, ⟨index', ho, hs⟩, hw⟩
    · exact Or.inl h0
    · refine Or.inr ⟨g, hgr, ⟨index', ?_, ?_⟩, hw⟩
      · rw [← ho]
        cases index' with
        | none => rfl
        | some i => simp only [Thread.object, hobj]
      · rw [hs]
        cases index' with
        | none => rfl
        | some i => simp only [Thread.blockStatus, hmany]

/-- **A block is queued** on an object that is not signalled. -/
theorem Ok.enqueue (h : Ok s) {i : ℕ} {o : O} (hpc : (s.threads t).pc = .enqueue i)
    (ho : (s.threads t).objects[i]? = some o) (hno : (s.kobj (.obj o)).isObjSignaled = false) :
    Ok (enqueueOne s t i o) := by
  have hsh := (h.threads t).shape
  have htm := (h.threads t).timer
  unfold Thread.Shape at hsh
  simp only [hpc] at hsh
  obtain ⟨hw, hset, hi, h0, hfresh, hnone⟩ := hsh
  have hidle := htm.not_queued (by rw [hpc]; rfl)
  have hold : ∀ index, (s.threads t).Linked index ↔ ∃ j, j < i ∧ index = some j := by
    intro index
    unfold Thread.Linked
    simp only [hpc]
  have hnew : ⟨t, some i⟩ ∉ (s.kobj (.obj o)).objWaitList := by
    intro hm
    obtain ⟨j, hj, he⟩ := (hold _).mp (((h.threads t).mem_iff _ _).mp hm).2.1
    have := Option.some.inj he
    omega
  have hsplit : ∀ index : Option ℕ, (∃ j, j < i + 1 ∧ index = some j) ↔
      (∃ j, j < i ∧ index = some j) ∨ index = some i := by
    intro index
    constructor
    · rintro ⟨j, hj, rfl⟩
      rcases Nat.lt_succ_iff_lt_or_eq.mp hj with hj | rfl
      · exact Or.inl ⟨j, hj, rfl⟩
      · exact Or.inr rfl
    · rintro (⟨j, hj, rfl⟩ | rfl)
      · exact ⟨j, by omega, rfl⟩
      · exact ⟨i, by omega, rfl⟩
  unfold enqueueOne
  simp only [hno, Bool.false_eq_true, if_false]
  -- where the thread goes depends on whether this was the last object
  have hpush : ∀ pc, (∀ index, ({ s.threads t with pc := pc } : Thread T O).Linked index ↔
        (s.threads t).Linked index ∨ index = some i) →
      (({ s.threads t with pc := pc } : Thread T O).InWait t →
        ({ s.threads t with pc := pc } : Thread T O).SettingUp →
        ({ s.threads t with pc := pc } : Thread T O).Shape t) →
      Ok ((s.modifyKobj (.obj o) (fun obj => { obj with
        objWaitList := obj.objWaitList ++ [⟨t, some i⟩],
        objWaitCount := obj.objWaitCount + 1 })).setPc t pc) := by
    intro pc hlinked hshape
    have hin : (s.threads t).InTable (some i) := hi
    refine h.pushBlock t (fun th => { th with pc := pc })
      { s.kobj (.obj o) with
        objWaitList := (s.kobj (.obj o)).objWaitList ++ [⟨t, some i⟩]
        objWaitCount := (s.kobj (.obj o)).objWaitCount + 1 } (s.timers t) rfl rfl hnew
      (Thread.object_some ho) (fun index => ?_) rfl (hfresh i le_rfl hi) hlinked
      (hshape (hw.push hin (hfresh i le_rfl hi) hlinked rfl rfl rfl rfl rfl rfl)
        (hset.congr rfl rfl rfl)) (htm.idle hidle) (h.threads t).single ?_
    · cases index <;> rfl
    · unfold State.setPc State.modifyTimer State.modifyThread State.modifyKobj
      simp only [Function.update_eq_self]
  split
  · rename_i hlt
    refine hpush _ ?_ ?_
    · intro index
      rw [hold]
      exact hsplit index
    · intro hw' hset'
      refine ⟨hw', hset', hlt, fun hz => absurd hz (Nat.succ_ne_zero i), ?_, hnone⟩
      exact fun j hj hjn => hfresh j (by omega) hjn
  · rename_i hlast
    have hlen : (s.threads t).objects.length = i + 1 := by omega
    split
    · rename_i htime
      refine hpush _ ?_ ?_
      · intro index
        rw [hold]
        show (∃ j, j < (s.threads t).objects.length ∧ index = some j) ↔ _
        rw [hlen]
        exact hsplit index
      · exact fun hw' hset' => ⟨hw', hset', hnone, htime⟩
    · rename_i htime
      refine hpush _ ?_ ?_
      · intro index
        rw [hold]
        show (∃ j, j < (s.threads t).objects.length ∧ index = some j) ∨
          (index = none ∧ (s.threads t).hasTimeout = true) ↔ _
        rw [hlen, hsplit index]
        exact or_iff_left (fun hn => htime hn.2)
      · exact fun hw' hset' => ⟨hw', hset'⟩

/-- **The first object is signalled already.** -/
theorem Ok.acquire (h : Ok s) {o : O} (hpc : (s.threads t).pc = .enqueue 0)
    (ho : (s.threads t).objects[0]? = some o) (hsig : (s.kobj (.obj o)).isObjSignaled = true) :
    Ok (enqueueOne s t 0 o) := by
  have hsh := (h.threads t).shape
  have htm := (h.threads t).timer
  unfold Thread.Shape at hsh
  simp only [hpc] at hsh
  obtain ⟨-, hset, -, h0, -, -⟩ := hsh
  have hidle := htm.not_queued (by rw [hpc]; rfl)
  have hacq : ∀ obj : Kobj T, obj.objMaybeAcquire.objWaitList = obj.objWaitList ∧
      obj.objMaybeAcquire.objWaitCount = obj.objWaitCount := by
    intro obj
    unfold Kobj.objMaybeAcquire
    split <;> exact ⟨rfl, rfl⟩
  have h1 : Ok (s.modifyKobj (.obj o) Kobj.objMaybeAcquire) := by
    refine h.sameLists (fun k => ?_) (fun _ => rfl) (fun _ => rfl) rfl
    by_cases hk : k = .obj o
    · subst hk
      simp [hacq]
    · simp [hk]
  unfold enqueueOne
  simp only [hsig, if_true]
  refine h1.modifyThread_unlinked t _ ?_ ?_ ?_ (htm.idle hidle) (h.threads t).single
  · intro index hl
    unfold Thread.Linked at hl
    simp only [State.modifyKobj_threads, hpc] at hl
    obtain ⟨j, hj, -⟩ := hl
    exact Nat.not_lt_zero j hj
  · exact fun index hl => hl
  · refine ⟨hset.running, o, ho, ?_⟩
    show (s.threads t).grants ++ [_] = _
    rw [h0 trivial]
    rfl

theorem Ok.found (h : Ok s) {i : ℕ} (hpc : (s.threads t).pc = .found i)
    (hs : runPc s t = some s') : Ok s' := by
  have hsh := (h.threads t).shape
  have htm := (h.threads t).timer
  unfold Thread.Shape at hsh
  simp only [hpc] at hsh
  obtain ⟨hrun, o, ho, hg⟩ := hsh
  simp only [runPc, hpc] at hs
  cases hs
  refine h.modifyThread_unlinked t _ ?_ (fun _ hl => hl) ?_
    (htm.idle (htm.not_queued (by rw [hpc]; rfl))) (h.threads t).single
  · intro index hl
    unfold Thread.Linked at hl
    simp only [hpc] at hl
  · exact ⟨hrun, _, hg, ⟨some i, Thread.object_some ho, rfl⟩, rfl⟩

omit [DecidableEq T] [DecidableEq O] in
theorem Ok.timer_list (h : Ok s) (hl : ¬ (s.threads t).Linked none) :
    (s.kobj (.timer t)).objWaitList = [] := by
  rw [List.eq_nil_iff_forall_not_mem]
  rintro ⟨u, index⟩ hm
  obtain ⟨ho, hl', -⟩ := ((h.threads u).mem_iff index _).mp hm
  cases index with
  | none =>
    obtain rfl : u = t := by
      have := Option.some.inj ho
      exact Kptr.timer.inj this
    exact hl hl'
  | some i =>
    simp only [Thread.object, Option.map_eq_some_iff] at ho
    obtain ⟨o, -, ho⟩ := ho
    cases ho

/-- **The timeout is set.** -/
theorem Ok.arming (h : Ok s) (hpc : (s.threads t).pc = .arming) (hs : runPc s t = some s') :
    Ok s' := by
  have hsh := (h.threads t).shape
  have htm := (h.threads t).timer
  unfold Thread.Shape at hsh
  simp only [hpc] at hsh
  obtain ⟨hw, hset, hnone, htime⟩ := hsh
  have hidle := htm.not_queued (by rw [hpc]; rfl)
  have hinst : (s.timers t).installed = false := by
    cases hi : (s.timers t).installed with
    | false => rfl
    | true => exact absurd (htm.installed.mp hi) hidle
  have hnl : ¬ (s.threads t).Linked none := by
    unfold Thread.Linked
    simp only [hpc]
    rintro ⟨j, -, hj⟩
    cases hj
  have hlinked : ∀ index, ({ s.threads t with pc := .committing } : Thread T O).Linked index ↔
      (s.threads t).Linked index ∨ index = none := by
    intro index
    unfold Thread.Linked
    simp only [hpc, htime, and_true]
  have hin : (s.threads t).InTable none := trivial
  have hcount := (h.kobj (.timer t)).count
  rw [h.timer_list hnl] at hcount
  simp only [runPc, hpc] at hs
  cases hs
  refine h.pushBlock t (fun th => { th with pc := .committing })
    { s.kobj (.timer t) with
      objSignalCount := 0
      objWaitList := (s.kobj (.timer t)).objWaitList ++ [⟨t, none⟩]
      objWaitCount := 1 } ⟨.queued, true⟩ rfl (by rw [hcount]; rfl)
    (fun hm => hnl (((h.threads t).mem_iff _ _).mp hm).2.1) rfl (fun index => ?_) rfl hnone hlinked
    ⟨hw.push hin hnone hlinked rfl rfl rfl rfl rfl rfl, hset.congr rfl rfl rfl⟩
    ⟨iff_of_true rfl rfl, fun _ => htime⟩ (h.threads t).single ?_
  · cases index <;> rfl
  · unfold setTimeout
    rw [if_neg hidle]
    have hne : (s.timers t).installed ≠ true := by
      rw [hinst]
      exact nofun
    simp only [State.setSignalCount, State.modifyKobj_timers, if_neg hne]
    unfold State.setPc State.modifyTimer State.modifyThread State.modifyKobj
    simp only [Function.update_self, Function.update_idem]

/-! ## Falling asleep and waking up -/

omit [DecidableEq T] [DecidableEq O] in
theorem Thread.InWait.setPc {th th' : Thread T O} (h : th.InWait t)
    (hlinked : ∀ index, th'.Linked index → th.Linked index)
    (hobj : th'.objects = th.objects) (hmany : th'.many = th.many)
    (hunw : th'.unwaited = th.unwaited) (hdeq : th'.dequeued = th.dequeued)
    (hg : th'.grants = th.grants) (hst : th'.waitStatus = th.waitStatus) : th'.InWait t := by
  refine ⟨?_, ?_, ?_, ?_⟩
  · intro index hin
    rw [hunw, hg]
    refine h.unwaited index ?_
    cases index with
    | none => trivial
    | some i =>
      simp only [Thread.InTable, hobj] at hin
      exact hin
  · intro index hl
    have hin := h.inTable index (hlinked index hl)
    cases index with
    | none => trivial
    | some i =>
      simp only [Thread.InTable, hobj]
      exact hin
  · intro h0 index hl
    rw [hdeq]
    exact h.live (hg ▸ h0) index (hlinked index hl)
  · rw [hg, hst]
    rcases h.grants with h0 | ⟨g, hgr, ⟨index, ho, hs⟩, hw⟩
    · exact Or.inl h0
    · refine Or.inr ⟨g, hgr, ⟨index, ?_, ?_⟩, hw⟩
      · rw [← ho]
        cases index with
        | none => rfl
        | some i => simp only [Thread.object, hobj]
      · rw [hs]
        cases index with
        | none => rfl
        | some i => simp only [Thread.blockStatus, hmany]

omit [DecidableEq T] [DecidableEq O] in
theorem mem_blockTasks {th : Thread T O} {index : Option ℕ} :
    .wbDequeue index ∈ th.blockTasks ↔ ∃ j, j < th.objects.length ∧ index = some j := by
  simp only [Thread.blockTasks, List.mem_map, List.mem_range, Task.wbDequeue.injEq]
  constructor
  · rintro ⟨j, hj, rfl⟩
    exact ⟨j, hj, rfl⟩
  · rintro ⟨j, hj, rfl⟩
    exact ⟨j, hj, rfl⟩

omit [DecidableEq T] [DecidableEq O] in
theorem nodup_blockTasks (th : Thread T O) : th.blockTasks.Nodup := by
  refine List.Nodup.map ?_ List.nodup_range
  intro i j hij
  exact Option.some.inj (Task.wbDequeue.inj hij)

omit [DecidableEq T] [DecidableEq O] in
theorem mem_tasks {th : Thread T O} {index : Option ℕ} {todo : List Task}
    (h : todo = th.abortTasks ∨ todo = th.wakeTasks) :
    .wbDequeue index ∈ todo ↔ (∃ j, j < th.objects.length ∧ index = some j) ∨
      (index = none ∧ th.hasTimeout = true) := by
  rcases h with rfl | rfl
  · unfold Thread.abortTasks
    rw [List.mem_append, mem_blockTasks, or_comm]
    split
    · rename_i ht
      simp [ht]
    · rename_i ht
      simp [ht]
  · unfold Thread.wakeTasks
    rw [List.mem_append, mem_blockTasks]
    split
    · rename_i ht
      simp [ht]
    · rename_i ht
      simp [ht]

omit [DecidableEq T] [DecidableEq O] in
theorem nodup_tasks {th : Thread T O} {todo : List Task}
    (h : todo = th.abortTasks ∨ todo = th.wakeTasks) : todo.Nodup := by
  have hnot : ∀ task ∈ th.blockTasks, task ≠ .timerUninstall ∧ task ≠ .wbDequeue none := by
    intro task ht
    simp only [Thread.blockTasks, List.mem_map] at ht
    obtain ⟨i, -, rfl⟩ := ht
    exact ⟨nofun, nofun⟩
  have hex : ∀ task ∈ th.blockTasks, ∀ extra ∈ ([.timerUninstall, .wbDequeue none] : List Task),
      task ≠ extra := by
    intro task ht extra he
    rcases List.mem_cons.mp he with rfl | he
    · exact (hnot task ht).1
    · rw [List.mem_singleton.mp he]
      exact (hnot task ht).2
  rcases h with rfl | rfl
  · unfold Thread.abortTasks
    split
    · rw [List.nodup_append]
      refine ⟨by decide, nodup_blockTasks th, ?_⟩
      exact fun extra he task ht => (hex task ht extra he).symm
    · exact nodup_blockTasks th
  · unfold Thread.wakeTasks
    split
    · rw [List.nodup_append]
      refine ⟨nodup_blockTasks th, by decide, ?_⟩
      intro task ht extra he
      refine hex task ht extra ?_
      simp only [List.mem_cons, List.not_mem_nil, or_false] at he ⊢
      exact he.symm
    · rw [List.append_nil]
      exact nodup_blockTasks th

omit [DecidableEq O] in
theorem Ok.startCleanup (h : Ok s) {aborted : Bool} {todo : List Task}
    (htodo : todo = (s.threads t).abortTasks ∨ todo = (s.threads t).wakeTasks)
    (hw : (s.threads t).InWait t) (hg : (s.threads t).grants ≠ [])
    (hrun : (s.threads t).status = .running)
    (hlinked : ∀ index, (s.threads t).Linked index ↔
      (∃ j, j < (s.threads t).objects.length ∧ index = some j) ∨
        (index = none ∧ (s.threads t).hasTimeout = true))
    (htime : (s.timers t).state = .queued → (s.threads t).hasTimeout = true) :
    Ok (s.setPc t (.cleanup aborted todo)) := by
  have hl : ∀ index, ({ s.threads t with pc := .cleanup aborted todo } : Thread T O).Linked index
      ↔ (s.threads t).Linked index := by
    intro index
    rw [hlinked, ← mem_tasks htodo]
    exact Iff.rfl
  refine h.modifyThread t _ ?_ ⟨?_, hg, hrun, ?_⟩ ⟨(h.threads t).timer.installed, ?_⟩
    (h.threads t).single
  · intro index k
    rw [hl]
    cases index <;> exact Iff.rfl
  · exact hw.setPc (fun index => (hl index).mp) rfl rfl rfl rfl rfl rfl
  · exact fun index => List.nodup_iff_count_le_one.mp (nodup_tasks htodo) _
  · intro hq
    refine Or.inl ?_
    rcases htodo with rfl | rfl
    · simp [Thread.abortTasks, htime hq]
    · simp [Thread.wakeTasks, htime hq]

/-- **Commit or abort.** -/
theorem Ok.committing (h : Ok s) (hpc : (s.threads t).pc = .committing)
    (hs : runPc s t = some s') : Ok s' := by
  have hsh := (h.threads t).shape
  have htm := (h.threads t).timer.pending
  unfold Thread.Shape at hsh
  simp only [hpc] at hsh htm
  obtain ⟨hw, hset⟩ := hsh
  have hlinked : ∀ index, (s.threads t).Linked index ↔
      (∃ j, j < (s.threads t).objects.length ∧ index = some j) ∨
        (index = none ∧ (s.threads t).hasTimeout = true) := by
    intro index
    unfold Thread.Linked
    simp only [hpc]
  simp only [runPc, hpc] at hs
  split at hs
  · rename_i habort
    cases hs
    have hg : (s.threads t).grants ≠ [] := by
      intro h0
      rw [hset.inProgress h0] at habort
      cases habort
    exact h.startCleanup (Or.inl rfl) hw hg hset.running hlinked htm
  · rename_i hgo
    cases hs
    have hg : (s.threads t).grants = [] := by
      by_contra hne
      exact hgo (hset.aborted hne)
    refine h.modifyThread t _ ?_ ⟨?_, iff_of_true hg rfl⟩
      ⟨(h.threads t).timer.installed, htm⟩ (h.threads t).single
    · intro index k
      rw [hlinked]
      cases index <;> exact Iff.rfl
    · exact hw.setPc (fun index => (hlinked index).mpr) rfl rfl rfl rfl rfl rfl

theorem Ok.waiting (h : Ok s) (hpc : (s.threads t).pc = .waiting)
    (hrun : (s.threads t).status = .running) (hs : runPc s t = some s') : Ok s' := by
  have hsh := (h.threads t).shape
  have htm := (h.threads t).timer.pending
  unfold Thread.Shape at hsh
  simp only [hpc] at hsh htm
  obtain ⟨hw, hiff⟩ := hsh
  simp only [runPc, hpc] at hs
  cases hs
  refine h.startCleanup (Or.inr rfl) hw ?_ hrun ?_ htm
  · intro h0
    rw [hiff.mp h0] at hrun
    cases hrun
  · intro index
    unfold Thread.Linked
    simp only [hpc]

omit [DecidableEq O] in
theorem Ok.dispatch (h : Ok s) (hst : (s.threads t).status = .ready) :
    Ok (s.modifyThread t (fun th => { th with status := .running })) := by
  have hsh := (h.threads t).shape
  have hne : (s.threads t).status ≠ .running := by
    rw [hst]
    exact nofun
  unfold Thread.Shape at hsh
  cases hpc : (s.threads t).pc with
  | outside =>
    simp only [hpc] at hsh
    exact absurd hsh.2 hne
  | setup =>
    simp only [hpc] at hsh
    exact absurd hsh.2.1 hne
  | enqueue i =>
    simp only [hpc] at hsh
    exact absurd hsh.2.1.running hne
  | found i =>
    simp only [hpc] at hsh
    exact absurd hsh.1 hne
  | arming =>
    simp only [hpc] at hsh
    exact absurd hsh.2.1.running hne
  | committing =>
    simp only [hpc] at hsh
    exact absurd hsh.2.running hne
  | cleanup aborted todo =>
    simp only [hpc] at hsh
    exact absurd hsh.2.2.1 hne
  | returning status =>
    simp only [hpc] at hsh
    exact absurd hsh.1 hne
  | waiting =>
    simp only [hpc] at hsh
    have hsame : ∀ index, ({ s.threads t with
        pc := .waiting, status := .running } : Thread T O).Linked index ↔
        (s.threads t).Linked index := by
      intro index
      unfold Thread.Linked
      simp only [hpc]
    refine h.modifyThread t _ ?_ ?_
      ⟨(h.threads t).timer.installed, (h.threads t).timer.pending⟩ (h.threads t).single
    · intro index k
      cases index <;> exact Iff.rfl
    · unfold Thread.Shape
      simp only [hpc]
      refine ⟨hsh.1.setPc (fun index => (hsame index).mp) rfl rfl rfl rfl rfl rfl, ?_⟩
      refine iff_of_false ?_ nofun
      intro h0
      rw [hsh.2.mp h0] at hst
      cases hst

/-! ## Undoing the wait -/

omit [DecidableEq O] in
theorem Ok.skipTask (h : Ok s) {aborted : Bool} {task : Task} {todo todo' : List Task}
    (hpc : (s.threads t).pc = .cleanup aborted (task :: todo))
    (hsub : ∀ index, .wbDequeue index ∈ task :: todo → .wbDequeue index ∉ todo' →
      (s.threads t).dequeued index = true)
    (hmem : ∀ index, .wbDequeue index ∈ todo' → .wbDequeue index ∈ task :: todo)
    (hcount : ∀ index, todo'.count (.wbDequeue index) ≤ 1)
    (hpending : (s.timers t).state = .queued → .timerUninstall ∈ todo' ∨ .timerRemove ∈ todo') :
    Ok (s.setPc t (.cleanup aborted todo')) := by
  have hsh := (h.threads t).shape
  unfold Thread.Shape at hsh
  simp only [hpc] at hsh
  obtain ⟨hw, hg, hrun, -⟩ := hsh
  have hl : ∀ index, (s.threads t).Linked index ↔ .wbDequeue index ∈ task :: todo := by
    intro index
    unfold Thread.Linked
    simp only [hpc]
  refine h.modifyThread t _ ?_ ⟨?_, hg, hrun, hcount⟩ ⟨(h.threads t).timer.installed, hpending⟩
    (h.threads t).single
  · intro index k
    have hobj : ({ s.threads t with pc := .cleanup aborted todo' } : Thread T O).object t index
        = (s.threads t).object t index := by
      cases index <;> rfl
    rw [hobj, hl]
    refine and_congr_right (fun _ => and_congr_left (fun hd => ?_))
    constructor
    · exact hmem index
    · intro hin
      by_contra hn
      rw [hsub index hin hn] at hd
      cases hd
  · exact hw.setPc (fun index hi => (hl index).mpr (hmem index hi)) rfl rfl rfl rfl rfl rfl

omit [DecidableEq O] in
theorem Ok.modifyTimer (h : Ok s) {state : TimerState} (hne : state ≠ .queued) :
    Ok (s.modifyTimer t (fun _ => ⟨state, false⟩)) := by
  refine h.of_thread t ⟨(h.threads t).mem_iff, (h.threads t).shape, ?_, (h.threads t).single⟩
    (fun _ _ => rfl) (fun u hu => Function.update_of_ne hu _ _) (fun _ _ _ _ => Iff.rfl) h.kobj
    h.panicked
  rw [State.modifyTimer_timers, Function.update_self]
  exact ⟨iff_of_false nofun hne, fun hq => absurd hq hne⟩

theorem Ok.removeBlock (h : Ok s) {aborted : Bool} {index : Option ℕ} {todo : List Task}
    {k : Kptr T O} (hpc : (s.threads t).pc = .cleanup aborted (.wbDequeue index :: todo))
    (hobj : (s.threads t).object t index = some k) (hd : (s.threads t).dequeued index = false) :
    Ok ((s.modifyKobj k (fun hdr => { hdr with
      objWaitList := hdr.objWaitList.erase ⟨t, index⟩
      objWaitCount := hdr.objWaitCount - 1 })).setPc t (.cleanup aborted todo)) := by
  have hsh := (h.threads t).shape
  have htm := (h.threads t).timer.pending
  unfold Thread.Shape at hsh
  simp only [hpc] at hsh htm
  obtain ⟨hw, hg, hrun, hcount⟩ := hsh
  have hl : ∀ index', (s.threads t).Linked index' ↔
      .wbDequeue index' ∈ Task.wbDequeue index :: todo := by
    intro index'
    unfold Thread.Linked
    simp only [hpc]
  have hnot : Task.wbDequeue index ∉ todo := by
    intro hin
    have h1 := hcount index
    rw [List.count_cons_self] at h1
    have h2 := List.count_pos_iff.mpr hin
    omega
  have hin : ⟨t, index⟩ ∈ (s.kobj k).objWaitList :=
    ((h.threads t).mem_iff _ _).mpr ⟨hobj, (hl index).mpr List.mem_cons_self, hd⟩
  have hmem : ∀ b k', b ∈ (((s.modifyKobj k (fun hdr => { hdr with
      objWaitList := hdr.objWaitList.erase ⟨t, index⟩
      objWaitCount := hdr.objWaitCount - 1 })).setPc t (.cleanup aborted todo)).kobj
        k').objWaitList ↔ b ∈ (s.kobj k').objWaitList ∧ ¬ (k' = k ∧ b = ⟨t, index⟩) := by
    intro b k'
    by_cases hk : k' = k
    · subst hk
      simp only [State.setPc, State.modifyThread_kobj, State.modifyKobj_kobj, Function.update_self]
      rw [(h.kobj k').nodup.mem_erase_iff]
      simp [and_comm]
    · simp [State.setPc, hk]
  have hself : ((s.modifyKobj k (fun hdr => { hdr with
      objWaitList := hdr.objWaitList.erase ⟨t, index⟩
      objWaitCount := hdr.objWaitCount - 1 })).setPc t (.cleanup aborted todo)).threads t
      = { s.threads t with pc := .cleanup aborted todo } := Function.update_self _ _ _
  refine h.of_thread t ⟨?_, ?_, ?_, ?_⟩ (fun u hu => Function.update_of_ne hu _ _)
    (fun _ _ => rfl) ?_ ?_ h.panicked
  · intro index' k'
    rw [hmem, (h.threads t).mem_iff, hself, hl]
    have hobj' : ({ s.threads t with pc := .cleanup aborted todo } : Thread T O).object t index'
        = (s.threads t).object t index' := by
      cases index' <;> rfl
    rw [hobj']
    show _ ↔ _ ∧ .wbDequeue index' ∈ todo ∧ _
    rw [List.mem_cons]
    constructor
    · rintro ⟨⟨ho, hi, hd'⟩, hne⟩
      refine ⟨ho, hi.resolve_left ?_, hd'⟩
      intro he
      obtain rfl := Task.wbDequeue.inj he
      exact hne ⟨Option.some.inj (ho.symm.trans hobj), rfl⟩
    · rintro ⟨ho, hi, hd'⟩
      refine ⟨⟨ho, Or.inr hi, hd'⟩, ?_⟩
      rintro ⟨-, he⟩
      obtain rfl : index' = index := congrArg Block.index he
      exact hnot hi
  · rw [hself]
    refine ⟨?_, hg, hrun, fun index' => (List.count_le_count_cons ..).trans (hcount index')⟩
    exact hw.setPc (fun index' hi => (hl index').mpr (List.mem_cons_of_mem _ hi))
      rfl rfl rfl rfl rfl rfl
  · rw [hself]
    refine ⟨(h.threads t).timer.installed, fun hq => ?_⟩
    simpa using htm hq
  · rw [hself]
    exact (h.threads t).single
  · intro u hu index' k'
    rw [hmem]
    refine ⟨fun hb => hb.1, fun hb => ⟨hb, ?_⟩⟩
    rintro ⟨-, he⟩
    exact hu (congrArg Block.thread he)
  · intro k'
    by_cases hk : k' = k
    · subst hk
      simp only [State.setPc, State.modifyThread_kobj, State.modifyKobj_kobj, Function.update_self]
      refine ⟨?_, (h.kobj k').nodup.erase _⟩
      show (s.kobj k').objWaitCount - 1 = _
      rw [List.length_erase_of_mem hin, (h.kobj k').count]
    · simp only [State.setPc, State.modifyThread_kobj, State.modifyKobj_kobj,
        Function.update_of_ne hk]
      exact h.kobj k'

/-- **`wb_dequeue`** never takes a block off a list that it is not on. -/
theorem Ok.wbDequeue (h : Ok s) {aborted : Bool} {index : Option ℕ} {todo : List Task}
    (hpc : (s.threads t).pc = .cleanup aborted (.wbDequeue index :: todo)) :
    Ok ((Wait.wbDequeue s t index).setPc t (.cleanup aborted todo)) := by
  have hsh := (h.threads t).shape
  have htm := (h.threads t).timer.pending
  unfold Thread.Shape at hsh
  simp only [hpc] at hsh htm
  obtain ⟨hw, -, -, hcount⟩ := hsh
  have hl : (s.threads t).Linked index := by
    unfold Thread.Linked
    simp only [hpc]
    exact List.mem_cons_self
  obtain ⟨k, hobj⟩ : ∃ k, (s.threads t).object t index = some k := by
    have hin := hw.inTable index hl
    cases index with
    | none => exact ⟨_, rfl⟩
    | some i => exact ⟨_, Thread.object_some (List.getElem?_eq_getElem hin)⟩
  unfold Wait.wbDequeue
  by_cases hd : (s.threads t).dequeued index = true
  · rw [if_pos hd]
    refine h.skipTask hpc ?_ (fun index' hi => List.mem_cons_of_mem _ hi)
      (fun index' => (List.count_le_count_cons ..).trans (hcount index')) ?_
    · intro index' hin hn
      rcases List.mem_cons.mp hin with he | hin
      · rw [Task.wbDequeue.inj he]
        exact hd
      · exact absurd hin hn
    · intro hq
      simpa using htm hq
  · rw [if_neg hd]
    have hd' : (s.threads t).dequeued index = false := Bool.eq_false_iff.mpr hd
    have hin : ⟨t, index⟩ ∈ (s.kobj k).objWaitList :=
      ((h.threads t).mem_iff _ _).mpr ⟨hobj, hl, hd'⟩
    simp only [hobj, if_pos hin]
    exact h.removeBlock hpc hobj hd'

/-- **One task of the cleanup.** -/
theorem Ok.runTask (h : Ok s) {aborted : Bool} {task : Task} {todo : List Task}
    (hpc : (s.threads t).pc = .cleanup aborted (task :: todo)) :
    Ok (Wait.runTask s t aborted task todo) := by
  have hsh := (h.threads t).shape
  have htm := (h.threads t).timer.pending
  unfold Thread.Shape at hsh
  simp only [hpc] at hsh htm
  obtain ⟨hw, hg, hrun, hcount⟩ := hsh
  have hnone : ∀ index, (∀ index', task ≠ .wbDequeue index') →
      (.wbDequeue index ∈ task :: todo ↔ .wbDequeue index ∈ todo) := by
    intro index hne
    rw [List.mem_cons]
    exact or_iff_right (fun he => hne index he.symm)
  have hcount' : ∀ index, todo.count (.wbDequeue index) ≤ 1 :=
    fun index => (List.count_le_count_cons ..).trans (hcount index)
  cases task with
  | wbDequeue index => exact h.wbDequeue hpc
  | timerUninstall =>
    unfold Wait.runTask
    simp only
    split
    · refine h.skipTask hpc ?_ ?_ ?_ (fun _ => Or.inr List.mem_cons_self)
      · intro index hin hn
        rw [hnone index nofun] at hin
        exact absurd (List.mem_cons_of_mem _ hin) hn
      · intro index hin
        rcases List.mem_cons.mp hin with he | hin
        · cases he
        · exact List.mem_cons_of_mem _ hin
      · intro index
        rw [List.count_cons_of_ne (fun he => by cases he)]
        exact hcount' index
    · rename_i hq
      refine h.skipTask hpc ?_ (fun index => (hnone index nofun).mpr) hcount'
        (fun hq' => absurd hq' hq)
      exact fun index hin hn => absurd ((hnone index nofun).mp hin) hn
  | timerRemove =>
    unfold Wait.runTask
    simp only
    have hsub : ∀ index, Task.wbDequeue index ∈ Task.timerRemove :: todo →
        .wbDequeue index ∉ todo → (s.threads t).dequeued index = true :=
      fun index hin hn => absurd ((hnone index nofun).mp hin) hn
    split
    · have h1 : Ok (s.modifyTimer t (fun _ => ⟨.canceled, false⟩)) := h.modifyTimer nofun
      refine h1.skipTask hpc hsub (fun index => (hnone index nofun).mpr) hcount' ?_
      intro hq
      rw [State.modifyTimer_timers, Function.update_self] at hq
      cases hq
    · rename_i hno
      refine h.skipTask hpc hsub (fun index => (hnone index nofun).mpr) hcount' ?_
      exact fun hq => absurd ⟨(h.threads t).timer.installed.mpr hq, hq⟩ hno

omit [DecidableEq O] in
theorem Ok.endCleanup (h : Ok s) {aborted : Bool} (f : Thread T O → Thread T O)
    (hpc : (s.threads t).pc = .cleanup aborted [])
    (hf : f (s.threads t) = { s.threads t with
      pc := .returning (s.threads t).waitStatus, waitPhase := (f (s.threads t)).waitPhase }) :
    Ok (s.modifyThread t f) := by
  have hsh := (h.threads t).shape
  have htm := (h.threads t).timer
  unfold Thread.Shape at hsh
  simp only [hpc] at hsh
  obtain ⟨hw, hg, hrun, -⟩ := hsh
  have hidle : (s.timers t).state ≠ .queued := by
    intro hq
    have hp := htm.pending hq
    simp [hpc] at hp
  have hgrants : ∃ g, (s.threads t).grants = [g] ∧ (s.threads t).Names t g ∧
      g.2 = (s.threads t).waitStatus := by
    rcases hw.grants with h0 | ⟨g, hgr, hn, hst⟩
    · exact absurd h0 hg
    · exact ⟨g, hgr, hn, hst.symm⟩
  refine h.modifyThread_unlinked t f ?_ ?_ ?_ (htm.idle hidle) ?_
  · intro index hl
    unfold Thread.Linked at hl
    simp [hpc] at hl
  · intro index hl
    rw [hf] at hl
    exact hl
  · rw [hf]
    obtain ⟨g, hgr, ⟨index, ho, hs⟩, hst⟩ := hgrants
    refine ⟨hrun, g, hgr, ⟨index, ?_, ?_⟩, hst⟩
    · rw [← ho]
      cases index <;> rfl
    · rw [hs]
      cases index <;> rfl
  · rw [hf]
    exact (h.threads t).single

omit [DecidableEq T] [DecidableEq O] in
theorem Ok.of_eq (h : Ok s) (hth : s'.threads = s.threads) (hk : s'.kobj = s.kobj)
    (htm : s'.timers = s.timers) (hpanic : s'.panicked = s.panicked) : Ok s' := by
  refine h.sameLists (fun k => ?_) (fun u => ?_) (fun u => ?_) hpanic
  · rw [hk]
    exact ⟨rfl, rfl⟩
  · rw [hth]
  · rw [htm]

theorem Ok.returning (h : Ok s) {status : WaitStatus} (hpc : (s.threads t).pc = .returning status)
    (hs : runPc s t = some s') : Ok s' := by
  have hsh := (h.threads t).shape
  unfold Thread.Shape at hsh
  simp only [hpc] at hsh
  have hleave : ∀ s₁ : State T O, Ok s₁ → s₁.threads = s.threads → s₁.timers = s.timers →
      Ok (s₁.modifyThread t (fun th => { th with grants := [], pc := .outside })) := by
    intro s₁ h₁ hth htm
    refine h₁.modifyThread_unlinked t _ ?_ (fun _ hl => hl) ⟨rfl, ?_⟩ ?_ (h₁.threads t).single
    · intro index hl
      unfold Thread.Linked at hl
      simp only [hth, hpc] at hl
    · rw [hth]
      exact hsh.1
    · rw [htm]
      exact (h.threads t).timer.idle ((h.threads t).timer.not_queued (by rw [hpc]; rfl))
  simp only [runPc, hpc] at hs
  cases hs
  split
  · exact hleave _ (h.of_eq rfl rfl rfl rfl) rfl rfl
  · exact hleave _ h rfl rfl

/-- **Step lemma for a running thread**: unless it finds a later object signalled. -/
theorem Ok.runPc (h : Ok s) (hrun : (s.threads t).status = .running)
    (htame : ∀ i o, (s.threads t).pc = .enqueue (i + 1) → (s.threads t).objects[i + 1]? = some o →
      (s.kobj (.obj o)).isObjSignaled = false)
    (hs : Wait.runPc s t = some s') : Ok s' := by
  cases hpc : (s.threads t).pc with
  | outside => simp [Wait.runPc, hpc] at hs
  | setup => exact h.setup hpc hs
  | enqueue i =>
    cases ho : (s.threads t).objects[i]? with
    | none => simp [Wait.runPc, hpc, ho] at hs
    | some o =>
      simp only [Wait.runPc, hpc, ho, Option.some.injEq] at hs
      subst hs
      cases hsig : (s.kobj (.obj o)).isObjSignaled with
      | false => exact h.enqueue hpc ho hsig
      | true =>
        cases i with
        | zero => exact h.acquire hpc ho hsig
        | succ i =>
          rw [htame i o hpc ho] at hsig
          cases hsig
  | found i => exact h.found hpc hs
  | arming => exact h.arming hpc hs
  | committing => exact h.committing hpc hs
  | waiting => exact h.waiting hpc hrun hs
  | cleanup aborted todo =>
    cases todo with
    | cons task todo =>
      simp only [Wait.runPc, hpc, Option.some.injEq] at hs
      subst hs
      exact h.runTask hpc
    | nil =>
      cases aborted with
      | true =>
        simp only [Wait.runPc, hpc, Option.some.injEq] at hs
        subst hs
        exact h.endCleanup _ hpc rfl
      | false =>
        simp only [Wait.runPc, hpc, Option.some.injEq] at hs
        subst hs
        exact h.endCleanup _ hpc rfl
  | returning status => exact h.returning hpc hs

end Wait
