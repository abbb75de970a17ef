/-
# What holds while threads wait

Every wait block is on the list of its object exactly while its thread has queued it, has not
taken it back, and no signal has dequeued it; a thread is unwaited at most once in a wait, and
then all its blocks say so.  Signals, the waiting threads and the timeouts keep this.
-/
import YakKernel.Wait

namespace Wait

variable {T O : Type*}

/-! ## The invariant -/

/-- The thread has queued the block and has still to take it off its list. -/
def Thread.Linked (th : Thread T O) (index : Option ℕ) : Prop :=
  match th.pc with
  | .enqueue i => ∃ j, j < i ∧ index = some j
  | .arming => ∃ j, j < th.objects.length ∧ index = some j
  | .committing | .waiting =>
    (∃ j, j < th.objects.length ∧ index = some j) ∨ (index = none ∧ th.hasTimeout = true)
  | .cleanup _ todo => .wbDequeue index ∈ todo
  | _ => False

/-- The block belongs to the wait: one of the table, or the timeout block. -/
def Thread.InTable (th : Thread T O) : Option ℕ → Prop
  | none => True
  | some i => i < th.objects.length

/-- A grant names a block of the wait: the object it comes from and the status. -/
def Thread.Names (th : Thread T O) (t : T) (g : Kptr T O × WaitStatus) : Prop :=
  ∃ index, th.object t index = some g.1 ∧ g.2 = th.blockStatus index

/-- From the first queued block on: the flags say whether the wait has been ended, it has
been ended at most once, and as long as it has not, every queued block is on its list. -/
structure Thread.InWait (th : Thread T O) (t : T) : Prop where
  unwaited : ∀ index, th.InTable index → (th.unwaited index = true ↔ th.grants ≠ [])
  inTable : ∀ index, th.Linked index → th.InTable index
  live : th.grants = [] → ∀ index, th.Linked index → th.dequeued index = false
  grants : th.grants = [] ∨ ∃ g, th.grants = [g] ∧ th.Names t g ∧ th.waitStatus = g.2

/-- The thread is still setting up its wait. -/
structure Thread.SettingUp (th : Thread T O) : Prop where
  running : th.status = .running
  inProgress : th.grants = [] → th.waitPhase = .inProgress
  aborted : th.grants ≠ [] → th.waitPhase = .aborted

/-- What the place of a thread in the code says about it. -/
def Thread.Shape (th : Thread T O) (t : T) : Prop :=
  match th.pc with
  | .outside => th.grants = [] ∧ th.status = .running
  | .setup => th.grants = [] ∧ th.status = .running ∧ th.objects ≠ [] ∧
      ∀ i, i < th.objects.length → th.dequeued (some i) = false ∧ th.unwaited (some i) = false
  | .enqueue i => th.InWait t ∧ th.SettingUp ∧ i < th.objects.length ∧ (i = 0 → th.grants = []) ∧
      (∀ j, i ≤ j → j < th.objects.length → th.dequeued (some j) = false) ∧
      th.dequeued none = false
  | .found i => th.status = .running ∧
      ∃ o, th.objects[i]? = some o ∧ th.grants = [(.obj o, th.blockStatus (some i))]
  | .arming => th.InWait t ∧ th.SettingUp ∧ th.dequeued none = false ∧ th.hasTimeout = true
  | .committing => th.InWait t ∧ th.SettingUp
  | .waiting => th.InWait t ∧ (th.grants = [] ↔ th.status = .waiting)
  | .cleanup _ todo => th.InWait t ∧ th.grants ≠ [] ∧ th.status = .running ∧
      ∀ index, todo.count (.wbDequeue index) ≤ 1
  | .returning status => th.status = .running ∧ ∃ g, th.grants = [g] ∧ th.Names t g ∧ g.2 = status

/-- The timer of a thread is queued only while the thread will uninstall it. -/
structure TimerOk (th : Thread T O) (timer : Timer) : Prop where
  installed : timer.installed = true ↔ timer.state = .queued
  pending : timer.state = .queued → match th.pc with
    | .committing | .waiting => th.hasTimeout = true
    | .cleanup _ todo => .timerUninstall ∈ todo ∨ .timerRemove ∈ todo
    | _ => False

/-- The thread has not armed its timer, or has taken it back. -/
def Pc.unarmed : Pc → Bool
  | .committing | .waiting | .cleanup _ _ => false
  | _ => true

theorem TimerOk.not_queued {th : Thread T O} {timer : Timer} (h : TimerOk th timer)
    (hpc : th.pc.unarmed = true) : timer.state ≠ .queued := by
  intro hq
  have hp := h.pending hq
  cases hc : th.pc with
  | outside | setup | enqueue | found | arming | returning => simp only [hc] at hp
  | committing | waiting | cleanup =>
    rw [hc] at hpc
    cases hpc

/-- One thread, its blocks and its timer. -/
structure ThreadOk (s : State T O) (t : T) : Prop where
  mem_iff : ∀ index k, ⟨t, index⟩ ∈ (s.kobj k).objWaitList ↔
    (s.threads t).object t index = some k ∧ (s.threads t).Linked index ∧
      (s.threads t).dequeued index = false
  shape : (s.threads t).Shape t
  timer : TimerOk (s.threads t) (s.timers t)
  single : (s.threads t).many = false → (s.threads t).objects.length ≤ 1

/-- The wait count is the length of the wait list, which has no block twice. -/
structure Kobj.Ok (obj : Kobj T) : Prop where
  count : obj.objWaitCount = obj.objWaitList.length
  nodup : obj.objWaitList.Nodup

/-- **The invariant of waiting.** -/
structure Ok (s : State T O) : Prop where
  threads : ∀ t, ThreadOk s t
  kobj : ∀ k, (s.kobj k).Ok
  panicked : s.panicked = false

/-! ## One thread changes -/

variable {s s' : State T O} {t : T}

theorem ThreadOk.congr (h : ThreadOk s t) (hth : s'.threads t = s.threads t)
    (htm : s'.timers t = s.timers t)
    (hmem : ∀ index k, ⟨t, index⟩ ∈ (s'.kobj k).objWaitList ↔ ⟨t, index⟩ ∈ (s.kobj k).objWaitList) :
    ThreadOk s' t where
  mem_iff := by
    intro index k
    rw [hmem, hth]
    exact h.mem_iff index k
  shape := by
    rw [hth]
    exact h.shape
  timer := by
    rw [hth, htm]
    exact h.timer
  single := by
    rw [hth]
    exact h.single

theorem Ok.of_thread (h : Ok s) (t : T) (hself : ThreadOk s' t)
    (hth : ∀ u, u ≠ t → s'.threads u = s.threads u) (htm : ∀ u, u ≠ t → s'.timers u = s.timers u)
    (hmem : ∀ u, u ≠ t → ∀ index k,
      ⟨u, index⟩ ∈ (s'.kobj k).objWaitList ↔ ⟨u, index⟩ ∈ (s.kobj k).objWaitList)
    (hkobj : ∀ k, (s'.kobj k).Ok) (hpanic : s'.panicked = false) : Ok s' where
  threads := by
    intro u
    by_cases hu : u = t
    · subst hu
      exact hself
    · exact (h.threads u).congr (hth u hu) (htm u hu) (hmem u hu)
  kobj := hkobj
  panicked := hpanic

theorem Ok.sameLists (h : Ok s)
    (hk : ∀ k, (s'.kobj k).objWaitList = (s.kobj k).objWaitList ∧
      (s'.kobj k).objWaitCount = (s.kobj k).objWaitCount)
    (hth : ∀ u, s'.threads u = s.threads u) (htm : ∀ u, s'.timers u = s.timers u)
    (hpanic : s'.panicked = s.panicked) : Ok s' where
  threads := by
    intro u
    refine (h.threads u).congr (hth u) (htm u) ?_
    intro index k
    rw [(hk k).1]
  kobj := by
    intro k
    refine ⟨?_, ?_⟩
    · rw [(hk k).1, (hk k).2]
      exact (h.kobj k).count
    · rw [(hk k).1]
      exact (h.kobj k).nodup
  panicked := hpanic.trans h.panicked

theorem ThreadOk.not_mem (h : ThreadOk s t) (hl : ∀ index, ¬ (s.threads t).Linked index)
    (index : Option ℕ) (k : Kptr T O) : ⟨t, index⟩ ∉ (s.kobj k).objWaitList :=
  fun hm => hl index ((h.mem_iff index k).mp hm).2.1

theorem Thread.Linked.inTable {th : Thread T O} {index : Option ℕ} {k : Kptr T O}
    (ho : th.object t index = some k) : th.InTable index := by
  cases index with
  | none => trivial
  | some i =>
    simp only [Thread.object, Option.map_eq_some_iff] at ho
    obtain ⟨o, ho, -⟩ := ho
    exact (List.getElem?_eq_some_iff.mp ho).1

theorem Thread.Shape.inWait {th : Thread T O} {index : Option ℕ} (h : th.Shape t)
    (hl : th.Linked index) : th.InWait t := by
  unfold Thread.Shape at h
  unfold Thread.Linked at hl
  cases hpc : th.pc with
  | outside | setup | found | returning => simp only [hpc] at hl
  | enqueue | arming | committing | waiting | cleanup =>
    simp only [hpc] at h
    exact h.1

/-! ## One round of a signal -/

theorem Thread.popped_dequeued_of_ne (th : Thread T O) {index index' : Option ℕ}
    (h : index' ≠ index) : (th.popped index).dequeued index' = th.dequeued index' :=
  Function.update_of_ne h _ _

theorem Thread.InWait.popped {th : Thread T O} (h : th.InWait t) (index : Option ℕ)
    (hg : th.grants ≠ []) : (th.popped index).InWait t where
  unwaited := h.unwaited
  inTable := h.inTable
  live := fun h0 => absurd h0 hg
  grants := h.grants

theorem Thread.Shape.popped {th : Thread T O} {index : Option ℕ} (h : th.Shape t)
    (hl : th.Linked index) (hg : th.grants ≠ []) : (th.popped index).Shape t := by
  have hw := (h.inWait hl).popped index hg
  unfold Thread.Shape at *
  unfold Thread.Linked at hl
  rw [show (th.popped index).pc = th.pc from rfl]
  cases hpc : th.pc with
  | outside | setup | found | returning => simp only [hpc] at hl
  | enqueue i =>
    simp only [hpc] at h hl ⊢
    obtain ⟨-, hset, hi, h0, hfresh, hnone⟩ := h
    obtain ⟨j, hj, rfl⟩ := hl
    refine ⟨hw, ⟨hset.running, hset.inProgress, hset.aborted⟩, hi, h0, ?_, ?_⟩
    · intro j' hj' hn
      have hne : some j' ≠ some j := fun he => by
        have := Option.some.inj he
        omega
      exact (th.popped_dequeued_of_ne hne).trans (hfresh j' hj' hn)
    · exact (th.popped_dequeued_of_ne (Option.some_ne_none j).symm).trans hnone
  | arming =>
    simp only [hpc] at h hl ⊢
    obtain ⟨-, hset, hnone, ht⟩ := h
    obtain ⟨j, hj, rfl⟩ := hl
    exact ⟨hw, ⟨hset.running, hset.inProgress, hset.aborted⟩,
      (th.popped_dequeued_of_ne (Option.some_ne_none j).symm).trans hnone, ht⟩
  | committing =>
    simp only [hpc] at h ⊢
    exact ⟨hw, ⟨h.2.running, h.2.inProgress, h.2.aborted⟩⟩
  | waiting =>
    simp only [hpc] at h ⊢
    exact ⟨hw, h.2⟩
  | cleanup aborted todo =>
    simp only [hpc] at h ⊢
    exact ⟨hw, h.2⟩

theorem Thread.InWait.woken {th : Thread T O} (h : th.InWait t) {index : Option ℕ}
    {k : Kptr T O} (ho : th.object t index = some k) (hg : th.grants = []) :
    ((th.popped index).woken (th.blockStatus index) k).InWait t where
  unwaited := by
    intro index' hin
    refine iff_of_true ?_ (by simp [Thread.woken])
    cases index' with
    | none => rfl
    | some i =>
      have hlt : i < th.objects.length := hin
      simp [Thread.woken, Thread.popped, hlt]
  inTable := h.inTable
  live := fun h0 => by simp [Thread.woken] at h0
  grants := Or.inr ⟨(k, th.blockStatus index), by simp [Thread.woken, Thread.popped, hg],
    ⟨index, ho, rfl⟩, rfl⟩

theorem Thread.SettingUp.woken {th : Thread T O} (h : th.SettingUp) (status : WaitStatus)
    (k : Kptr T O) : (th.woken status k).SettingUp where
  running := by simp [Thread.woken, h.running]
  inProgress := fun h0 => by simp [Thread.woken] at h0
  aborted := fun _ => by simp [Thread.woken, h.running]

theorem Thread.SettingUp.popped {th : Thread T O} (h : th.SettingUp) (index : Option ℕ) :
    (th.popped index).SettingUp := ⟨h.running, h.inProgress, h.aborted⟩

theorem Thread.Shape.woken {th : Thread T O} {index : Option ℕ} {k : Kptr T O} (h : th.Shape t)
    (hl : th.Linked index) (ho : th.object t index = some k) (hg : th.grants = []) :
    ((th.popped index).woken (th.blockStatus index) k).Shape t := by
  have hw := (h.inWait hl).woken ho hg
  have hne : ((th.popped index).woken (th.blockStatus index) k).grants ≠ [] := by
    simp [Thread.woken]
  unfold Thread.Shape at *
  unfold Thread.Linked at hl
  rw [show ((th.popped index).woken (th.blockStatus index) k).pc = th.pc from rfl]
  cases hpc : th.pc with
  | outside | setup | found | returning => simp only [hpc] at hl
  | enqueue i =>
    simp only [hpc] at h hl ⊢
    obtain ⟨-, hset, hi, -, hfresh, hnone⟩ := h
    obtain ⟨j, hj, rfl⟩ := hl
    refine ⟨hw, (hset.popped _).woken _ _, hi, fun h0 => absurd (h0 ▸ hj) (Nat.not_lt_zero j),
      ?_, (th.popped_dequeued_of_ne (Option.some_ne_none j).symm).trans hnone⟩
    intro j' hj' hn
    have hne : some j' ≠ some j := fun he => by
      have := Option.some.inj he
      omega
    exact (th.popped_dequeued_of_ne hne).trans (hfresh j' hj' hn)
  | arming =>
    simp only [hpc] at h hl ⊢
    obtain ⟨-, hset, hnone, ht⟩ := h
    obtain ⟨j, hj, rfl⟩ := hl
    exact ⟨hw, (hset.popped _).woken _ _,
      (th.popped_dequeued_of_ne (Option.some_ne_none j).symm).trans hnone, ht⟩
  | committing =>
    simp only [hpc] at h ⊢
    exact ⟨hw, (h.2.popped _).woken _ _⟩
  | waiting =>
    simp only [hpc] at h ⊢
    refine ⟨hw, iff_of_false hne ?_⟩
    simp [Thread.woken, Thread.popped, h.2.mp hg]
  | cleanup aborted todo =>
    simp only [hpc] at h
    exact absurd hg h.2.1

theorem Thread.Shape.unwaitable {th : Thread T O} {index : Option ℕ} (h : th.Shape t)
    (hl : th.Linked index) (hg : th.grants = []) :
    th.status = .waiting ∨ th.waitPhase = .inProgress := by
  unfold Thread.Shape at h
  unfold Thread.Linked at hl
  cases hpc : th.pc with
  | outside | setup | found | returning => simp only [hpc] at hl
  | enqueue i =>
    simp only [hpc] at h
    exact Or.inr (h.2.1.inProgress hg)
  | arming | committing =>
    simp only [hpc] at h
    first
    | exact Or.inr (h.2.1.inProgress hg)
    | exact Or.inr (h.2.inProgress hg)
  | waiting =>
    simp only [hpc] at h
    exact Or.inl (h.2.mp hg)
  | cleanup aborted todo =>
    simp only [hpc] at h
    exact absurd hg h.2.1

section Round

variable [DecidableEq T] [DecidableEq O] {k : Kptr T O} {n : ℕ} {wb : Block T}
  {rest : List (Block T)}

/-- The state after one round of a signal, whose thread has become `th`. -/
def roundState (s : State T O) (k : Kptr T O) (n : ℕ) (wb : Block T) (rest : List (Block T))
    (th : Thread T O) : State T O :=
  (s.modifyThread wb.thread (fun _ => th)).modifyKobj k
    (fun hdr => { hdr with objWaitList := rest, objWaitCount := n })

theorem popBlock_eq : popBlock s k n wb rest
    = roundState s k n wb rest ((s.threads wb.thread).popped wb.index) := rfl

theorem threadUnwait_popBlock {status : WaitStatus}
    (h : (s.threads wb.thread).status = .waiting ∨ (s.threads wb.thread).waitPhase = .inProgress) :
    threadUnwait (popBlock s k n wb rest) wb.thread status k
      = roundState s k n wb rest (((s.threads wb.thread).popped wb.index).woken status k) := by
  have hth : (popBlock s k n wb rest).threads wb.thread = (s.threads wb.thread).popped wb.index :=
    Function.update_self _ _ _
  have hif : ((popBlock s k n wb rest).threads wb.thread).status = .waiting ∨
      ((popBlock s k n wb rest).threads wb.thread).waitPhase = .inProgress := by
    rw [hth]
    exact h
  unfold threadUnwait
  rw [if_pos hif]
  unfold popBlock roundState State.modifyThread State.modifyKobj
  simp only [Function.update_self, Function.update_idem]

/-- **One round** keeps the invariant when the thread keeps its shape. -/
theorem Ok.round (h : Ok s) (hlist : (s.kobj k).objWaitList = wb :: rest)
    (hn : (s.kobj k).objWaitCount = n + 1) {th : Thread T O}
    (hpc : th.pc = (s.threads wb.thread).pc) (hobj : th.objects = (s.threads wb.thread).objects)
    (htime : th.hasTimeout = (s.threads wb.thread).hasTimeout)
    (hmany : th.many = (s.threads wb.thread).many)
    (hdeq : th.dequeued = Function.update (s.threads wb.thread).dequeued wb.index true)
    (hshape : th.Shape wb.thread) : Ok (roundState s k n wb rest th) := by
  have hnd := (h.kobj k).nodup
  rw [hlist, List.nodup_cons] at hnd
  have hwb := ((h.threads wb.thread).mem_iff wb.index k).mp (by rw [hlist]; exact List.mem_cons_self)
  have hk : (roundState s k n wb rest th).kobj
      = Function.update s.kobj k { s.kobj k with objWaitList := rest, objWaitCount := n } := rfl
  have hmem : ∀ b k', b ∈ ((roundState s k n wb rest th).kobj k').objWaitList ↔
      b ∈ (s.kobj k').objWaitList ∧ ¬ (k' = k ∧ b = wb) := by
    intro b k'
    rw [hk]
    by_cases hkk : k' = k
    · subst hkk
      rw [Function.update_self, hlist, List.mem_cons]
      constructor
      · intro hb
        refine ⟨Or.inr hb, ?_⟩
        rintro ⟨-, rfl⟩
        exact hnd.1 hb
      · rintro ⟨rfl | hb, hne⟩
        · exact absurd ⟨rfl, rfl⟩ hne
        · exact hb
    · rw [Function.update_of_ne hkk]
      exact ⟨fun hb => ⟨hb, fun he => hkk he.1⟩, fun hb => hb.1⟩
  have hself : (roundState s k n wb rest th).threads wb.thread = th := Function.update_self _ _ _
  have hobject : ∀ index, th.object wb.thread index
      = (s.threads wb.thread).object wb.thread index := by
    intro index
    cases index with
    | none => rfl
    | some i => simp only [Thread.object, hobj]
  have hlinked : ∀ index, th.Linked index ↔ (s.threads wb.thread).Linked index := by
    intro index
    unfold Thread.Linked
    rw [hpc, hobj, htime]
  refine h.of_thread wb.thread ⟨?_, ?_, ?_, ?_⟩ (fun u hu => Function.update_of_ne hu _ _)
    (fun _ _ => rfl) ?_ ?_ h.panicked
  · intro index k'
    rw [hmem, (h.threads wb.thread).mem_iff index k', hself, hobject, hlinked, hdeq]
    by_cases hidx : index = wb.index
    · subst hidx
      rw [Function.update_self]
      refine iff_of_false ?_ (fun hf => by cases hf.2.2)
      rintro ⟨⟨ho, -, -⟩, hne⟩
      exact hne ⟨Option.some.inj (ho.symm.trans hwb.1), rfl⟩
    · rw [Function.update_of_ne hidx]
      refine ⟨fun hm => hm.1, fun hm => ⟨hm, ?_⟩⟩
      rintro ⟨-, he⟩
      exact hidx (congrArg Block.index he)
  · rw [hself]
    exact hshape
  · rw [hself]
    obtain ⟨h1, h2⟩ := (h.threads wb.thread).timer
    refine ⟨h1, ?_⟩
    rw [hpc, htime]
    exact h2
  · rw [hself, hmany, hobj]
    exact (h.threads wb.thread).single
  · intro u hu index k'
    rw [hmem]
    refine ⟨fun hb => hb.1, fun hb => ⟨hb, ?_⟩⟩
    rintro ⟨-, he⟩
    exact hu (congrArg Block.thread he)
  · intro k'
    rw [hk]
    by_cases hkk : k' = k
    · subst hkk
      rw [Function.update_self]
      refine ⟨?_, hnd.2⟩
      have := (h.kobj k').count
      rw [hlist, List.length_cons] at this
      show n = rest.length
      omega
    · rw [Function.update_of_ne hkk]
      exact h.kobj k'

/-- The current wait of `u` has been ended by the object. -/
def Granted (s : State T O) (o : O) (u : T) : Prop :=
  ∃ g ∈ (s.threads u).grants, g.1 = .obj o

/-- What signals leave alone. -/
structure SameObjects (s s' : State T O) : Prop where
  objType : ∀ k, (s'.kobj k).objType = (s.kobj k).objType
  objSignalCount : ∀ k, (s'.kobj k).objSignalCount = (s.kobj k).objSignalCount
  signals : s'.signals = s.signals
  taken : s'.taken = s.taken
  timers : s'.timers = s.timers
  pc : ∀ t, (s'.threads t).pc = (s.threads t).pc
  objects : ∀ t, (s'.threads t).objects = (s.threads t).objects
  many : ∀ t, (s'.threads t).many = (s.threads t).many

omit [DecidableEq T] [DecidableEq O] in
theorem SameObjects.refl (s : State T O) : SameObjects s s :=
  ⟨fun _ => rfl, fun _ => rfl, rfl, rfl, rfl, fun _ => rfl, fun _ => rfl, fun _ => rfl⟩

omit [DecidableEq T] [DecidableEq O] in
theorem SameObjects.trans {s'' : State T O} (h : SameObjects s s') (h' : SameObjects s' s'') :
    SameObjects s s'' where
  objType := fun k => (h'.objType k).trans (h.objType k)
  objSignalCount := fun k => (h'.objSignalCount k).trans (h.objSignalCount k)
  signals := h'.signals.trans h.signals
  taken := h'.taken.trans h.taken
  timers := h'.timers.trans h.timers
  pc := fun t => (h'.pc t).trans (h.pc t)
  objects := fun t => (h'.objects t).trans (h.objects t)
  many := fun t => (h'.many t).trans (h.many t)

theorem sameObjects_round {th : Thread T O} (hpc : th.pc = (s.threads wb.thread).pc)
    (hobj : th.objects = (s.threads wb.thread).objects)
    (hmany : th.many = (s.threads wb.thread).many) :
    SameObjects s (roundState s k n wb rest th) := by
  have hth : ∀ t, ((roundState s k n wb rest th).threads t).pc = (s.threads t).pc ∧
      ((roundState s k n wb rest th).threads t).objects = (s.threads t).objects ∧
      ((roundState s k n wb rest th).threads t).many = (s.threads t).many := by
    intro t
    by_cases ht : t = wb.thread
    · subst ht
      simp [roundState, hpc, hobj, hmany]
    · simp [roundState, ht]
  refine ⟨fun k' => ?_, fun k' => ?_, rfl, rfl, rfl, fun t => (hth t).1, fun t => (hth t).2.1,
    fun t => (hth t).2.2⟩
  · by_cases hk : k' = k
    · subst hk
      simp [roundState]
    · simp [roundState, hk]
  · by_cases hk : k' = k
    · subst hk
      simp [roundState]
    · simp [roundState, hk]

/-- After a signal of `k` that has woken `m` threads. -/
structure Signalled (k : Kptr T O) (s s' : State T O) (m : ℕ) : Prop where
  ok : Ok s'
  same : SameObjects s s'
  granted : ∀ o G, Tally (Granted s o) G → Tally (Granted s' o) (if k = .obj o then G + m else G)

theorem Signalled.refl (h : Ok s) : Signalled k s s 0 where
  ok := h
  same := .refl s
  granted := by
    intro o G hG
    split <;> exact hG

theorem Signalled.trans {s'' : State T O} {m m' : ℕ} (h : Signalled k s s' m)
    (h' : Signalled k s' s'' m') : Signalled k s s'' (m + m') where
  ok := h'.ok
  same := h.same.trans h'.same
  granted := by
    intro o G hG
    have h1 := h'.granted o _ (h.granted o G hG)
    by_cases hk : k = .obj o
    · simp only [if_pos hk] at h1 ⊢
      rwa [← Nat.add_assoc]
    · simp only [if_neg hk] at h1 ⊢
      exact h1

omit [DecidableEq T] [DecidableEq O] in
theorem Ok.head (h : Ok s) (hlist : (s.kobj k).objWaitList = wb :: rest) :
    (s.threads wb.thread).object wb.thread wb.index = some k ∧
      (s.threads wb.thread).Linked wb.index ∧
      ((s.threads wb.thread).unwaited wb.index = true ↔ (s.threads wb.thread).grants ≠ []) := by
  obtain ⟨ho, hl, -⟩ := ((h.threads wb.thread).mem_iff wb.index k).mp
    (by rw [hlist]; exact List.mem_cons_self)
  exact ⟨ho, hl, ((h.threads wb.thread).shape.inWait hl).unwaited _ (Thread.Linked.inTable ho)⟩

theorem Ok.round_stale (h : Ok s) (hlist : (s.kobj k).objWaitList = wb :: rest)
    (hn : (s.kobj k).objWaitCount = n + 1)
    (hstale : (s.threads wb.thread).unwaited wb.index = true) :
    Signalled k s (popBlock s k n wb rest) 0 := by
  obtain ⟨-, hl, hu⟩ := h.head hlist
  rw [popBlock_eq]
  refine ⟨h.round hlist hn rfl rfl rfl rfl rfl ((h.threads _).shape.popped hl (hu.mp hstale)),
    sameObjects_round rfl rfl rfl, ?_⟩
  intro o G hG
  have hsame : ∀ u, Granted (roundState s k n wb rest ((s.threads wb.thread).popped wb.index)) o u ↔
      Granted s o u := by
    intro u
    unfold Granted
    by_cases ht : u = wb.thread
    · subst ht
      simp [roundState, Thread.popped]
    · simp [roundState, ht]
  split <;> exact hG.congr hsame

theorem Ok.round_live (h : Ok s) (hlist : (s.kobj k).objWaitList = wb :: rest)
    (hn : (s.kobj k).objWaitCount = n + 1)
    (hlive : ¬ (s.threads wb.thread).unwaited wb.index = true) :
    Signalled k s (threadUnwait (popBlock s k n wb rest) wb.thread
      (((popBlock s k n wb rest).threads wb.thread).blockStatus wb.index) k) 1 := by
  obtain ⟨ho, hl, hu⟩ := h.head hlist
  have hg : (s.threads wb.thread).grants = [] := by
    by_contra hne
    exact hlive (hu.mpr hne)
  have hstatus : ((popBlock s k n wb rest).threads wb.thread).blockStatus wb.index
      = (s.threads wb.thread).blockStatus wb.index := by
    unfold popBlock
    simp only [State.modifyKobj_threads, State.modifyThread_threads, Function.update_self]
    rfl
  rw [threadUnwait_popBlock ((h.threads _).shape.unwaitable hl hg), hstatus]
  refine ⟨h.round hlist hn rfl rfl rfl rfl rfl ((h.threads _).shape.woken hl ho hg),
    sameObjects_round rfl rfl rfl, ?_⟩
  intro o G hG
  have hself : (roundState s k n wb rest (((s.threads wb.thread).popped wb.index).woken
      ((s.threads wb.thread).blockStatus wb.index) k)).threads wb.thread
      = ((s.threads wb.thread).popped wb.index).woken
        ((s.threads wb.thread).blockStatus wb.index) k := Function.update_self _ _ _
  have hgrants : (((s.threads wb.thread).popped wb.index).woken
      ((s.threads wb.thread).blockStatus wb.index) k).grants
      = [(k, (s.threads wb.thread).blockStatus wb.index)] := by
    show (s.threads wb.thread).grants ++ [_] = _
    rw [hg]
    rfl
  have hother : ∀ u, u ≠ wb.thread → (Granted (roundState s k n wb rest
      (((s.threads wb.thread).popped wb.index).woken
        ((s.threads wb.thread).blockStatus wb.index) k)) o u ↔ Granted s o u) := by
    intro u hu
    unfold Granted
    rw [show (roundState s k n wb rest _).threads u = s.threads u from Function.update_of_ne hu _ _]
  have hnot : ¬ Granted s o wb.thread := by
    rintro ⟨g, hmem, -⟩
    rw [hg] at hmem
    cases hmem
  by_cases hk : k = .obj o
  · rw [if_pos hk]
    refine hG.insert (a := wb.thread) hnot ?_
    intro u
    by_cases hu' : u = wb.thread
    · subst hu'
      refine iff_of_true ?_ (Or.inl rfl)
      unfold Granted
      rw [hself, hgrants]
      exact ⟨_, List.mem_singleton_self _, hk⟩
    · rw [hother u hu']
      exact ⟨Or.inr, fun hor => hor.resolve_left hu'⟩
  · rw [if_neg hk]
    refine hG.congr ?_
    intro u
    by_cases hu' : u = wb.thread
    · subst hu'
      refine iff_of_false ?_ hnot
      unfold Granted
      rw [hself, hgrants]
      rintro ⟨g, hmem, hgk⟩
      rw [List.mem_singleton] at hmem
      subst hmem
      exact hk hgk
    · exact hother u hu'

/-- **The loop of `kobject_signal_locked`**: it fails no assertion and keeps the invariant. -/
theorem Ok.signalLoop (unblockAll : Bool) : ∀ (n : ℕ) {s : State T O}, Ok s →
    (s.kobj k).objWaitCount = n →
    Signalled k s (Wait.signalLoop unblockAll k n s).1 (Wait.signalLoop unblockAll k n s).2 := by
  intro n
  induction n with
  | zero =>
    intro s h _
    exact Signalled.refl h
  | succ n ih =>
    intro s h hn
    unfold Wait.signalLoop
    cases hlist : (s.kobj k).objWaitList with
    | nil =>
      have := (h.kobj k).count
      rw [hlist, hn] at this
      cases this
    | cons wb rest =>
      have hcount : ∀ th, ((roundState s k n wb rest th).kobj k).objWaitCount = n := by
        intro th
        simp [roundState]
      have hstale' : ((popBlock s k n wb rest).threads wb.thread).unwaited
          = (s.threads wb.thread).unwaited := by
        unfold popBlock
        simp only [State.modifyKobj_threads, State.modifyThread_threads, Function.update_self]
        rfl
      simp only [hstale']
      split
      · rename_i hstale
        have h1 := h.round_stale hlist hn hstale
        have h2 := h1.trans (ih h1.ok (hcount _))
        rwa [Nat.zero_add] at h2
      · rename_i hlive
        have h1 := h.round_live hlist hn hlive
        split
        · exact h1
        · have hn' : ((threadUnwait (popBlock s k n wb rest) wb.thread
              (((popBlock s k n wb rest).threads wb.thread).blockStatus wb.index) k).kobj
                k).objWaitCount = n := by
            have hg : (s.threads wb.thread).grants = [] := by
              by_contra hne
              exact hlive ((h.head hlist).2.2.mpr hne)
            rw [threadUnwait_popBlock ((h.threads _).shape.unwaitable (h.head hlist).2.1 hg)]
            exact hcount _
          have h2 := h1.trans (ih h1.ok hn')
          rwa [Nat.add_comm] at h2

theorem signalLoop_le_one : ∀ (n : ℕ) (s : State T O),
    (Wait.signalLoop false k n s).2 ≤ 1 := by
  intro n
  induction n with
  | zero => exact fun _ => Nat.zero_le _
  | succ n ih =>
    intro s
    unfold Wait.signalLoop
    cases (s.kobj k).objWaitList with
    | nil => exact Nat.zero_le _
    | cons wb rest =>
      simp only
      split
      · exact ih _
      · exact le_rfl

theorem Ok.signalLoop_pos (unblockAll : Bool) : ∀ (n : ℕ) {s : State T O}, Ok s →
    (s.kobj k).objWaitCount = n →
    (∃ wb ∈ (s.kobj k).objWaitList, (s.threads wb.thread).unwaited wb.index = false) →
    0 < (Wait.signalLoop unblockAll k n s).2 := by
  intro n
  induction n with
  | zero =>
    rintro s h hn ⟨wb, hwb, -⟩
    have := (h.kobj k).count
    rw [hn] at this
    rw [List.length_eq_zero_iff.mp this.symm] at hwb
    cases hwb
  | succ n ih =>
    rintro s h hn ⟨live, hmem, hlive⟩
    unfold Wait.signalLoop
    cases hlist : (s.kobj k).objWaitList with
    | nil =>
      rw [hlist] at hmem
      cases hmem
    | cons wb rest =>
      have hstale' : ∀ u, ((popBlock s k n wb rest).threads u).unwaited
          = (s.threads u).unwaited := by
        intro u
        unfold popBlock
        by_cases hu : u = wb.thread
        · subst hu
          simp only [State.modifyKobj_threads, State.modifyThread_threads, Function.update_self]
          rfl
        · simp only [State.modifyKobj_threads, State.modifyThread_threads, Function.update_of_ne hu]
      simp only [hstale']
      split
      · rename_i hstale
        have h1 := h.round_stale hlist hn hstale
        refine ih h1.ok (by simp [popBlock]) ⟨live, ?_, by rw [hstale', hlive]⟩
        rw [hlist, List.mem_cons] at hmem
        have hne : live ≠ wb := by
          rintro rfl
          rw [hlive] at hstale
          cases hstale
        have hk : ((popBlock s k n wb rest).kobj k).objWaitList = rest := by simp [popBlock]
        rw [hk]
        exact hmem.resolve_left hne
      · split
        · exact Nat.one_pos
        · exact Nat.succ_pos _

end Round

end Wait
