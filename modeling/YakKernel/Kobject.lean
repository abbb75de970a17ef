/-
# Waitable objects, events and single-object waits

`core/object.c`, `core/kevent.c` and the blocking branch of `sched_wait` in
`core/wait.c`.  A section run under an object's lock is one function on the
object.  `WB_DEQUEUED` is not stored: a wait block has it exactly when it is off
the wait list.

The thread-local side of a wait is a `WaitState`: the phase, the status set by
`thread_unwait` and whether a timeout is armed.
-/
import Mathlib.Data.List.TakeWhile
import Mathlib.Tactic
import YakKernel.Status

/-! ## Objects -/

/-- `enum kobject_type`. -/
inductive KobjectType : Type where
  | objNotif
  | objSync
  deriving DecidableEq, Repr

/-- A queued `struct wait_block`: the waiting thread, the status it gets when the
object wakes it, and the flag `WB_UNWAITED`. -/
structure WaitBlock (T : Type*) where
  thread : T
  status : Status
  unwaited : Bool
  deriving DecidableEq, Repr

/-- `struct kobject` without its spinlock. -/
structure Kobject (T : Type*) where
  objType : KobjectType
  objSignalCount : ℤ
  objWaitCount : ℕ
  objWaitList : List (WaitBlock T)
  deriving DecidableEq, Repr

namespace Kobject

variable {T : Type*}

/-- `kobject_init`. -/
def kobjectInit (signalstate : ℤ) (type : KobjectType) : Kobject T where
  objType := type
  objSignalCount := signalstate
  objWaitCount := 0
  objWaitList := []

/-- `event_init`. -/
def eventInit (sigstate : Bool) (notif : Bool) : Kobject T :=
  kobjectInit (if sigstate then 1 else 0) (if notif then .objNotif else .objSync)

/-- The loop of `kobject_signal_locked` over `obj_wait_count`: the remaining count
and list, and the wait blocks whose threads `thread_unwait` resumed.  It stops
(`none`) when the list is empty while the count is not: `assert(wb)`. -/
def signalLoop (unblockAll : Bool) :
    ℕ → List (WaitBlock T) → Option (ℕ × List (WaitBlock T) × List (WaitBlock T))
  | 0, q => some (0, q, [])
  | _ + 1, [] => none
  | n + 1, wb :: q =>
    if wb.unwaited then
      -- already unwaited elsewhere
      signalLoop unblockAll n q
    else if !unblockAll then
      some (n, q, [wb])
    else
      (signalLoop unblockAll n q).map (fun r => (r.1, r.2.1, wb :: r.2.2))

/-- `kobject_signal_locked`: the object afterwards and the resumed wait blocks. -/
def kobjectSignalLocked (hdr : Kobject T) (unblockAll : Bool) :
    Option (Kobject T × List (WaitBlock T)) :=
  (signalLoop unblockAll hdr.objWaitCount hdr.objWaitList).map
    (fun r => ({ hdr with objWaitCount := r.1, objWaitList := r.2.1 }, r.2.2))

/-- `event_alarm`. -/
def eventAlarm (event : Kobject T) (wakeAll : Bool) :
    Option (Kobject T × List (WaitBlock T)) :=
  if event.objSignalCount = 0 then
    if event.objWaitCount ≠ 0 then
      match event.objType with
      | .objSync => event.kobjectSignalLocked wakeAll
      | .objNotif =>
        (event.kobjectSignalLocked true).map
          (fun r => ({ r.1 with objSignalCount := 1 }, r.2))
    else
      -- no waiters: mark the event signaled
      some ({ event with objSignalCount := 1 }, [])
  else
    some (event, [])

/-- `is_obj_signaled`. -/
def isObjSignaled (obj : Kobject T) : Bool := 0 < obj.objSignalCount

/-- `obj_maybe_acquire`. -/
def objMaybeAcquire (obj : Kobject T) : Kobject T :=
  match obj.objType with
  | .objSync => { obj with objSignalCount := obj.objSignalCount - 1 }
  | .objNotif => obj

theorem objMaybeAcquire_of_sync {obj : Kobject T} (h : obj.objType = .objSync) :
    obj.objMaybeAcquire = { obj with objSignalCount := obj.objSignalCount - 1 } := by
  simp only [objMaybeAcquire, h]

/-- `TAILQ_INSERT_TAIL` of a wait block, with the count. -/
def enqueue (obj : Kobject T) (wb : WaitBlock T) : Kobject T :=
  { obj with objWaitList := obj.objWaitList ++ [wb], objWaitCount := obj.objWaitCount + 1 }

variable [DecidableEq T]

/-- `wb_dequeue` of the wait block of thread `t`: a no-op when the object has
already dequeued it. -/
def wbDequeue (obj : Kobject T) (t : T) : Kobject T :=
  if obj.objWaitList.any (fun wb => wb.thread = t) then
    { obj with
      objWaitList := obj.objWaitList.filter (fun wb => wb.thread ≠ t)
      objWaitCount := obj.objWaitCount - 1 }
  else obj

/-- Set `WB_UNWAITED` in the wait block of thread `t`. -/
def setUnwaited (obj : Kobject T) (t : T) : Kobject T :=
  { obj with
    objWaitList := obj.objWaitList.map
      (fun wb => if wb.thread = t then { wb with unwaited := true } else wb) }

end Kobject

/-! ## The thread's side of a wait -/

/-- `enum wait_phase` inside the blocking branch of `sched_wait`. -/
inductive WaitPhase : Type where
  | inProgress
  | comitted
  | aborted
  deriving DecidableEq, Repr

/-- A thread inside `sched_wait` after its wait block was queued. -/
structure WaitState where
  waitPhase : WaitPhase
  waitStatus : Option Status
  hasTimeout : Bool
  deriving DecidableEq, Repr

namespace WaitState

/-- `thread_unwait`: a thread that is still setting up its wait is aborted, a
waiting one is resumed; either way it carries the status. -/
def threadUnwait (w : WaitState) (status : Status) : WaitState :=
  { w with
    waitPhase := if w.waitPhase = .inProgress then .aborted else w.waitPhase
    waitStatus := some status }

/-- A wait that has just been queued. -/
def start (hasTimeout : Bool) : WaitState := ⟨.inProgress, none, hasTimeout⟩

/-- The thread sleeps in `do_wait` and nobody has unwaited it. -/
def IsBlocked (w : WaitState) : Prop := w.waitPhase = .comitted ∧ w.waitStatus = none

instance (w : WaitState) : Decidable w.IsBlocked := by
  unfold IsBlocked
  infer_instance

end WaitState

namespace Kobject

variable {T : Type*} [DecidableEq T]

/-- The section of `sched_wait` under the object's lock: consume the signal and
return at once (`none`), or queue a wait block and go on waiting. -/
def schedWaitEnter (obj : Kobject T) (t : T) (hasTimeout : Bool) :
    Kobject T × Option WaitState :=
  if obj.isObjSignaled then
    (obj.objMaybeAcquire, none)
  else
    (obj.enqueue ⟨t, .success, false⟩, some (WaitState.start hasTimeout))

/-- What the waiting thread does when it runs: commit to the wait, or, once it has
been unwaited, dequeue its wait block and return the status.  A thread that sleeps
cannot run. -/
def schedWaitRun (obj : Kobject T) (t : T) (w : WaitState) :
    Option (Kobject T × (WaitState ⊕ Status)) :=
  match w.waitPhase, w.waitStatus with
  | .inProgress, _ => some (obj, .inl { w with waitPhase := .comitted })
  | .aborted, some status => some (obj.wbDequeue t, .inr status)
  | .aborted, none => none
  | .comitted, some status => some (obj.wbDequeue t, .inr status)
  | .comitted, none => none

end Kobject

/-- Apply `unwait` to the program counter of every thread an alarm resumed. -/
def resumeAll {T P : Type*} [DecidableEq T] (unwait : P → Status → P)
    (woken : List (WaitBlock T)) (pc : T → P) : T → P :=
  woken.foldl (fun pc wb => Function.update pc wb.thread (unwait (pc wb.thread) wb.status)) pc

/-- What `unwait` preserves holds of a thread after an alarm if it did before. -/
theorem resumeAll_induction {T P : Type*} [DecidableEq T] {unwait : P → Status → P}
    {Q : P → Prop} {woken : List (WaitBlock T)} {t : T}
    (hQ : ∀ wb ∈ woken, ∀ p, Q p → Q (unwait p wb.status)) :
    ∀ {pc : T → P}, Q (pc t) → Q (resumeAll unwait woken pc t) := by
  induction woken with
  | nil => exact fun h => h
  | cons wb woken ih =>
    intro pc h
    refine ih (fun b hb => hQ b (List.mem_cons_of_mem _ hb)) ?_
    by_cases ht : t = wb.thread
    · subst ht
      simpa only [Function.update_self] using hQ wb List.mem_cons_self _ h
    · simpa only [Function.update_of_ne ht] using h

/-! ## What an alarm does to a consistent event -/

namespace Kobject

variable {T : Type*}

/-- The wait count is the length of the wait list, and a thread is queued at most
once. -/
structure Consistent (obj : Kobject T) : Prop where
  count : obj.objWaitCount = obj.objWaitList.length
  nodup : (obj.objWaitList.map WaitBlock.thread).Nodup

theorem consistent_kobjectInit (n : ℤ) (type : KobjectType) :
    (kobjectInit n type : Kobject T).Consistent :=
  ⟨rfl, List.nodup_nil⟩

theorem signalLoop_false (q : List (WaitBlock T)) :
    signalLoop false q.length q =
      match q.dropWhile (·.unwaited) with
      | [] => some (0, [], [])
      | wb :: l => some (l.length, l, [wb]) := by
  induction q with
  | nil => rfl
  | cons wb q ih =>
    rw [List.length_cons, signalLoop]
    cases hw : wb.unwaited with
    | true => simp only [if_true, List.dropWhile_cons, hw, ih]
    | false => simp [hw]

/-- Waking all waiters empties the list and resumes those not yet unwaited. -/
theorem signalLoop_true (q : List (WaitBlock T)) :
    signalLoop true q.length q = some (0, [], q.filter (fun wb => !wb.unwaited)) := by
  induction q with
  | nil => rfl
  | cons wb q ih =>
    rw [List.length_cons, signalLoop, ih]
    cases hw : wb.unwaited <;> simp [hw]

/-- A list with a block that is not unwaited splits at the first such block. -/
theorem exists_split_of_live {q : List (WaitBlock T)} (h : ∃ wb ∈ q, wb.unwaited = false) :
    ∃ q₁ wb q₂, q = q₁ ++ wb :: q₂ ∧ (∀ b ∈ q₁, b.unwaited = true) ∧ wb.unwaited = false := by
  induction q with
  | nil => simp at h
  | cons b q ih =>
    cases hb : b.unwaited with
    | false => exact ⟨[], b, q, rfl, by simp, hb⟩
    | true =>
      obtain ⟨wb, hmem, hwb⟩ := h
      rcases List.mem_cons.mp hmem with rfl | hmem
      · rw [hb] at hwb
        cases hwb
      · obtain ⟨q₁, wb', q₂, rfl, hall, hlive⟩ := ih ⟨wb, hmem, hwb⟩
        refine ⟨b :: q₁, wb', q₂, rfl, ?_, hlive⟩
        intro c hc
        rcases List.mem_cons.mp hc with rfl | hc
        · exact hb
        · exact hall c hc

/-- The alarm has been passed on: it resumed waiters that were not yet unwaited
(just one when `wake_all` is false), or left the event signalled. -/
def AlarmDelivered (e e' : Kobject T) (wakeAll : Bool) (woken : List (WaitBlock T)) : Prop :=
  (woken ≠ [] ∧ (∀ wb ∈ woken, wb ∈ e.objWaitList ∧ wb.unwaited = false) ∧
    (wakeAll = false → woken.length = 1)) ∨
  e'.objSignalCount = 1

/-- Nobody is queued, or somebody is queued who has not been unwaited yet. -/
def NoStaleQueue (e : Kobject T) : Prop :=
  e.objWaitList = [] ∨ ∃ wb ∈ e.objWaitList, wb.unwaited = false

instance (e : Kobject T) : Decidable e.NoStaleQueue :=
  decidable_of_iff (e.objWaitList.isEmpty ∨ e.objWaitList.any (fun wb => !wb.unwaited))
    (by simp [NoStaleQueue])

variable {e : Kobject T}

theorem eventAlarm_of_signaled (h : e.objSignalCount ≠ 0) (wakeAll : Bool) :
    e.eventAlarm wakeAll = some (e, []) := by
  rw [eventAlarm, if_neg h]

theorem eventAlarm_of_no_waiter (h : e.objSignalCount = 0) (hc : e.objWaitCount = 0)
    (wakeAll : Bool) :
    e.eventAlarm wakeAll = some ({ e with objSignalCount := 1 }, []) := by
  rw [eventAlarm, if_pos h, if_neg (not_not.mpr hc)]

/-- An unsignalled synchronization event with waiters passes the alarm on to them. -/
theorem eventAlarm_of_waiters (hsync : e.objType = .objSync) (h : e.objSignalCount = 0)
    (hc : e.objWaitCount ≠ 0) (wakeAll : Bool) :
    e.eventAlarm wakeAll = e.kobjectSignalLocked wakeAll := by
  rw [eventAlarm, if_pos h, if_pos hc]
  simp only [hsync]

/-- The first waiter that is not yet unwaited is resumed; the unwaited blocks in
front of it leave the list with it. -/
theorem eventAlarm_of_live (hsync : e.objType = .objSync) (hcons : e.Consistent)
    (h : e.objSignalCount = 0) {q₁ q₂ : List (WaitBlock T)} {wb : WaitBlock T}
    (hq : e.objWaitList = q₁ ++ wb :: q₂) (hall : ∀ b ∈ q₁, b.unwaited = true)
    (hlive : wb.unwaited = false) :
    e.eventAlarm false =
      some ({ e with objWaitCount := q₂.length, objWaitList := q₂ }, [wb]) := by
  have hcount : e.objWaitCount ≠ 0 := by
    rw [hcons.count, hq]
    simp
  have hdrop : (q₁ ++ wb :: q₂).dropWhile (·.unwaited) = wb :: q₂ := by
    rw [List.dropWhile_append_of_pos hall, List.dropWhile_cons_of_neg (by simp [hlive])]
  rw [eventAlarm_of_waiters hsync h hcount, kobjectSignalLocked, hcons.count,
    signalLoop_false, hq, hdrop]
  rfl

/-- When every queued waiter has been unwaited already, the alarm drops them all
and the signal with them. -/
theorem eventAlarm_of_all_unwaited (hsync : e.objType = .objSync) (hcons : e.Consistent)
    (h : e.objSignalCount = 0) (hne : e.objWaitList ≠ [])
    (hall : ∀ b ∈ e.objWaitList, b.unwaited = true) (wakeAll : Bool) :
    e.eventAlarm wakeAll = some ({ e with objWaitCount := 0, objWaitList := [] }, []) := by
  have hcount : e.objWaitCount ≠ 0 := by
    rw [hcons.count]
    exact fun h0 => hne (List.length_eq_zero_iff.mp h0)
  rw [eventAlarm_of_waiters hsync h hcount, kobjectSignalLocked, hcons.count]
  cases wakeAll with
  | false =>
    have hdrop : e.objWaitList.dropWhile (·.unwaited) = [] := by
      rw [List.dropWhile_eq_nil_iff]
      exact hall
    simp only [signalLoop_false, hdrop, Option.map_some]
  | true =>
    have hfil : e.objWaitList.filter (fun wb => !wb.unwaited) = [] := by
      rw [List.filter_eq_nil_iff]
      intro b hb
      simp [hall b hb]
    simp only [signalLoop_true, hfil, Option.map_some]

/-- The four things an alarm with `wake_all` false can do to a consistent
synchronization event. -/
theorem eventAlarm_cases (hsync : e.objType = .objSync) (hcons : e.Consistent)
    {e' : Kobject T} {woken : List (WaitBlock T)} (h : e.eventAlarm false = some (e', woken)) :
    (e.objSignalCount ≠ 0 ∧ e' = e ∧ woken = []) ∨
    (e.objSignalCount = 0 ∧ e.objWaitList = [] ∧ e' = { e with objSignalCount := 1 } ∧
      woken = []) ∨
    (e.objSignalCount = 0 ∧ ∃ q₁ wb q₂, e.objWaitList = q₁ ++ wb :: q₂ ∧
      (∀ b ∈ q₁, b.unwaited = true) ∧ wb.unwaited = false ∧
      e' = { e with objWaitCount := q₂.length, objWaitList := q₂ } ∧ woken = [wb]) ∨
    (e.objSignalCount = 0 ∧ e.objWaitList ≠ [] ∧ (∀ b ∈ e.objWaitList, b.unwaited = true) ∧
      e' = { e with objWaitCount := 0, objWaitList := [] } ∧ woken = []) := by
  by_cases h0 : e.objSignalCount = 0
  · right
    by_cases hnil : e.objWaitList = []
    · left
      have hc : e.objWaitCount = 0 := by rw [hcons.count, hnil, List.length_nil]
      rw [eventAlarm_of_no_waiter h0 hc] at h
      cases h
      exact ⟨h0, hnil, rfl, rfl⟩
    · right
      by_cases hlive : ∃ wb ∈ e.objWaitList, wb.unwaited = false
      · left
        obtain ⟨q₁, wb, q₂, hq, hall, hwb⟩ := exists_split_of_live hlive
        rw [eventAlarm_of_live hsync hcons h0 hq hall hwb] at h
        cases h
        exact ⟨h0, q₁, wb, q₂, hq, hall, hwb, rfl, rfl⟩
      · right
        have hall : ∀ b ∈ e.objWaitList, b.unwaited = true := by
          intro b hb
          by_contra hne
          exact hlive ⟨b, hb, by simpa using hne⟩
        rw [eventAlarm_of_all_unwaited hsync hcons h0 hnil hall] at h
        cases h
        exact ⟨h0, hnil, hall, rfl, rfl⟩
  · left
    rw [eventAlarm_of_signaled h0] at h
    cases h
    exact ⟨h0, rfl, rfl⟩

/-- **Delivery of an alarm.**  An alarm on an unsignalled synchronization event is
passed on exactly when the queue is empty or holds a waiter that is not yet unwaited. -/
theorem eventAlarm_delivers_iff (hsync : e.objType = .objSync) (hcons : e.Consistent)
    (h : e.objSignalCount = 0) (wakeAll : Bool) :
    (∃ e' woken, e.eventAlarm wakeAll = some (e', woken) ∧ AlarmDelivered e e' wakeAll woken) ↔
      e.NoStaleQueue := by
  constructor
  · rintro ⟨e', woken, halarm, hdel⟩
    by_contra hstale
    rw [NoStaleQueue, not_or] at hstale
    obtain ⟨hne, hnone⟩ := hstale
    have hall : ∀ b ∈ e.objWaitList, b.unwaited = true := by
      intro b hb
      by_contra hb'
      exact hnone ⟨b, hb, by simpa using hb'⟩
    rw [eventAlarm_of_all_unwaited hsync hcons h hne hall] at halarm
    cases halarm
    rcases hdel with ⟨hwoken, -⟩ | hsig
    · exact hwoken rfl
    · simp [h] at hsig
  · rintro (hnil | hlive)
    · have hc : e.objWaitCount = 0 := by rw [hcons.count, hnil, List.length_nil]
      exact ⟨_, _, eventAlarm_of_no_waiter h hc wakeAll, Or.inr rfl⟩
    · obtain ⟨q₁, wb, q₂, hq, hall, hwb⟩ := exists_split_of_live hlive
      cases wakeAll with
      | false =>
        refine ⟨_, _, eventAlarm_of_live hsync hcons h hq hall hwb, Or.inl ⟨by simp, ?_, by simp⟩⟩
        intro b hb
        rw [List.mem_singleton] at hb
        subst hb
        exact ⟨by simp [hq], hwb⟩
      | true =>
        have hcount : e.objWaitCount ≠ 0 := by
          rw [hcons.count, hq]
          simp
        have hrun : e.eventAlarm true =
            some ({ e with objWaitCount := 0, objWaitList := [] },
              e.objWaitList.filter (fun wb => !wb.unwaited)) := by
          rw [eventAlarm_of_waiters hsync h hcount, kobjectSignalLocked, hcons.count,
            signalLoop_true]
          rfl
        refine ⟨_, _, hrun, Or.inl ⟨?_, ?_, by simp⟩⟩
        · obtain ⟨b, hb, hlive'⟩ := hlive
          exact List.ne_nil_of_mem (List.mem_filter.mpr ⟨hb, by simp [hlive']⟩)
        · intro b hb
          simpa using hb

/-! ## Consistency is kept -/

theorem Consistent.enqueue (h : e.Consistent) {wb : WaitBlock T}
    (hwb : wb.thread ∉ e.objWaitList.map WaitBlock.thread) : (e.enqueue wb).Consistent where
  count := by simp [Kobject.enqueue, h.count]
  nodup := by
    simp only [Kobject.enqueue, List.map_append, List.map_cons, List.map_nil]
    exact h.nodup.append (List.nodup_singleton _) (by simpa using hwb)

theorem Consistent.suffix (h : e.Consistent) {q₁ q₂ : List (WaitBlock T)}
    (hq : e.objWaitList = q₁ ++ q₂) :
    Consistent { e with objWaitCount := q₂.length, objWaitList := q₂ } where
  count := rfl
  nodup := by
    have hnd := h.nodup
    rw [hq, List.map_append] at hnd
    exact hnd.of_append_right

variable [DecidableEq T]

theorem Consistent.setUnwaited (h : e.Consistent) (t : T) : (e.setUnwaited t).Consistent where
  count := by simp [Kobject.setUnwaited, h.count]
  nodup := by
    have hmap : (e.setUnwaited t).objWaitList.map WaitBlock.thread =
        e.objWaitList.map WaitBlock.thread := by
      simp only [Kobject.setUnwaited, List.map_map]
      refine List.map_congr_left (fun wb _ => ?_)
      by_cases hwb : wb.thread = t <;> simp [hwb]
    rw [hmap]
    exact h.nodup

/-- In a list without repeated threads, filtering one queued thread out shortens
the list by one. -/
theorem length_filter_thread_ne {q : List (WaitBlock T)} {t : T}
    (hnd : (q.map WaitBlock.thread).Nodup) (ht : t ∈ q.map WaitBlock.thread) :
    (q.filter (fun wb => wb.thread ≠ t)).length = q.length - 1 := by
  induction q with
  | nil => simp at ht
  | cons wb q ih =>
    rw [List.map_cons, List.nodup_cons] at hnd
    by_cases hwb : wb.thread = t
    · have hself : q.filter (fun b => b.thread ≠ t) = q := by
        rw [List.filter_eq_self]
        intro b hb
        have hne : b.thread ≠ t := by
          rintro rfl
          exact hnd.1 (hwb ▸ List.mem_map_of_mem hb)
        simpa using hne
      rw [List.filter_cons_of_neg (by simpa using hwb), hself, List.length_cons]
      omega
    · have ht' : t ∈ q.map WaitBlock.thread := by
        rw [List.map_cons, List.mem_cons] at ht
        exact ht.resolve_left (fun h => hwb h.symm)
      have hpos : 0 < q.length := by
        rw [← List.length_map WaitBlock.thread]
        exact List.length_pos_of_mem ht'
      rw [List.filter_cons_of_pos (by simpa using hwb), List.length_cons, ih hnd.2 ht',
        List.length_cons]
      omega

theorem Consistent.wbDequeue (h : e.Consistent) (t : T) : (e.wbDequeue t).Consistent := by
  unfold Kobject.wbDequeue
  split_ifs with hany
  · have hmem : t ∈ e.objWaitList.map WaitBlock.thread := by
      simp only [List.any_eq_true, decide_eq_true_eq] at hany
      obtain ⟨wb, hwb, rfl⟩ := hany
      exact List.mem_map_of_mem hwb
    refine ⟨?_, ?_⟩
    · simp only [h.count]
      exact (length_filter_thread_ne h.nodup hmem).symm
    · exact h.nodup.sublist (List.filter_sublist.map _)
  · exact h

theorem mem_wbDequeue {t : T} {wb : WaitBlock T} :
    wb ∈ (e.wbDequeue t).objWaitList ↔ wb ∈ e.objWaitList ∧ wb.thread ≠ t := by
  unfold Kobject.wbDequeue
  split_ifs with hany
  · simp
  · simp only [List.any_eq_true, decide_eq_true_eq, not_exists, not_and] at hany
    exact ⟨fun h => ⟨h, hany wb h⟩, fun h => h.1⟩

@[simp] theorem wbDequeue_objType (t : T) : (e.wbDequeue t).objType = e.objType := by
  unfold Kobject.wbDequeue
  split_ifs <;> rfl

@[simp] theorem wbDequeue_objSignalCount (t : T) :
    (e.wbDequeue t).objSignalCount = e.objSignalCount := by
  unfold Kobject.wbDequeue
  split_ifs <;> rfl

end Kobject
