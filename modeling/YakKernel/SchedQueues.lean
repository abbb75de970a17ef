/-
# The queues of the scheduler

A ghost function gives every thread its place: off every list, in a queue, next, running or
being switched to.  The lemmas say how `sched_insert` and `select_next` move threads between
places, and that the ready masks go on describing the queues.
-/
import YakKernel.Sched

namespace Sched

variable {C T : Type*}

/-! ## Places -/

/-- A queue of a processor. -/
inductive Slot where
  | rq (i : Bool) (p : ℕ)
  | idleRq
  deriving DecidableEq

/-- The threads in a queue. -/
def Cpu.queue (cpu : Cpu C T) : Slot → List (Tid C T)
  | .rq i p => (cpu.rqs i).queues p
  | .idleRq => cpu.idleRq

/-- Where a thread can be: off every list, in a queue, a processor's next thread, the thread
a processor runs, or the one it is switching to. -/
inductive Place (C : Type*) where
  | off
  | queued (c : C) (q : Slot)
  | next (c : C)
  | active (c : C)
  | incoming (c : C)

/-- The processor of a place. -/
def Place.cpu : Place C → Option C
  | .off => none
  | .queued c _ | .next c | .active c | .incoming c => some c

/-- The current thread of the processor has not been put anywhere else. -/
def Pc.Active : Pc C T → Prop
  | .running | .preemptTaken _ | .preemptLocked _ => True
  | _ => False

/-- The thread the processor is switching to. -/
def Pc.incoming : Pc C T → Option (Tid C T)
  | .running | .yielding _ => none
  | .yieldTaken next => next
  | .preemptTaken next | .preemptLocked next | .swtching next => some next
  | .switched _ next | .unlocking _ next | .finalizing next => some next

/-- The thread is at that place. -/
def State.At (s : State C T) (u : Tid C T) : Place C → Prop
  | .off => False
  | .queued c q => u ∈ (s.cpus c).queue q
  | .next c => (s.cpus c).nextThread = some u
  | .active c => (s.pc c).Active ∧ (s.cpus c).currentThread = u
  | .incoming c => (s.pc c).incoming = some u

/-- The status that a thread has at a place. -/
def Place.Fits : Place C → Tid C T → ThreadState → Prop
  | .queued _ _, .thread _, status => status = .ready
  | .next _, .thread _, status => status = .next
  | .active _, .thread _, status => status = .running
  | .incoming _, .thread _, status => status = .switching
  | .off, .thread _, status => status = .waiting ∨ status = .terminating ∨ status = .undefined
  | .queued _ _, .idle _, _ | .next _, .idle _, _ => False
  | _, .idle _, status => status ≠ .next

/-- The processor a thread belongs to. -/
def State.Home (s : State C T) (u : Tid C T) (c : C) : Prop :=
  match u with
  | .idle d => d = c
  | .thread _ => (s.threads u).lastCpu = some c

/-- Every thread is at its place and at no other. -/
structure Located (place : Tid C T → Place C) (s : State C T) : Prop where
  at_iff : ∀ u p, s.At u p ↔ place u = p ∧ p ≠ .off
  fits : ∀ u, (place u).Fits u (s.threads u).status
  home : ∀ u c, (place u).cpu = some c → s.Home u c

/-- Every thread but `u` is at its place, and `u` is nowhere: it is being moved. -/
structure Unplaced (place : Tid C T → Place C) (s : State C T) (u : Tid C T) : Prop where
  at_iff : ∀ v p, s.At v p ↔ place v = p ∧ p ≠ .off
  off : place u = .off
  fits : ∀ v, v ≠ u → (place v).Fits v (s.threads v).status
  home : ∀ v c, v ≠ u → (place v).cpu = some c → s.Home v c

section Move

variable [DecidableEq T] [DecidableEq C] {place : Tid C T → Place C} {s s' : State C T}
  {u : Tid C T} {p : Place C}

omit [DecidableEq T] [DecidableEq C] in
theorem State.Home.of_lastCpu {c : C} (h : s.Home u c)
    (hlast : (s'.threads u).lastCpu = (s.threads u).lastCpu) : s'.Home u c := by
  unfold State.Home at *
  cases u with
  | idle d => exact h
  | thread t => exact hlast.trans h

/-- **A thread leaves** its place. -/
theorem Located.leave (h : Located place s)
    (hat : ∀ v q, s'.At v q ↔ v ≠ u ∧ s.At v q)
    (hother : ∀ v, v ≠ u → (s'.threads v).status = (s.threads v).status ∧
      (s'.threads v).lastCpu = (s.threads v).lastCpu) :
    Unplaced (Function.update place u .off) s' u where
  at_iff := by
    intro v q
    rw [hat v q]
    by_cases hv : v = u
    · subst hv
      rw [Function.update_self]
      exact iff_of_false (fun h => h.1 rfl) (fun h => h.2 h.1.symm)
    · rw [Function.update_of_ne hv, h.at_iff v q]
      exact ⟨fun h => h.2, fun h => ⟨hv, h⟩⟩
  off := Function.update_self _ _ _
  fits := by
    intro v hv
    rw [Function.update_of_ne hv, (hother v hv).1]
    exact h.fits v
  home := by
    intro v c hv hc
    rw [Function.update_of_ne hv] at hc
    exact (h.home v c hc).of_lastCpu (hother v hv).2

/-- **A thread enters** a place. -/
theorem Unplaced.enter (h : Unplaced place s u)
    (hat : ∀ v q, s'.At v q ↔ s.At v q ∨ (v = u ∧ q = p ∧ q ≠ .off))
    (hother : ∀ v, v ≠ u → (s'.threads v).status = (s.threads v).status ∧
      (s'.threads v).lastCpu = (s.threads v).lastCpu)
    (hfits : p.Fits u (s'.threads u).status) (hhome : ∀ c, p.cpu = some c → s'.Home u c) :
    Located (Function.update place u p) s' where
  at_iff := by
    intro v q
    rw [hat v q]
    by_cases hv : v = u
    · subst hv
      rw [Function.update_self, h.at_iff v q, h.off]
      constructor
      · rintro (⟨rfl, hne⟩ | ⟨-, rfl, hne⟩)
        · exact absurd rfl hne
        · exact ⟨rfl, hne⟩
      · rintro ⟨rfl, hne⟩
        exact Or.inr ⟨rfl, rfl, hne⟩
    · rw [Function.update_of_ne hv, h.at_iff v q]
      exact ⟨fun h => h.resolve_right (fun h => hv h.1), Or.inl⟩
  fits := by
    intro v
    by_cases hv : v = u
    · subst hv
      rwa [Function.update_self]
    · rw [Function.update_of_ne hv, (hother v hv).1]
      exact h.fits v hv
  home := by
    intro v c hc
    by_cases hv : v = u
    · subst hv
      rw [Function.update_self] at hc
      exact hhome c hc
    · rw [Function.update_of_ne hv] at hc
      exact (h.home v c hv hc).of_lastCpu (hother v hv).2

omit [DecidableEq T] [DecidableEq C] in
theorem Located.unplaced (h : Located place s) (hoff : place u = .off) : Unplaced place s u :=
  ⟨h.at_iff, hoff, fun v _ => h.fits v, fun v c _ => h.home v c⟩

omit [DecidableEq T] [DecidableEq C] in
theorem Located.frame (h : Located place s) (hat : ∀ v q, s'.At v q ↔ s.At v q)
    (hother : ∀ v, (s'.threads v).status = (s.threads v).status ∧
      (s'.threads v).lastCpu = (s.threads v).lastCpu) : Located place s' where
  at_iff := by
    intro v q
    rw [hat v q]
    exact h.at_iff v q
  fits := by
    intro v
    rw [(hother v).1]
    exact h.fits v
  home := by
    intro v c hc
    exact (h.home v c hc).of_lastCpu (hother v).2

omit [DecidableEq T] [DecidableEq C] in
theorem Located.unique (h : Located place s) {q : Place C} (hp : s.At u p) (hq : s.At u q) :
    p = q :=
  ((h.at_iff u p).mp hp).1.symm.trans ((h.at_iff u q).mp hq).1

omit [DecidableEq T] [DecidableEq C] in
theorem Located.off_of_status (h : Located place s) {t : T}
    (hs : (s.threads (.thread t)).status = .waiting ∨
      (s.threads (.thread t)).status = .terminating ∨
      (s.threads (.thread t)).status = .undefined) : place (.thread t) = .off := by
  have hfits := h.fits (.thread t)
  cases hp : place (.thread t) with
  | off => rfl
  | queued c q | next c | active c | incoming c =>
    rw [hp] at hfits
    rw [show (s.threads (.thread t)).status = _ from hfits] at hs
    simp at hs

end Move

/-! ## The ready masks -/

/-- Bit `p` of the mask says whether queue `p` has a thread. -/
def Runqueue.MaskOk (rq : Runqueue C T) : Prop :=
  ∀ p, rq.readyMask.getLsbD p = true ↔ rq.queues p ≠ []

/-- The queues of one processor: no thread twice in a queue, the masks agree, and the two
runqueue pointers differ. -/
structure Cpu.Ok (cpu : Cpu C T) : Prop where
  nodup : ∀ q, (cpu.queue q).Nodup
  mask : ∀ i, (cpu.rqs i).MaskOk
  rqs : cpu.nextRq = !cpu.currentRq

theorem getLsbD_bit (n p : ℕ) : (1#32 <<< n).getLsbD p = (decide (p < 32) && decide (p = n)) := by
  rw [BitVec.getLsbD_shiftLeft, BitVec.getLsbD_one]
  by_cases hp : p = n
  · subst hp
    simp
  · by_cases hlt : p < n
    · simp [hp, hlt]
    · have hsub : ¬ p - n = 0 := by omega
      simp [hp, hsub]

variable {rq : Runqueue C T} {cpu cpu' : Cpu C T} {thread : Tid C T}

theorem Runqueue.MaskOk.insert (h : rq.MaskOk) {n : ℕ} (h1 : 1 ≤ n) (h2 : n ≤ prioMax) :
    (schedRqInsert rq thread n).MaskOk := by
  intro p
  simp only [schedRqInsert, BitVec.getLsbD_or, getLsbD_bit, Bool.or_eq_true, Bool.and_eq_true,
    decide_eq_true_eq]
  unfold prioMax at h2
  by_cases hp : p = n - 1
  · subst hp
    rw [Function.update_self]
    exact iff_of_true (Or.inr ⟨by omega, rfl⟩) (by simp)
  · rw [Function.update_of_ne hp, h p]
    simp [hp]

/-- Taking the first thread of a queue clears its bit when the queue is empty then. -/
theorem Runqueue.MaskOk.remove (h : rq.MaskOk) {n : ℕ} {rest : List (Tid C T)}
    (hq : rq.queues n = thread :: rest) :
    (Runqueue.mk (if rest = [] then rq.readyMask &&& ~~~(1#32 <<< n) else rq.readyMask)
      (Function.update rq.queues n rest)).MaskOk := by
  intro p
  show (if rest = [] then rq.readyMask &&& ~~~(1#32 <<< n) else rq.readyMask).getLsbD p = true ↔
    Function.update rq.queues n rest p ≠ []
  have hn : rq.readyMask.getLsbD n = true := (h n).mpr (by simp [hq])
  by_cases hp : p = n
  · subst hp
    rw [Function.update_self]
    by_cases hrest : rest = []
    · subst hrest
      simp
    · rw [if_neg hrest]
      exact iff_of_true hn hrest
  · rw [Function.update_of_ne hp, ← h p]
    split
    · simp only [BitVec.getLsbD_and, BitVec.getLsbD_not, getLsbD_bit, Bool.and_eq_true, hp,
        decide_false, Bool.and_false, Bool.not_false, Bool.and_true, decide_eq_true_eq]
      refine ⟨fun hb => hb.1, fun hb => ⟨hb, ?_⟩⟩
      by_contra hge
      rw [BitVec.getLsbD_of_ge _ _ (by omega)] at hb
      cases hb
    · exact Iff.rfl

theorem getLsbD_log2 {m : BitVec 32} (hm : m ≠ 0) : m.getLsbD (Nat.log2 m.toNat) = true := by
  show m.toNat.testBit _ = true
  apply Nat.testBit_log2
  intro h0
  exact hm (BitVec.eq_of_toNat_eq h0)

/-! ## Taking a thread -/

/-- Two processors that differ in their queues only. -/
structure Cpu.SameBut (cpu cpu' : Cpu C T) : Prop where
  currentThread : cpu'.currentThread = cpu.currentThread
  nextThread : cpu'.nextThread = cpu.nextThread

/-- What a selection takes: the head of one queue, or nothing. -/
def Cpu.Taken (cpu cpu' : Cpu C T) : Option (Tid C T) → Prop
  | none => ∀ q, cpu'.queue q = cpu.queue q
  | some thread => ∃ q, cpu.queue q = thread :: cpu'.queue q ∧
      ∀ q', q' ≠ q → cpu'.queue q' = cpu.queue q'

theorem Cpu.Ok.taken (h : cpu.Ok) (hrqs : cpu'.nextRq = !cpu'.currentRq)
    (hmask : ∀ i, (cpu'.rqs i).MaskOk) {r : Option (Tid C T)} (ht : cpu.Taken cpu' r) :
    cpu'.Ok := by
  refine ⟨fun q => ?_, hmask, hrqs⟩
  cases r with
  | none =>
    rw [show cpu'.queue q = cpu.queue q from ht q]
    exact h.nodup q
  | some thread =>
    obtain ⟨p, hp, hother⟩ := ht
    by_cases hq : q = p
    · subst hq
      have := h.nodup q
      rw [hp] at this
      exact (List.nodup_cons.mp this).2
    · rw [hother q hq]
      exact h.nodup q

/-- The processor once the queue `n` of a runqueue has lost its head. -/
def Cpu.popRq (cpu : Cpu C T) (i : Bool) (n : ℕ) (rest : List (Tid C T)) : Cpu C T :=
  { cpu with
    rqs := Function.update cpu.rqs i
      ⟨if rest = [] then (cpu.rqs i).readyMask &&& ~~~(1#32 <<< n) else (cpu.rqs i).readyMask,
        Function.update (cpu.rqs i).queues n rest⟩ }

/-- The first branch of `select_next` finds a thread: the mask is not zero, so the queue of
its highest bit is not empty. -/
theorem selectFrom_spec (h : cpu.Ok) {i : Bool} (hm : (cpu.rqs i).readyMask ≠ 0) :
    ∃ thread cpu', selectFrom cpu i 0 = some (some thread, cpu') ∧ cpu'.Ok ∧
      cpu.SameBut cpu' ∧ cpu.Taken cpu' (some thread) := by
  have hne := ((h.mask i) _).mp (getLsbD_log2 hm)
  unfold selectFrom
  simp only [Nat.not_lt_zero, if_false]
  cases hq : (cpu.rqs i).queues (Nat.log2 (cpu.rqs i).readyMask.toNat) with
  | nil => exact absurd hq hne
  | cons thread rest =>
    have htaken : cpu.Taken (cpu.popRq i (Nat.log2 (cpu.rqs i).readyMask.toNat) rest)
        (some thread) := by
      refine ⟨.rq i (Nat.log2 (cpu.rqs i).readyMask.toNat), ?_, ?_⟩
      · show (cpu.rqs i).queues _ = _
        rw [hq]
        simp only [Cpu.queue, Cpu.popRq, Function.update_self]
      · rintro (⟨j, p⟩ | _) hj
        · by_cases hji : j = i
          · subst hji
            have hp : p ≠ Nat.log2 (cpu.rqs j).readyMask.toNat := fun hp => hj (hp ▸ rfl)
            simp only [Cpu.queue, Cpu.popRq, Function.update_self]
            exact Function.update_of_ne hp _ _
          · simp only [Cpu.queue, Cpu.popRq, Function.update_of_ne hji]
        · rfl
    refine ⟨thread, _, rfl, h.taken h.rqs ?_ htaken, ⟨rfl, rfl⟩, htaken⟩
    intro j
    by_cases hji : j = i
    · subst hji
      simp only [Function.update_self]
      exact (h.mask j).remove hq
    · simp only [Function.update_of_ne hji]
      exact h.mask j

/-- **`select_next`** on sound queues fails no assertion. -/
theorem selectNext_spec (h : cpu.Ok) : ∃ r cpu', selectNext cpu 0 = some (r, cpu') ∧
    cpu'.Ok ∧ cpu.SameBut cpu' ∧ cpu.Taken cpu' r := by
  unfold selectNext
  split_ifs with h1 h2
  · obtain ⟨thread, cpu', hs, hok, hsame, ht⟩ := selectFrom_spec h h1
    exact ⟨some thread, cpu', hs, hok, hsame, ht⟩
  · have hswap : ({ cpu with currentRq := cpu.nextRq, nextRq := cpu.currentRq } : Cpu C T).Ok :=
      ⟨h.nodup, h.mask, by simp [h.rqs]⟩
    obtain ⟨thread, cpu', hs, hok, hsame, ht⟩ := selectFrom_spec hswap h2
    exact ⟨some thread, cpu', hs, hok, ⟨hsame.currentThread, hsame.nextThread⟩, ht⟩
  · cases hq : cpu.idleRq with
    | nil => exact ⟨none, cpu, rfl, h, ⟨rfl, rfl⟩, fun _ => rfl⟩
    | cons thread rest =>
      have ht : cpu.Taken { cpu with idleRq := rest } (some thread) := by
        refine ⟨.idleRq, hq, ?_⟩
        rintro (⟨j, p⟩ | _) hj
        · rfl
        · exact absurd rfl hj
      exact ⟨some thread, _, rfl, h.taken h.rqs h.mask ht, ⟨rfl, rfl⟩, ht⟩

/-! ## Putting a thread -/

/-- A thread has been appended to one of the queues. -/
structure Cpu.Pushed (cpu cpu' : Cpu C T) (thread : Tid C T) : Prop where
  same : cpu.SameBut cpu'
  mask : ∀ i, (cpu'.rqs i).MaskOk
  rqs : cpu'.nextRq = !cpu'.currentRq
  queue : ∃ q, cpu'.queue q = cpu.queue q ++ [thread] ∧ ∀ q', q' ≠ q → cpu'.queue q' = cpu.queue q'

theorem Cpu.Pushed.ok (h : cpu.Pushed cpu' thread) (hok : cpu.Ok)
    (hnew : ∀ q, thread ∉ cpu.queue q) : cpu'.Ok := by
  refine ⟨fun q => ?_, h.mask, h.rqs⟩
  obtain ⟨p, hp, hother⟩ := h.queue
  by_cases hq : q = p
  · subst hq
    rw [hp]
    exact List.nodup_append.mpr ⟨hok.nodup q, List.nodup_singleton _, by
      intro a ha b hb hab
      rw [List.mem_singleton] at hb
      exact hnew q (hb ▸ hab ▸ ha)⟩
  · rw [hother q hq]
    exact hok.nodup q

theorem Cpu.Pushed.rqInsert (hok : cpu.Ok) (i : Bool) {n : ℕ} (h1 : 1 ≤ n) (h2 : n ≤ prioMax) :
    cpu.Pushed (cpu.rqInsert i thread n) thread := by
  refine ⟨⟨rfl, rfl⟩, fun j => ?_, hok.rqs, .rq i (n - 1), ?_, ?_⟩
  · by_cases hj : j = i
    · subst hj
      simp only [Cpu.rqInsert, Function.update_self]
      exact (hok.mask j).insert h1 h2
    · simp only [Cpu.rqInsert, Function.update_of_ne hj]
      exact hok.mask j
  · simp only [Cpu.queue, Cpu.rqInsert, Function.update_self, schedRqInsert]
  · rintro (⟨j, p⟩ | _) hj
    · by_cases hji : j = i
      · subst hji
        have hp : p ≠ n - 1 := fun hp => hj (hp ▸ rfl)
        simp only [Cpu.queue, Cpu.rqInsert, Function.update_self, schedRqInsert]
        exact Function.update_of_ne hp _ _
      · simp only [Cpu.queue, Cpu.rqInsert, Function.update_of_ne hji]
    · rfl

theorem Cpu.Pushed.idleRq (hok : cpu.Ok) :
    cpu.Pushed { cpu with idleRq := cpu.idleRq ++ [thread] } thread := by
  refine ⟨⟨rfl, rfl⟩, hok.mask, hok.rqs, .idleRq, rfl, ?_⟩
  rintro (⟨j, p⟩ | _) hj
  · rfl
  · exact absurd rfl hj

section Insert

variable [DecidableEq C] [DecidableEq T] {s s' : State C T} {c : C}

/-- The thread becomes the processor's next thread. -/
def State.toNext (s : State C T) (c : C) (thread : Tid C T) : State C T :=
  ((s.setReady c thread).setStatus thread .next).modifyCpu c
    (fun cpu => { cpu with nextThread := some thread })

/-- The thread is ready, on a queue of the processor. -/
def State.toQueue (s : State C T) (c : C) (thread : Tid C T) (cpu' : Cpu C T) : State C T :=
  (s.setReady c thread).modifyCpu c (fun _ => cpu')

@[simp]
theorem priority_setReady (s : State C T) (c : C) (t u : Tid C T) :
    ((s.setReady c t).threads u).priority = (s.threads u).priority := by
  by_cases hu : u = t
  · subst hu
    simp [State.setReady]
  · simp [State.setReady, hu]

@[simp]
theorem priority_toNext (s : State C T) (c : C) (t u : Tid C T) :
    ((s.toNext c t).threads u).priority = (s.threads u).priority := by
  by_cases hu : u = t
  · subst hu
    simp [State.toNext, State.setStatus]
  · simp [State.toNext, State.setStatus, hu]

/-- **One round of `sched_insert`**: the thread goes to a queue; or it becomes the next
thread, and the one it replaces, if any, has a lower priority and is inserted next. -/
theorem insertRound_cases (hok : (s.cpus c).Ok) (thread : Tid C T) :
    (∃ cpu', (s.cpus c).Pushed cpu' thread ∧
      insertRound s c thread = (s.toQueue c thread cpu', none)) ∨
    (insertRound s c thread = (s.toNext c thread, (s.cpus c).nextThread) ∧
      ∀ next, (s.cpus c).nextThread = some next → next ≠ .idle c →
        (s.threads next).priority.val < (s.threads thread).priority.val) := by
  have hmax := (s.threads thread).priority.property
  have hready : ((s.setReady c thread).cpus c) = s.cpus c := rfl
  unfold insertRound
  simp only [hready, priority_setReady]
  split_ifs with h1 h2 h3
  · exact Or.inl ⟨_, .rqInsert hok _ (by unfold prioRealTime at h1; omega) hmax, rfl⟩
  · exact Or.inl ⟨_, .rqInsert hok _ (by unfold prioTimeShare at h3; omega) hmax, rfl⟩
  · exact Or.inl ⟨_, .idleRq hok, rfl⟩
  · refine Or.inr ⟨rfl, ?_⟩
    intro next hnext hidle
    rw [hnext, Option.getD_some] at h1 h2
    have hreal : prioRealTime ≤ (s.threads thread).priority.val := by
      by_contra hlt
      exact h2 ⟨by omega, hidle⟩
    by_contra hle
    exact h1 ⟨hreal, by omega⟩

/-- **`sched_insert`** ends after at most two rounds: the thread goes to a queue, or becomes
the next thread, and then the one it replaced goes to a queue. -/
theorem schedInsert_cases (hok : (s.cpus c).Ok) {thread : Tid C T} (hthread : thread ≠ .idle c)
    (hidle : (s.cpus c).nextThread ≠ some (.idle c)) :
    ∃ s', schedInsert 2 s c thread = some s' ∧
      ((∃ cpu', (s.cpus c).Pushed cpu' thread ∧ s' = s.toQueue c thread cpu') ∨
       ((s.cpus c).nextThread = none ∧ s' = s.toNext c thread) ∨
       ∃ next cpu', (s.cpus c).nextThread = some next ∧
        ((s.toNext c thread).cpus c).Pushed cpu' next ∧
        s' = (s.toNext c thread).toQueue c next cpu') := by
  rcases insertRound_cases hok thread with ⟨cpu', hp, hr⟩ | ⟨hr, hlower⟩
  · exact ⟨_, by simp [schedInsert, hr], Or.inl ⟨cpu', hp, rfl⟩⟩
  · cases hnext : (s.cpus c).nextThread with
    | none => exact ⟨_, by simp [schedInsert, hr, hnext], Or.inr (Or.inl ⟨rfl, rfl⟩)⟩
    | some next =>
      have hlt := hlower next hnext (fun h => hidle (h ▸ hnext))
      have hcpu : (s.toNext c thread).cpus c = { s.cpus c with nextThread := some thread } := by
        simp [State.toNext, State.setStatus, State.setReady]
      have hok' : ((s.toNext c thread).cpus c).Ok := by
        rw [hcpu]
        exact ⟨hok.nodup, hok.mask, hok.rqs⟩
      -- the second round compares with the thread of the first, which has a higher priority
      rcases insertRound_cases hok' next with ⟨cpu', hp, hr'⟩ | ⟨-, hlower'⟩
      · exact ⟨_, by simp [schedInsert, hr, hnext, hr'], Or.inr (Or.inr ⟨next, cpu', rfl, hp, rfl⟩)⟩
      · have := hlower' thread (by rw [hcpu]) hthread
        rw [priority_toNext, priority_toNext] at this
        omega

variable {place : Tid C T → Place C} {u : Tid C T}

theorem at_toQueue {cpu' : Cpu C T} {q : Slot} (hsame : (s.cpus c).SameBut cpu')
    (hq : cpu'.queue q = (s.cpus c).queue q ++ [u])
    (hother : ∀ q', q' ≠ q → cpu'.queue q' = (s.cpus c).queue q') (v : Tid C T) (p : Place C) :
    (s.toQueue c u cpu').At v p ↔ s.At v p ∨ (v = u ∧ p = .queued c q ∧ p ≠ .off) := by
  have hpc : (s.toQueue c u cpu').pc = s.pc := rfl
  have hcpus : (s.toQueue c u cpu').cpus = Function.update s.cpus c cpu' := rfl
  cases p with
  | off => simp [State.At]
  | incoming d => simp [State.At, hpc]
  | next d =>
    by_cases hd : d = c
    · subst hd
      simp [State.At, hcpus, hsame.nextThread]
    · simp [State.At, hcpus, hd]
  | active d =>
    by_cases hd : d = c
    · subst hd
      simp [State.At, hcpus, hpc, hsame.currentThread]
    · simp [State.At, hcpus, hpc, hd]
  | queued d q' =>
    by_cases hd : d = c
    · subst hd
      by_cases hqq : q' = q
      · subst hqq
        simp [State.At, hcpus, hq]
      · simp [State.At, hcpus, hother q' hqq, hqq]
    · simp [State.At, hcpus, hd]

theorem threads_toQueue {cpu' : Cpu C T} {v : Tid C T} (hv : v ≠ u) :
    ((s.toQueue c u cpu').threads v) = s.threads v := by
  simp [State.toQueue, State.setReady, hv]

theorem threads_toNext {v : Tid C T} (hv : v ≠ u) :
    ((s.toNext c u).threads v) = s.threads v := by
  simp [State.toNext, State.setReady, State.setStatus, hv]

theorem Unplaced.toQueue (h : Unplaced place s u) {t : T} (hu : u = .thread t)
    {cpu' : Cpu C T} (hp : (s.cpus c).Pushed cpu' u) :
    ∃ place', Located place' (s.toQueue c u cpu') ∧ ∀ v, v ≠ u → place' v = place v := by
  obtain ⟨q, hq, hother⟩ := hp.queue
  refine ⟨_, h.enter (at_toQueue hp.same hq hother) ?_ ?_ ?_, ?_⟩
  · intro v hv
    rw [threads_toQueue hv]
    exact ⟨rfl, rfl⟩
  · subst hu
    simp [Place.Fits, State.toQueue, State.setReady]
  · intro d hd
    obtain rfl : c = d := by simpa [Place.cpu] using hd
    subst hu
    simp [State.Home, State.toQueue, State.setReady]
  · intro v hv
    exact Function.update_of_ne hv _ _

theorem at_toNext (v : Tid C T) (p : Place C) :
    (s.toNext c u).At v p ↔ (p = .next c ∧ v = u) ∨ (p ≠ .next c ∧ s.At v p) := by
  have hpc : (s.toNext c u).pc = s.pc := rfl
  have hcpus : (s.toNext c u).cpus
      = Function.update s.cpus c { s.cpus c with nextThread := some u } := rfl
  cases p with
  | off => simp [State.At]
  | incoming d => simp [State.At, hpc]
  | next d =>
    by_cases hd : d = c
    · subst hd
      simp only [State.At, hcpus, Function.update_self, Option.some.injEq, true_and, ne_eq,
        not_true_eq_false, false_and, or_false]
      exact eq_comm
    · simp [State.At, hcpus, hd]
  | active d =>
    by_cases hd : d = c
    · subst hd
      simp [State.At, hcpus, hpc]
    · simp [State.At, hcpus, hpc, hd]
  | queued d q =>
    by_cases hd : d = c
    · subst hd
      simp only [State.At, hcpus, Function.update_self, reduceCtorEq, false_and, ne_eq,
        not_false_eq_true, true_and, false_or]
      exact Iff.rfl
    · simp [State.At, hcpus, hd]

theorem Unplaced.toNext (h : Unplaced place s u) {t : T} (hu : u = .thread t)
    (hnone : (s.cpus c).nextThread = none) :
    Located (Function.update place u (.next c)) (s.toNext c u) := by
  refine h.enter ?_ ?_ ?_ ?_
  · intro v p
    rw [at_toNext]
    by_cases hp : p = .next c
    · subst hp
      simp [State.At, hnone]
    · simp [hp]
  · intro v hv
    rw [threads_toNext hv]
    exact ⟨rfl, rfl⟩
  · subst hu
    simp [Place.Fits, State.toNext, State.setReady, State.setStatus]
  · intro d hd
    obtain rfl : c = d := by simpa [Place.cpu] using hd
    subst hu
    simp [State.Home, State.toNext, State.setReady, State.setStatus]

/-- An unplaced thread takes the place of the next thread, which is unplaced then. -/
theorem Unplaced.replaceNext (h : Unplaced place s u) {t : T} (hu : u = .thread t)
    {next : Tid C T} (hnext : (s.cpus c).nextThread = some next) :
    Unplaced (Function.update (Function.update place next .off) u (.next c)) (s.toNext c u)
      next := by
  have hat : place next = .next c := ((h.at_iff next (.next c)).mp hnext).1
  have hne : next ≠ u := by
    rintro rfl
    rw [h.off] at hat
    cases hat
  refine ⟨?_, ?_, ?_, ?_⟩
  · intro v p
    rw [at_toNext, h.at_iff v p]
    by_cases hv : v = u
    · subst hv
      rw [Function.update_self, h.off]
      constructor
      · rintro (⟨rfl, -⟩ | ⟨-, rfl, hoff⟩)
        · exact ⟨rfl, nofun⟩
        · exact absurd rfl hoff
      · rintro ⟨rfl, -⟩
        exact Or.inl ⟨rfl, rfl⟩
    · rw [Function.update_of_ne hv]
      by_cases hvn : v = next
      · subst hvn
        rw [Function.update_self, hat]
        refine iff_of_false ?_ (fun h => h.2 h.1.symm)
        rintro (⟨-, h⟩ | ⟨h, rfl, -⟩)
        · exact hv h
        · exact h rfl
      · rw [Function.update_of_ne hvn]
        refine ⟨fun h => (h.resolve_left (fun h => hv h.2)).2, fun hp => Or.inr ⟨?_, hp⟩⟩
        rintro rfl
        have := (h.at_iff v (.next c)).mpr hp
        rw [State.At, hnext] at this
        exact hvn (Option.some.inj this).symm
  · rw [Function.update_of_ne hne, Function.update_self]
  · intro v hv
    by_cases hvu : v = u
    · subst hvu hu
      rw [Function.update_self]
      simp [Place.Fits, State.toNext, State.setReady, State.setStatus]
    · rw [Function.update_of_ne hvu, Function.update_of_ne hv, threads_toNext hvu]
      exact h.fits v hvu
  · intro v d hv hd
    by_cases hvu : v = u
    · subst hvu hu
      rw [Function.update_self] at hd
      obtain rfl : c = d := by simpa [Place.cpu] using hd
      simp [State.Home, State.toNext, State.setReady, State.setStatus]
    · rw [Function.update_of_ne hvu, Function.update_of_ne hv] at hd
      exact (h.home v d hvu hd).of_lastCpu (by rw [threads_toNext hvu])

/-- What `sched_insert` leaves alone. -/
structure Requeued (place place' : Tid C T → Place C) (s s' : State C T) (u : Tid C T) : Prop where
  located : Located place' s'
  ok : ∀ d, (s'.cpus d).Ok
  current : ∀ d, (s'.cpus d).currentThread = (s.cpus d).currentThread
  pc : s'.pc = s.pc
  resuming : s'.resuming = s.resuming
  off : ∀ v, v ≠ u → place v = .off → place' v = .off

omit [DecidableEq C] [DecidableEq T] in
theorem Unplaced.notMem (h : Unplaced place s u) (q : Slot) : u ∉ (s.cpus c).queue q := by
  intro hmem
  have := (h.at_iff u (.queued c q)).mp hmem
  rw [h.off] at this
  exact this.2 this.1.symm

omit [DecidableEq T] in
theorem ok_update {cpus : C → Cpu C T} (h : ∀ d, (cpus d).Ok) (cpu' : Cpu C T) (hok : cpu'.Ok)
    (d : C) : (Function.update cpus c cpu' d).Ok := by
  by_cases hd : d = c
  · subst hd
    rwa [Function.update_self]
  · rw [Function.update_of_ne hd]
    exact h d

omit [DecidableEq T] in
theorem current_update (cpus : C → Cpu C T) (cpu' : Cpu C T)
    (hc : cpu'.currentThread = (cpus c).currentThread) (d : C) :
    (Function.update cpus c cpu' d).currentThread = (cpus d).currentThread := by
  by_cases hd : d = c
  · subst hd
    rwa [Function.update_self]
  · rw [Function.update_of_ne hd]

theorem ok_toNext (hok : ∀ d, (s.cpus d).Ok) (d : C) : ((s.toNext c u).cpus d).Ok :=
  ok_update hok (c := c) { s.cpus c with nextThread := some u }
    ⟨(hok c).nodup, (hok c).mask, (hok c).rqs⟩ d

/-- **`sched_insert` places the thread**, and the one it replaces. -/
theorem Unplaced.schedInsert (h : Unplaced place s u) {t : T} (hu : u = .thread t)
    (hok : ∀ d, (s.cpus d).Ok) (hidle : (s.cpus c).nextThread ≠ some (.idle c)) :
    ∃ s' place', Sched.schedInsert 2 s c u = some s' ∧ Requeued place place' s s' u := by
  have hne : u ≠ .idle c := by
    rw [hu]
    exact nofun
  obtain ⟨s', hs, hcases⟩ := schedInsert_cases (hok c) hne hidle
  refine ⟨s', ?_⟩
  rcases hcases with ⟨cpu', hp, rfl⟩ | ⟨hnone, rfl⟩ | ⟨next, cpu', hnext, hp, rfl⟩
  · obtain ⟨place', hl, hoff⟩ := h.toQueue hu hp
    refine ⟨place', hs, hl, ok_update hok _ (hp.ok (hok c) h.notMem),
      current_update _ _ hp.same.currentThread, rfl, rfl, ?_⟩
    intro v hv hpv
    rw [hoff v hv, hpv]
  · refine ⟨_, hs, h.toNext hu hnone, ok_toNext hok, current_update _ _ rfl, rfl, rfl, ?_⟩
    intro v hv hpv
    rw [Function.update_of_ne hv, hpv]
  · have h2 := h.replaceNext hu hnext
    obtain ⟨t', rfl⟩ : ∃ t', next = .thread t' := by
      have hfits := h.fits next
      cases next with
      | thread t' => exact ⟨t', rfl⟩
      | idle d =>
        have hat : place (.idle d) = .next c := ((h.at_iff _ (.next c)).mp hnext).1
        rw [hat] at hfits
        exact (hfits (hu ▸ nofun)).elim
    obtain ⟨place', hl, hoff⟩ := h2.toQueue rfl hp
    refine ⟨place', hs, hl, ok_update (ok_toNext hok) _ (hp.ok (ok_toNext hok c) h2.notMem), ?_,
      rfl, rfl, ?_⟩
    · intro d
      refine (current_update _ _ hp.same.currentThread d).trans ?_
      exact current_update _ { s.cpus c with nextThread := some u } rfl d
    · intro v hv hpv
      have hvn : v ≠ .thread t' := by
        rintro rfl
        have := ((h.at_iff _ (.next c)).mp hnext).1
        rw [hpv] at this
        cases this
      rw [hoff v hvn, Function.update_of_ne hv, Function.update_of_ne hvn, hpv]

end Insert

end Sched
