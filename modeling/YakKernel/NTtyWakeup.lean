/-
# Readers that sleep

Between the release of the mutex and `sched_wait` a reader relies on the signal of `data_available`
for what comes in.  Another reader may clear the signal at the head of its loop; unless it leaves
bytes behind while such a reader is there, no reader sleeps on bytes that it could take.
-/
import YakKernel.NTty
import Mathlib.Tactic

namespace NTty

open Function TransitionSystem

variable {termios : Termios} {s s' : State} {t u : ℕ} {rd : Read} {rb : RingBuffer UInt8}

/-! ## What is to hold -/

/-- **No reader sleeps on input.** -/
def NoneAsleep (s : State) : Prop :=
  Quiescent s → ∀ t rd, s.threads t = .waiting rd → rd.accepts s.tty.readBuf = false

/-- No reader clears a signal that another is about to wait for, and leaves bytes. -/
def Spares (s : State) (e : Event) : Prop :=
  ∀ t rd, e = .run t → s.threads t = .looping rd → rd.goesOn = true → s.dataAvailable ≠ 0 →
    rd.size s.tty.readBuf < s.tty.readBuf.available → ∀ u rd', s.threads u ≠ .waitNext rd'

/-! ## Sizes -/

theorem checkLineFrom_le (rb : RingBuffer UInt8) (left i : ℕ) :
    checkLineFrom rb left i ≤ i + left := by
  induction left generalizing i with
  | zero => exact Nat.zero_le _
  | succ left ih =>
    rw [checkLineFrom]
    split
    · omega
    · have := ih (i + 1)
      omega

theorem lineSize_le (rb : RingBuffer UInt8) : lineSize rb ≤ rb.available := by
  have hle := checkLineFrom_le rb rb.available 0
  unfold lineSize checkLine
  split <;> omega

theorem lineSize_pos_iff : lineSize rb > 0 ↔ rb.available > 0 := by
  have hle := lineSize_le rb
  constructor
  · omega
  · intro hpos
    unfold lineSize
    split
    · exact hpos
    · next hline => omega

theorem Read.size_le (rd : Read) (rb : RingBuffer UInt8) : rd.size rb ≤ rb.available := by
  have hle := lineSize_le rb
  unfold Read.size
  split <;> omega

theorem Read.accepts_eq (rd : Read) (rb : RingBuffer UInt8) :
    rd.accepts rb = decide (rb.available > 0) := by
  unfold Read.accepts
  split
  · simp only [lineSize_pos_iff]
  · rfl

theorem get_available {n : ℕ} (hn : n ≤ rb.available) :
    (rb.get n).2.available = rb.available - n := by
  have hn' : n ≤ rb.size := hn
  unfold RingBuffer.get
  split
  · next hzero => simp [hzero]
  · split
    · next hsize => simp [RingBuffer.available, hsize]
    · simp only [RingBuffer.available, RingBuffer.clamp_eq]
      omega

/-! ## The invariant -/

/-- The thread has the mutex. -/
def Thread.Locked : Thread → Prop
  | .receiving _ => True
  | .looping _ => True
  | .looking _ => True
  | .finishing _ => True
  | _ => False

theorem Thread.Locked.ne_waiting {thread : Thread} (h : thread.Locked) (rd : Read) :
    thread ≠ .waiting rd := by
  rintro rfl
  exact h

theorem Thread.Locked.ne_waitNext {thread : Thread} (h : thread.Locked) (rd : Read) :
    thread ≠ .waitNext rd := by
  rintro rfl
  exact h

theorem Read.after_locked (rd : Read) (bytes : List UInt8) : (rd.after bytes).Locked := by
  unfold Read.after
  split <;> trivial

/-- The buffer is empty, or the thread with the mutex is about to wake the readers or to empty it. -/
def Covered (s : State) : Prop :=
  s.tty.readBuf.available = 0 ∨ (∃ t, s.threads t = .receiving true) ∨
    ∃ t rd, s.threads t = .looking rd ∧ s.tty.readBuf.available ≤ rd.size s.tty.readBuf

/-- **The invariant of the wake-ups.** -/
structure Inv (s : State) : Prop where
  locked : ∀ t, s.readMutex = some t ↔ (s.threads t).Locked
  signalled : s.dataAvailable ≠ 0 → ∀ t rd, s.threads t ≠ .waiting rd
  waiting : ∀ t rd, s.threads t = .waiting rd → Covered s
  waitNext : ∀ t rd, s.threads t = .waitNext rd → s.dataAvailable ≠ 0 ∨ Covered s

variable {thread : Thread}

theorem Covered.setThread (h : Covered s) (htty : s'.tty = s.tty)
    (hthreads : s'.threads = update s.threads t thread) (hreceiving : s.threads t ≠ .receiving true)
    (hlooking : ∀ rd, s.threads t ≠ .looking rd) : Covered s' := by
  rcases h with hempty | ⟨u, hu⟩ | ⟨u, rd, hu, hsize⟩
  · left
    rw [htty]
    exact hempty
  · right
    left
    have hut : u ≠ t := by
      rintro rfl
      exact hreceiving hu
    exact ⟨u, by rw [hthreads, update_of_ne hut, hu]⟩
  · right
    right
    have hut : u ≠ t := by
      rintro rfl
      exact hlooking rd hu
    exact ⟨u, rd, by rw [hthreads, update_of_ne hut, hu], by rw [htty]; exact hsize⟩

namespace Inv

/-! ## The mutex -/

theorem only (h : Inv s) (ht : (s.threads t).Locked) (hu : (s.threads u).Locked) : u = t := by
  rw [← h.locked] at ht hu
  rw [ht] at hu
  exact (Option.some.inj hu).symm

theorem unlocked (h : Inv s) (hfree : s.readMutex = none) (t : ℕ) : ¬ (s.threads t).Locked := by
  rw [← h.locked, hfree]
  simp

theorem empty_of_free (h : Inv s) (hfree : s.readMutex = none) (hcovered : Covered s) :
    s.tty.readBuf.available = 0 := by
  rcases hcovered with hempty | ⟨u, hu⟩ | ⟨u, rd, hu, -⟩
  · exact hempty
  · exact absurd (by rw [hu]; trivial) (h.unlocked hfree u)
  · exact absurd (by rw [hu]; trivial) (h.unlocked hfree u)

theorem empty_of_locked (h : Inv s) (ht : (s.threads t).Locked)
    (hreceiving : s.threads t ≠ .receiving true) (hlooking : ∀ rd, s.threads t ≠ .looking rd)
    (hcovered : Covered s) : s.tty.readBuf.available = 0 := by
  rcases hcovered with hempty | ⟨u, hu⟩ | ⟨u, rd, hu, -⟩
  · exact hempty
  · have hut := h.only ht (u := u) (by rw [hu]; trivial)
    exact absurd (hut ▸ hu) hreceiving
  · have hut := h.only ht (u := u) (by rw [hu]; trivial)
    exact absurd (hut ▸ hu) (hlooking rd)

theorem locked_acquire (h : Inv s) (hfree : s.readMutex = none) (hmutex : s'.readMutex = some t)
    (hthreads : s'.threads = update s.threads t thread) (hthread : thread.Locked) (u : ℕ) :
    s'.readMutex = some u ↔ (s'.threads u).Locked := by
  rw [hmutex, hthreads]
  by_cases hut : u = t
  · subst hut
    rw [update_self]
    exact ⟨fun _ => hthread, fun _ => rfl⟩
  · rw [update_of_ne hut]
    constructor
    · intro htu
      exact absurd (Option.some.inj htu).symm hut
    · exact fun hu => absurd hu (h.unlocked hfree u)

theorem locked_release (h : Inv s) (ht : (s.threads t).Locked) (hmutex : s'.readMutex = none)
    (hthreads : s'.threads = update s.threads t thread) (hthread : ¬ thread.Locked) (u : ℕ) :
    s'.readMutex = some u ↔ (s'.threads u).Locked := by
  rw [hmutex, hthreads]
  by_cases hut : u = t
  · subst hut
    rw [update_self]
    simp [hthread]
  · rw [update_of_ne hut]
    constructor
    · simp
    · exact fun hu => absurd (h.only ht hu) hut

theorem locked_keep (h : Inv s) (hmutex : s'.readMutex = s.readMutex)
    (hthreads : s'.threads = update s.threads t thread)
    (hthread : thread.Locked ↔ (s.threads t).Locked) (u : ℕ) :
    s'.readMutex = some u ↔ (s'.threads u).Locked := by
  rw [hmutex, hthreads, h.locked]
  by_cases hut : u = t
  · subst hut
    rw [update_self, hthread]
  · rw [update_of_ne hut]

/-! ## Steps of a thread that is not blocked -/

/-- The blocked threads and those that are about to wait, after a step of a thread that comes to be
neither. -/
theorem of_setThread (hthreads : s'.threads = update s.threads t thread)
    (hwaiting : ∀ rd, thread ≠ .waiting rd) (hwaitNext : ∀ rd, thread ≠ .waitNext rd)
    (hlocked : ∀ u, s'.readMutex = some u ↔ (s'.threads u).Locked)
    (hsignalled : s'.dataAvailable ≠ 0 → ∀ u rd, u ≠ t → s.threads u ≠ .waiting rd)
    (hblocked : ∀ u rd, u ≠ t → s.threads u = .waiting rd → Covered s')
    (hnext : ∀ u rd, u ≠ t → s.threads u = .waitNext rd → s'.dataAvailable ≠ 0 ∨ Covered s') :
    Inv s' where
  locked := hlocked
  signalled := by
    intro hsignal u rd hu
    by_cases hut : u = t
    · subst hut
      rw [hthreads, update_self] at hu
      exact hwaiting rd hu
    · rw [hthreads, update_of_ne hut] at hu
      exact hsignalled hsignal u rd hut hu
  waiting := by
    intro u rd hu
    by_cases hut : u = t
    · subst hut
      rw [hthreads, update_self] at hu
      exact absurd hu (hwaiting rd)
    · rw [hthreads, update_of_ne hut] at hu
      exact hblocked u rd hut hu
  waitNext := by
    intro u rd hu
    by_cases hut : u = t
    · subst hut
      rw [hthreads, update_self] at hu
      exact absurd hu (hwaitNext rd)
    · rw [hthreads, update_of_ne hut] at hu
      exact hnext u rd hut hu

/-- A thread that covers nothing goes on, and the buffers and the event are as before. -/
theorem keep (h : Inv s) (hthreads : s'.threads = update s.threads t thread)
    (hwaiting : ∀ rd, thread ≠ .waiting rd) (hwaitNext : ∀ rd, thread ≠ .waitNext rd)
    (hlocked : ∀ u, s'.readMutex = some u ↔ (s'.threads u).Locked) (htty : s'.tty = s.tty)
    (hsignal : s'.dataAvailable = s.dataAvailable) (hreceiving : s.threads t ≠ .receiving true)
    (hlooking : ∀ rd, s.threads t ≠ .looking rd) : Inv s' := by
  have hcovered : Covered s → Covered s' := fun hcovered =>
    hcovered.setThread htty hthreads hreceiving hlooking
  refine of_setThread hthreads hwaiting hwaitNext hlocked ?_ ?_ ?_
  · rw [hsignal]
    exact fun hset u rd _ => h.signalled hset u rd
  · exact fun u rd _ hu => hcovered (h.waiting u rd hu)
  · intro u rd _ hu
    rw [hsignal]
    exact (h.waitNext u rd hu).imp_right hcovered

theorem drain (h : Inv s) (hthreads : s'.threads = update s.threads t thread)
    (hwaiting : ∀ rd, thread ≠ .waiting rd) (hwaitNext : ∀ rd, thread ≠ .waitNext rd)
    (hlocked : ∀ u, s'.readMutex = some u ↔ (s'.threads u).Locked)
    (hsignal : s'.dataAvailable = 0 ∨ s'.dataAvailable = s.dataAvailable)
    (hempty : s.tty.readBuf.available = 0 → s'.tty.readBuf.available = 0)
    (hcovered : Covered s → s.tty.readBuf.available = 0 ∨ Covered s')
    (hclear : s'.dataAvailable ≠ s.dataAvailable → ∀ u rd, u ≠ t → s.threads u = .waitNext rd →
      Covered s') : Inv s' := by
  have hkeep : Covered s → Covered s' := fun h' => (hcovered h').elim (fun h' => .inl (hempty h')) id
  refine of_setThread hthreads hwaiting hwaitNext hlocked ?_ ?_ ?_
  · intro hset u rd _
    rcases hsignal with hzero | hsame
    · exact absurd hzero hset
    · rw [hsame] at hset
      exact h.signalled hset u rd
  · exact fun u rd _ hu => hkeep (h.waiting u rd hu)
  · intro u rd hut hu
    by_cases hsame : s'.dataAvailable = s.dataAvailable
    · rw [hsame]
      exact (h.waitNext u rd hu).imp_right hkeep
    · exact .inr (hclear hsame u rd hut hu)

/-! ## receive_char -/

theorem commitLine_eq (tty : Tty) (h : (commitLine tty).2 = false) :
    (commitLine tty).1.readBuf = tty.readBuf := by
  unfold commitLine at h ⊢
  split
  · rfl
  · next hline => simp [hline] at h

theorem receiveChar_eq (termios : Termios) (tty : Tty) (c : UInt8)
    (h : (receiveChar termios tty c).2 = false) :
    (receiveChar termios tty c).1.readBuf = tty.readBuf := by
  unfold receiveChar at h ⊢
  by_cases hicanon : termios.icanon = true
  · rw [if_pos hicanon] at h ⊢
    by_cases herase : isControl c termios.verase = true
    · rw [if_pos herase]
    · rw [if_neg herase] at h ⊢
      by_cases hkill : isControl c termios.vkill = true
      · rw [if_pos hkill]
      · rw [if_neg hkill] at h ⊢
        by_cases heof : isControl c termios.veof = true
        · rw [if_pos heof] at h ⊢
          exact commitLine_eq tty h
        · rw [if_neg heof] at h ⊢
          by_cases hnewline : c = newline
          · simp only [hnewline, if_true] at h ⊢
            rw [commitLine_eq _ h]
            split <;> rfl
          · simp only [hnewline, if_false]
            split <;> rfl
  · simp [hicanon] at h

theorem observe_dataAvailable (termios : Termios) (s : State) (c : UInt8) :
    (s.observe termios c).dataAvailable = s.dataAvailable := by
  unfold State.observe
  split <;> rfl

theorem receive (h : Inv s) (hfree : s.readMutex = none) (c : UInt8) :
    Inv (s.receive termios t c) := by
  have hthreads : (s.receive termios t c).threads =
      update s.threads t (.receiving (receiveChar termios s.tty c).2) := by
    simp only [State.receive, State.setThread, observe_threads]
  have hsignal : (s.receive termios t c).dataAvailable = s.dataAvailable :=
    observe_dataAvailable termios s c
  have hcovered : s.tty.readBuf.available = 0 → Covered (s.receive termios t c) := by
    intro hempty
    cases halarm : (receiveChar termios s.tty c).2 with
    | true => exact .inr (.inl ⟨t, by rw [hthreads, update_self, halarm]⟩)
    | false =>
      left
      have hbuf : (s.receive termios t c).tty.readBuf = s.tty.readBuf :=
        receiveChar_eq termios s.tty c halarm
      rw [hbuf]
      exact hempty
  refine of_setThread hthreads (by simp) (by simp) ?_ ?_ ?_ ?_
  · exact h.locked_acquire hfree rfl hthreads trivial
  · rw [hsignal]
    exact fun hset u rd _ => h.signalled hset u rd
  · exact fun u rd _ hu => hcovered (h.empty_of_free hfree (h.waiting u rd hu))
  · intro u rd _ hu
    rw [hsignal]
    exact (h.waitNext u rd hu).imp_right fun h' => hcovered (h.empty_of_free hfree h')

theorem eventAlarm_dataAvailable (s : State) : s.eventAlarm.dataAvailable ≠ 0 := by
  unfold State.eventAlarm
  split
  · simp
  · next hset => exact hset

theorem eventAlarm_not_waiting (h : Inv s) (u : ℕ) (rd : Read) :
    s.eventAlarm.threads u ≠ .waiting rd := by
  unfold State.eventAlarm
  split
  · simp only
    split
    · simp
    · next hblocked => exact hblocked rd
  · next hset => exact h.signalled hset u rd

theorem eventAlarm_locked (s : State) (u : ℕ) :
    (s.eventAlarm.threads u).Locked ↔ (s.threads u).Locked := by
  unfold State.eventAlarm
  split
  · simp only
    split
    · next hu => simp [hu, Thread.Locked]
    · exact Iff.rfl
  · exact Iff.rfl

theorem eventAlarm_readMutex (s : State) : s.eventAlarm.readMutex = s.readMutex := by
  unfold State.eventAlarm
  split <;> rfl

/-- The alarm wakes all that are blocked, and the others will find the signal. -/
theorem alarm (h : Inv s) (ht : s.threads t = .receiving true) :
    Inv (s.eventAlarm.setThread t (.receiving false)) where
  locked := by
    intro u
    have hsame : (s.eventAlarm.setThread t (.receiving false)).readMutex = s.readMutex :=
      eventAlarm_readMutex s
    rw [hsame, h.locked]
    by_cases hut : u = t
    · subst hut
      simp [State.setThread, Thread.Locked, ht]
    · simp only [State.setThread]
      rw [update_of_ne hut, eventAlarm_locked]
  signalled := by
    intro _ u rd hu
    by_cases hut : u = t
    · simp [hut, State.setThread] at hu
    · simp only [State.setThread] at hu
      rw [update_of_ne hut] at hu
      exact h.eventAlarm_not_waiting u rd hu
  waiting := by
    intro u rd hu
    by_cases hut : u = t
    · simp [hut, State.setThread] at hu
    · simp only [State.setThread] at hu
      rw [update_of_ne hut] at hu
      exact absurd hu (h.eventAlarm_not_waiting u rd)
  waitNext := fun _ _ _ => .inl (eventAlarm_dataAvailable s)

/-! ## read -/

theorem loop (h : Inv s) (ht : s.threads t = .looping rd) (hspares : Spares s (.run t)) :
    Inv (s.loop t rd) := by
  have hlocked : (s.threads t).Locked := by
    rw [ht]
    trivial
  unfold State.loop
  split
  · next hgoesOn =>
    refine h.drain (t := t) rfl (by simp) (by simp) ?_ (.inl rfl) id ?_ ?_
    · exact h.locked_keep rfl rfl (by simp [ht, Thread.Locked])
    · exact fun hcovered => .inl (h.empty_of_locked hlocked (by simp [ht]) (by simp [ht]) hcovered)
    · intro hclear u rd' _ hu
      right
      right
      refine ⟨t, rd, update_self .., ?_⟩
      by_contra hsize
      have hset : s.dataAvailable ≠ 0 := fun hzero => hclear hzero.symm
      exact hspares t rd rfl ht hgoesOn hset (Nat.lt_of_not_le hsize) u rd' hu
  · refine h.keep (t := t) rfl (by simp) (by simp) ?_ rfl rfl (by simp [ht]) (by simp [ht])
    exact h.locked_keep rfl rfl (by simp [ht, Thread.Locked])

theorem take (h : Inv s) (ht : s.threads t = .looking rd) : Inv (s.take t rd) := by
  have hlocked : (s.threads t).Locked := by
    rw [ht]
    trivial
  have hsize := get_available (rd.size_le s.tty.readBuf)
  have hafter := rd.after_locked (s.tty.readBuf.get (rd.size s.tty.readBuf)).1
  refine h.drain (t := t) rfl hafter.ne_waiting hafter.ne_waitNext ?_ (.inr rfl) ?_ ?_ ?_
  · exact h.locked_keep rfl rfl (iff_of_true hafter hlocked)
  · intro hempty
    exact hsize.trans (by omega)
  · rintro (hempty | ⟨u, hu⟩ | ⟨u, rd', hu, hall⟩)
    · exact .inl hempty
    · have hut := h.only hlocked (u := u) (by rw [hu]; trivial)
      simp [← hut, hu] at ht
    · have hut := h.only hlocked (u := u) (by rw [hu]; trivial)
      obtain rfl : rd' = rd := by simpa [hut, ht] using hu.symm
      right
      left
      exact hsize.trans (by omega)
  · exact fun hne => absurd rfl hne

theorem look (h : Inv s) (ht : s.threads t = .looking rd) : Inv (s.look t rd) := by
  unfold State.look
  split
  · exact h.take ht
  · next haccepts =>
    have hempty : s.tty.readBuf.available = 0 := by
      rw [rd.accepts_eq, decide_eq_true_eq] at haccepts
      omega
    have hcovered : Covered ({ s with readMutex := none }.setThread t (.waitNext rd)) := .inl hempty
    constructor
    case locked =>
      exact h.locked_release (by rw [ht]; trivial) rfl rfl (by simp [Thread.Locked])
    case signalled =>
      intro hset u rd' hu
      by_cases hut : u = t
      · simp [hut, State.setThread] at hu
      · simp only [State.setThread] at hu
        rw [update_of_ne hut] at hu
        exact h.signalled hset u rd' hu
    case waiting => exact fun _ _ _ => hcovered
    case waitNext => exact fun _ _ _ => .inr hcovered

theorem schedWait (h : Inv s) (ht : s.threads t = .waitNext rd) : Inv (s.schedWait t rd) := by
  unfold State.schedWait
  split
  · next hclear =>
    have hkeep : Covered s → Covered (s.setThread t (.waiting rd)) := fun hcovered =>
      hcovered.setThread rfl rfl (by simp [ht]) (by simp [ht])
    constructor
    case locked => exact h.locked_keep rfl rfl (by simp [ht, Thread.Locked])
    case signalled => exact fun hset => absurd hclear hset
    case waiting =>
      intro u rd' hu
      apply hkeep
      by_cases hut : u = t
      · exact (h.waitNext t rd ht).resolve_left (fun hset => hset hclear)
      · simp only [State.setThread] at hu
        rw [update_of_ne hut] at hu
        exact h.waiting u rd' hu
    case waitNext =>
      intro u rd' hu
      by_cases hut : u = t
      · simp [hut, State.setThread] at hu
      · simp only [State.setThread] at hu
        rw [update_of_ne hut] at hu
        exact (h.waitNext u rd' hu).imp_right hkeep
  · refine h.keep (t := t) rfl (by simp) (by simp) ?_ rfl rfl (by simp [ht]) (by simp [ht])
    exact h.locked_keep rfl rfl (by simp [ht, Thread.Locked])

theorem resume (h : Inv s) {timedOut : Bool} (ht : s.threads t = .woken rd timedOut)
    (hfree : s.readMutex = none) : Inv (s.resume t rd timedOut) := by
  unfold State.resume
  split
  · refine h.keep (t := t) rfl (by simp) (by simp) ?_ rfl rfl (by simp [ht]) (by simp [ht])
    exact h.locked_acquire hfree rfl rfl trivial
  · split
    · refine h.keep (t := t) rfl (by simp) (by simp) ?_ rfl rfl (by simp [ht]) (by simp [ht])
      exact h.locked_acquire hfree rfl rfl trivial
    · refine h.keep (t := t) rfl (by simp) (by simp) ?_ rfl rfl (by simp [ht]) (by simp [ht])
      exact h.locked_acquire hfree rfl rfl trivial

theorem finish (h : Inv s) (ht : s.threads t = .finishing rd) : Inv (s.finish t rd) := by
  have hlocked : (s.threads t).Locked := by
    rw [ht]
    trivial
  unfold State.finish
  split
  · next hempty =>
    refine h.drain (t := t) rfl (by simp) (by simp) ?_ (.inl rfl) id (fun _ => .inl hempty)
      (fun _ _ _ _ _ => .inl hempty)
    exact h.locked_release hlocked rfl rfl (by simp [Thread.Locked])
  · refine h.keep (t := t) rfl (by simp) (by simp) ?_ rfl rfl (by simp [ht]) (by simp [ht])
    exact h.locked_release hlocked rfl rfl (by simp [Thread.Locked])

theorem advance (h : Inv s) (hspares : Spares s (.run t))
    (hs : s.advance t (s.threads t) = some s') : Inv s' := by
  cases ht : s.threads t with
  | idle => simp [ht, State.advance] at hs
  | receiving alarm =>
    cases alarm with
    | true =>
      obtain rfl : s.eventAlarm.setThread t (.receiving false) = s' := by
        simpa [ht, State.advance] using hs
      exact h.alarm ht
    | false =>
      obtain rfl : { s with readMutex := none }.setThread t .idle = s' := by
        simpa [ht, State.advance] using hs
      refine h.keep (t := t) rfl (by simp) (by simp) ?_ rfl rfl (by simp [ht]) (by simp [ht])
      exact h.locked_release (by rw [ht]; trivial) rfl rfl (by simp [Thread.Locked])
  | entering rd =>
    by_cases hfree : s.readMutex = none
    · obtain rfl : { s with readMutex := some t }.setThread t (.looping rd) = s' := by
        simpa [ht, State.advance, hfree] using hs
      refine h.keep (t := t) rfl (by simp) (by simp) ?_ rfl rfl (by simp [ht]) (by simp [ht])
      exact h.locked_acquire hfree rfl rfl trivial
    · simp [ht, State.advance, hfree] at hs
  | looping rd =>
    obtain rfl : s.loop t rd = s' := by simpa [ht, State.advance] using hs
    exact h.loop ht hspares
  | looking rd =>
    obtain rfl : s.look t rd = s' := by simpa [ht, State.advance] using hs
    exact h.look ht
  | waitNext rd =>
    obtain rfl : s.schedWait t rd = s' := by simpa [ht, State.advance] using hs
    exact h.schedWait ht
  | waiting rd => simp [ht, State.advance] at hs
  | woken rd timedOut =>
    by_cases hfree : s.readMutex = none
    · obtain rfl : s.resume t rd timedOut = s' := by simpa [ht, State.advance, hfree] using hs
      exact h.resume ht hfree
    · simp [ht, State.advance, hfree] at hs
  | finishing rd =>
    obtain rfl : s.finish t rd = s' := by simpa [ht, State.advance] using hs
    exact h.finish ht

end Inv

/-- **Step lemma.** -/
theorem step_inv (h : Inv s) {e : Event} (hspares : Spares s e) (hs : step termios s e = some s') :
    Inv s' := by
  cases e with
  | receive t c =>
    by_cases ht : s.threads t = .idle ∧ s.readMutex = none
    · obtain rfl : s.receive termios t c = s' := by simpa [step, ht] using hs
      exact h.receive ht.2 c
    · simp [step, ht] at hs
  | read t len =>
    by_cases ht : s.threads t = .idle
    · obtain rfl : s.setThread t (.entering (Read.start termios len)) = s' := by
        simpa [step, ht] using hs
      refine h.keep (t := t) rfl (by simp) (by simp) ?_ rfl rfl (by simp [ht]) (by simp [ht])
      exact h.locked_keep rfl rfl (by simp [ht, Thread.Locked])
    · simp [step, ht] at hs
  | timeout t =>
    simp only [step] at hs
    split at hs
    · next rd ht =>
      split at hs
      · obtain rfl : s.setThread t (.woken rd true) = s' := by simpa using hs
        refine h.keep (t := t) rfl (by simp) (by simp) ?_ rfl rfl (by simp [ht]) (by simp [ht])
        exact h.locked_keep rfl rfl (by simp [ht, Thread.Locked])
      · simp at hs
    · simp at hs
  | run t => exact h.advance hspares hs

theorem fresh_inv (backing : List UInt8) : Inv (fresh backing) where
  locked := by simp [fresh, Thread.Locked]
  signalled := by simp [fresh]
  waiting := by simp [fresh]
  waitNext := by simp [fresh]

/-- **Run lemma.** -/
theorem reachable_inv (h : (system termios).ReachableUnder Spares s) : Inv s := by
  apply h.invariant
  · rintro s ⟨backing, -, rfl⟩
    exact fresh_inv backing
  · exact fun s e s' hinv hspares hs => step_inv hinv hspares hs

/-- **No reader sleeps on input.** In every run in which no reader clears a signal that another is
about to wait for and leaves bytes, no reader is blocked in the end on bytes that it accepts. -/
theorem none_asleep (termios : Termios) (h : (system termios).ReachableUnder Spares s) :
    NoneAsleep s := by
  have hinv := reachable_inv h
  rintro ⟨hfree, -⟩ t rd ht
  rw [rd.accepts_eq, decide_eq_false_iff_not]
  have hempty := hinv.empty_of_free hfree (hinv.waiting t rd ht)
  omega

/-! ## Two runs -/

/-- A character comes in, and the mutex is released. -/
def typeChar (c : UInt8) : List Event := [.receive 0 c, .run 0]

/-- A line of one character and its end come in. -/
def typeLine (c : UInt8) : List Event :=
  typeChar c ++ [.receive 0 newline, .run 0, .run 0]

/-- A thread calls `read` and looks at the buffer. -/
def readAndLook (t len : ℕ) : List Event := [.read t len, .run t, .run t, .run t]

/-- A thread blocks, or returns from `sched_wait`, and looks at the buffer again. -/
def lookAgain (t : ℕ) : List Event := [.run t, .run t, .run t]

/-- Only three threads take steps, and no reader clears a signal but takes all there is. -/
def Thorough (s : State) (e : Event) : Prop :=
  e.thread < 3 ∧ match s.threads e.thread with
    | .looping rd => s.dataAvailable = 0 ∨ s.tty.readBuf.available ≤ rd.size s.tty.readBuf
    | _ => True

instance (s : State) (e : Event) : Decidable (Thorough s e) := by
  unfold Thorough
  cases s.threads e.thread <;> infer_instance

theorem Thorough.spares {e : Event} (h : Thorough s e) : Spares s e := by
  rintro t rd rfl ht _ hset hsize
  have hlooping := h.2
  rw [Event.thread, ht] at hlooping
  rcases hlooping with hzero | hall
  · exact absurd hzero hset
  · omega

/-- Two readers are woken by one line; the first takes it, and the second sleeps again. -/
theorem none_asleep_two : ∃ s, Quiescent s ∧ s.reads = [[97, 10]] ∧
    s.threads 2 = .waiting (Read.start defaultTermios 9) ∧ NoneAsleep s := by
  have hrun : ∃ s, (system defaultTermios).ReachableUnder Thorough s ∧
      (quiescentBelow s 3 && decide (s.reads = [[97, 10]] ∧
        s.threads 2 = .waiting (Read.start defaultTermios 9))) = true :=
    exists_reachableUnder_of_runUnder
      (show (system defaultTermios).init (fresh (List.replicate 4096 0)) from
        ⟨_, List.length_replicate, rfl⟩)
      (readAndLook 1 9 ++ [.run 1] ++ readAndLook 2 9 ++ [.run 2] ++ typeLine 97 ++
        lookAgain 1 ++ [.run 1] ++ lookAgain 2 ++ [.run 2]) _ (by decide +kernel)
  obtain ⟨s, hs, hend⟩ := hrun
  rw [Bool.and_eq_true, decide_eq_true_eq] at hend
  have hidle := reachable_idle (fun _ _ hC => hC.1) hs
  exact ⟨s, quiescent_of_below hidle hend.1, hend.2.1, hend.2.2,
    none_asleep defaultTermios (hs.mono fun _ _ => Thorough.spares)⟩

/-- **A reader sleeps on input.** Thread 1 finds nothing; a line comes in before it waits; thread 2
clears the signal and takes one byte of two. -/
theorem reader_asleep : ∃ s, (system defaultTermios).Reachable s ∧ Quiescent s ∧
    s.threads 1 = .waiting (Read.start defaultTermios 9) ∧ s.tty.readBuf.available = 1 ∧
    ¬ NoneAsleep s := by
  have hrun : ∃ s, (system defaultTermios).ReachableUnder (fun _ e => e.thread < 3) s ∧
      (quiescentBelow s 3 && decide (s.threads 1 = .waiting (Read.start defaultTermios 9) ∧
        s.tty.readBuf.available = 1)) = true :=
    exists_reachableUnder_of_runUnder
      (show (system defaultTermios).init (fresh (List.replicate 4096 0)) from
        ⟨_, List.length_replicate, rfl⟩)
      (readAndLook 1 9 ++ typeLine 97 ++ readAndLook 2 1 ++ [.run 2, .run 1]) _
      (by decide +kernel)
  obtain ⟨s, hs, hend⟩ := hrun
  rw [Bool.and_eq_true, decide_eq_true_eq] at hend
  have hidle := reachable_idle (fun _ _ hC => hC) hs
  have hquiescent := quiescent_of_below hidle hend.1
  refine ⟨s, hs.reachable, hquiescent, hend.2.1, hend.2.2, fun hnone => ?_⟩
  have haccepts := hnone hquiescent 1 _ hend.2.1
  rw [Read.accepts_eq, hend.2.2] at haccepts
  simp at haccepts

end NTty
