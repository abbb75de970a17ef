/-
# Polling a terminal

`poll` of `kernel/io/tty/n_tty.c` beside its `read`.  In canonical mode `poll` looks for the end of
a line, and `read` returns a partial line too, which an end of file has committed.
-/
import YakKernel.NTtyLines
import YakKernel.NTtyWakeup

namespace NTty

open Function TransitionSystem

/-! ## poll -/

/-- `POLLIN` -/
def pollIn : BitVec 16 := 0x0001

/-- `POLLOUT` -/
def pollOut : BitVec 16 := 0x0004

/-- `poll`: `*ret` afterwards. -/
def poll (termios : Termios) (tty : Tty) (mask ret : BitVec 16) : BitVec 16 :=
  let ret := if mask &&& pollOut ≠ 0 then ret ||| pollOut else ret
  if mask &&& pollIn ≠ 0 then
    if termios.icanon then
      if checkLine tty.readBuf > 0 then ret ||| pollIn else ret
    else if tty.readBuf.available > 0 then ret ||| pollIn else ret
  else ret

/-- `poll` with this mask reports `POLLIN`. -/
def ReportsIn (termios : Termios) (tty : Tty) (mask : BitVec 16) : Prop :=
  poll termios tty mask 0 &&& pollIn ≠ 0

/-- The buffer is ready in the eyes of `poll`. -/
def pollReady (termios : Termios) (rb : RingBuffer UInt8) : Prop :=
  if termios.icanon then checkLine rb > 0 else rb.available > 0

/-- The steps of the thread `t` alone take its call to the end. -/
def Finishes (termios : Termios) (t : ℕ) (s : State) : Prop :=
  ∃ n s', (system termios).run s (List.replicate n (.run t)) = some s' ∧ s'.threads t = .idle

/-- A `read` that the thread issues in this state returns, and nothing else has to happen. -/
def ReturnsAtOnce (termios : Termios) (s : State) (t len : ℕ) : Prop :=
  ∃ s', step termios s (.read t len) = some s' ∧ Finishes termios t s'

instance (termios : Termios) (tty : Tty) (mask : BitVec 16) :
    Decidable (ReportsIn termios tty mask) := inferInstanceAs (Decidable (_ ≠ _))

variable {termios : Termios} {s s' : State} {t len : ℕ} {rd : Read} {rb : RingBuffer UInt8}
  {mask : BitVec 16}

theorem reportsIn_iff (hmask : mask &&& pollIn ≠ 0) (tty : Tty) :
    ReportsIn termios tty mask ↔ pollReady termios tty.readBuf := by
  have hout : (if mask &&& pollOut ≠ 0 then 0 ||| pollOut else (0 : BitVec 16)) &&& pollIn = 0 := by
    split <;> rfl
  have hin : ∀ ret : BitVec 16, (ret ||| pollIn) &&& pollIn ≠ 0 := by
    intro ret hzero
    have hbit := congrArg (fun b : BitVec 16 => b.getLsbD 0) hzero
    simp [pollIn] at hbit
  unfold ReportsIn poll pollReady
  rw [if_pos hmask]
  cases termios.icanon with
  | true =>
    rw [if_pos rfl, if_pos rfl]
    by_cases hline : checkLine tty.readBuf > 0
    · rw [if_pos hline]
      exact iff_of_true (hin _) hline
    · rw [if_neg hline]
      exact iff_of_false (fun h => h hout) hline
  | false =>
    rw [if_neg Bool.false_ne_true, if_neg Bool.false_ne_true]
    by_cases havailable : tty.readBuf.available > 0
    · rw [if_pos havailable]
      exact iff_of_true (hin _) havailable
    · rw [if_neg havailable]
      exact iff_of_false (fun h => h hout) havailable

theorem lineLength_pos_iff (line : List UInt8) : lineLength line > 0 ↔ newline ∈ line := by
  constructor
  · intro hpos
    by_contra hnew
    rw [lineLength_eq_zero hnew] at hpos
    exact lt_irrefl 0 hpos
  · intro hmem
    obtain ⟨line, rest, rfl, hnew⟩ := List.eq_append_cons_of_mem hmem
    rw [lineLength_append hnew]
    omega

theorem available_pos_iff (h : rb.WellFormed) : rb.available > 0 ↔ rb.contents ≠ [] := by
  rw [RingBuffer.available, ← RingBuffer.contents_length h]
  exact List.length_pos_iff

theorem pollReady_iff (h : rb.WellFormed) :
    (pollReady termios rb ↔ rb.available > 0) ↔
      ¬ (termios.icanon = true ∧ rb.contents ≠ [] ∧ newline ∉ rb.contents) := by
  unfold pollReady
  rw [available_pos_iff h, checkLine_eq h, lineLength_pos_iff]
  have hne : newline ∈ rb.contents → rb.contents ≠ [] := List.ne_nil_of_mem
  cases termios.icanon with
  | true =>
    rw [if_pos rfl]
    tauto
  | false => simp

/-! ## A read that goes on alone -/

theorem Finishes.of_idle (h : s.threads t = .idle) : Finishes termios t s := ⟨0, s, rfl, h⟩

theorem Finishes.step (h : Finishes termios t s') (hs : s.advance t (s.threads t) = some s') :
    Finishes termios t s := by
  obtain ⟨n, s'', hrun, hidle⟩ := h
  refine ⟨n + 1, s'', ?_, hidle⟩
  have hstep : (system termios).step s (.run t) = some s' := hs
  rw [List.replicate_succ, TransitionSystem.run, List.foldlM_cons, hstep]
  exact hrun

theorem setThread_threads (s : State) (t : ℕ) (thread : Thread) :
    (s.setThread t thread).threads t = thread := update_self ..

theorem finishes_of_finishing (h : s.threads t = .finishing rd) : Finishes termios t s := by
  refine .step (.of_idle (s := s.finish t rd) (setThread_threads ..)) ?_
  rw [h]
  rfl

theorem finishes_of_looping (h : s.threads t = .looping rd) (hends : rd.goesOn = false) :
    Finishes termios t s := by
  have hlast : Finishes termios t (s.setThread t (.finishing rd)) :=
    finishes_of_finishing (setThread_threads ..)
  refine hlast.step ?_
  rw [h, State.advance, State.loop, hends]
  rfl

theorem finishes_of_looking (h : s.threads t = .looking rd) (hsize : s.tty.readBuf.available > 0)
    (hgot : rd.got = []) (hlen : 0 < rd.len) (hvmin : rd.vmin = 1)
    (hwf : s.tty.readBuf.WellFormed) : Finishes termios t s := by
  have hadvance : s.advance t (s.threads t) = some (s.take t rd) := by
    rw [h, State.advance, State.look, rd.accepts_eq, if_pos (by simpa using hsize)]
  refine Finishes.step ?_ hadvance
  have hthread : (s.take t rd).threads t =
      rd.after (s.tty.readBuf.get (rd.size s.tty.readBuf)).1 := setThread_threads ..
  unfold Read.after at hthread
  cases hicanon : rd.icanon with
  | true =>
    rw [hicanon, Bool.true_or, if_pos rfl] at hthread
    exact finishes_of_finishing hthread
  | false =>
    rw [hicanon, hvmin, if_neg (by decide)] at hthread
    refine finishes_of_looping hthread ?_
    -- one byte at least has been taken
    have htake := (RingBuffer.get_contents hwf (rd.size s.tty.readBuf)).1
    have hlength := RingBuffer.contents_length hwf
    have hone : (s.tty.readBuf.get (rd.size s.tty.readBuf)).1.length > 0 := by
      rw [htake, List.length_take, hlength, Read.size, hicanon, hgot]
      simp only [RingBuffer.available, List.length_nil] at hsize ⊢
      simp only [Bool.false_eq_true, if_false]
      omega
    simp only [Read.goesOn, hgot, List.nil_append, Bool.false_or]
    simp only [Bool.or_eq_false_iff, beq_eq_false_iff_ne, Bool.and_eq_false_iff,
      decide_eq_false_iff_not]
    exact ⟨by omega, .inr (by omega)⟩

/-- A read without a byte to take: it is on the way to `sched_wait`, and nothing sets the signal. -/
def Starved (termios : Termios) (t len : ℕ) (s : State) : Prop :=
  s.tty.readBuf.available = 0 ∧
    (s.threads t = .entering (Read.start termios len) ∨
      s.threads t = .looping (Read.start termios len) ∨
      s.threads t = .looking (Read.start termios len) ∧ s.dataAvailable = 0 ∨
      s.threads t = .waitNext (Read.start termios len) ∧ s.dataAvailable = 0 ∨
      s.threads t = .waiting (Read.start termios len))

/-- **Step lemma.** -/
theorem Starved.step (h : Starved termios t len s) (hs : s.advance t (s.threads t) = some s') :
    Starved termios t len s' := by
  obtain ⟨hempty, ht | ht | ⟨ht, hclear⟩ | ⟨ht, hclear⟩ | ht⟩ := h
  · rw [ht, State.advance] at hs
    split at hs
    · cases hs
      exact ⟨hempty, .inr (.inl (setThread_threads ..))⟩
    · cases hs
  · have hloop : s.loop t (Read.start termios len) =
        s.eventClear.setThread t (.looking (Read.start termios len)) := if_pos (by
      simp [Read.goesOn, Read.start])
    rw [ht, State.advance, hloop] at hs
    cases hs
    exact ⟨hempty, .inr (.inr (.inl ⟨setThread_threads .., rfl⟩))⟩
  · rw [ht, State.advance, State.look, Read.accepts_eq, hempty] at hs
    cases hs
    exact ⟨hempty, .inr (.inr (.inr (.inl ⟨setThread_threads .., hclear⟩)))⟩
  · rw [ht, State.advance, State.schedWait, if_pos hclear] at hs
    cases hs
    exact ⟨hempty, .inr (.inr (.inr (.inr (setThread_threads ..))))⟩
  · rw [ht, State.advance] at hs
    cases hs

/-- **Run lemma.** -/
theorem Starved.not_finishes (h : Starved termios t len s) : ¬ Finishes termios t s := by
  rintro ⟨n, s', hrun, hidle⟩
  induction n generalizing s with
  | zero =>
    obtain rfl : s = s' := Option.some.inj hrun
    obtain ⟨-, ht | ht | ⟨ht, -⟩ | ⟨ht, -⟩ | ht⟩ := h <;> rw [hidle] at ht <;> cases ht
  | succ n ih =>
    rw [List.replicate_succ, TransitionSystem.run, List.foldlM_cons] at hrun
    obtain ⟨s₁, hs, hrest⟩ := Option.bind_eq_some_iff.mp hrun
    exact ih (h.step hs) hrest

/-- With `VMIN` 1, a read of at least one byte returns at once when there is a byte. -/
theorem returnsAtOnce_iff (hvmin : termios.vmin = 1) (hwf : s.tty.readBuf.WellFormed)
    (ht : s.threads t = .idle) (hfree : s.readMutex = none) (hlen : 0 < len) :
    ReturnsAtOnce termios s t len ↔ s.tty.readBuf.available > 0 := by
  have hread : step termios s (.read t len) =
      some (s.setThread t (.entering (Read.start termios len))) := if_pos ht
  constructor
  · rintro ⟨s', hs, hfinishes⟩
    by_contra hempty
    have hzero : s.tty.readBuf.available = 0 := by omega
    rw [hread] at hs
    cases hs
    have hstarved : Starved termios t len (s.setThread t (.entering (Read.start termios len))) :=
      ⟨hzero, .inl (setThread_threads ..)⟩
    exact hstarved.not_finishes hfinishes
  · intro hsize
    refine ⟨_, hread, ?_⟩
    have hlooking : Finishes termios t
        ({ s with readMutex := some t, dataAvailable := 0 }.setThread t
          (.looking (Read.start termios len))) :=
      finishes_of_looking (setThread_threads ..) hsize rfl hlen
        (by rw [Read.start, hvmin]; rfl) hwf
    have hlooping : Finishes termios t
        ({ s with readMutex := some t }.setThread t (.looping (Read.start termios len))) := by
      refine hlooking.step ?_
      rw [setThread_threads]
      simp [State.advance, State.loop, Read.goesOn, Read.start, State.eventClear, State.setThread]
    refine hlooping.step ?_
    rw [setThread_threads]
    simp [State.advance, State.setThread, hfree]

/-- **poll agrees with read, but for a partial line.**  In canonical mode, bytes without the end of
a line are returned by `read`, and `poll` does not report them. -/
theorem poll_agrees_iff (hvmin : termios.vmin = 1) (hwf : s.tty.readBuf.WellFormed)
    (ht : s.threads t = .idle) (hfree : s.readMutex = none) (hlen : 0 < len)
    (hmask : mask &&& pollIn ≠ 0) :
    (ReportsIn termios s.tty mask ↔ ReturnsAtOnce termios s t len) ↔
      ¬ (termios.icanon = true ∧ s.tty.readBuf.contents ≠ [] ∧
        newline ∉ s.tty.readBuf.contents) := by
  rw [reportsIn_iff hmask, returnsAtOnce_iff hvmin hwf ht hfree hlen]
  exact pollReady_iff hwf

/-- A terminal with these bytes in the buffer, which nobody uses. -/
def holding (bytes : List UInt8) : State :=
  { fresh [] with
    tty := { readBuf := ((RingBuffer.staticInit (List.replicate 8 0)).put bytes).2
             canonicalBuf := [] } }

theorem holding_wellFormed (bytes : List UInt8) : (holding bytes).tty.readBuf.WellFormed :=
  RingBuffer.put_wellFormed (RingBuffer.staticInit_wellFormed (by simp)) bytes

/-- A line is reported, and read. -/
theorem poll_agrees_line :
    ReportsIn defaultTermios (holding [97, 10]).tty pollIn ↔
      ReturnsAtOnce defaultTermios (holding [97, 10]) 0 1 :=
  (poll_agrees_iff rfl (holding_wellFormed _) rfl rfl Nat.one_pos (by decide)).mpr (by decide)

theorem returnsAtOnce_of_run {n : ℕ}
    (h : ((system termios).run s (.read t len :: List.replicate n (.run t))).any
      (fun s' => decide (s'.threads t = .idle)) = true) : ReturnsAtOnce termios s t len := by
  obtain ⟨s'', hrun, hidle⟩ := (Option.any_eq_true _ _).mp h
  rw [TransitionSystem.run, List.foldlM_cons] at hrun
  obtain ⟨s', hs, hrest⟩ := Option.bind_eq_some_iff.mp hrun
  exact ⟨s', hs, n, s'', hrest, of_decide_eq_true hidle⟩

/-- **Counterexample.**  `ab` and an end of file come in: a read returns, and `poll` reports
nothing. -/
theorem poll_misses_partial : ∃ s, (system defaultTermios).Reachable s ∧
    s.threads 1 = .idle ∧ s.readMutex = none ∧ ReturnsAtOnce defaultTermios s 1 1 ∧
      ¬ ReportsIn defaultTermios s.tty pollIn := by
  have hrun : ∃ s, (system defaultTermios).Reachable s ∧
      (decide (s.threads 1 = .idle ∧ s.readMutex = none ∧
          ¬ ReportsIn defaultTermios s.tty pollIn) &&
        ((system defaultTermios).run s (.read 1 1 :: List.replicate 4 (.run 1))).any
          (fun s' => decide (s'.threads 1 = .idle))) = true :=
    exists_reachable_of_run
      (show (system defaultTermios).init (fresh (List.replicate 4096 0)) from
        ⟨_, List.length_replicate, rfl⟩)
      (typeChar 97 ++ typeChar 98 ++ [.receive 0 4, .run 0, .run 0]) _ (by decide +kernel)
  obtain ⟨s, hs, hend⟩ := hrun
  rw [Bool.and_eq_true, decide_eq_true_eq] at hend
  exact ⟨s, hs, hend.1.1, hend.1.2.1, returnsAtOnce_of_run hend.2, hend.1.2.2⟩

end NTty
