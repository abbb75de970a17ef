/-
# The terminal line discipline

`kernel/io/tty/n_tty.c`, with the event of `kernel/core/kevent.c`: characters come in through
`receive_char`, and any number of threads read.  All of `receive_char` and most of `read` is under
`read_mutex`; a step is the part of such a section between two operations on the event
`data_available`, one of these operations, or `sched_wait`.
-/
import YakKernel.RingBuffer
import YakKernel.TransitionSystem

namespace NTty

/-! ## Data -/

/-- `TTY_BUF_SIZE` -/
def ttyBufSize : ℕ := 4096

def newline : UInt8 := 10

/-- What the discipline reads of `struct termios`. -/
structure Termios where
  icanon : Bool
  verase : UInt8
  vkill : UInt8
  veof : UInt8
  vmin : UInt8
  vtime : UInt8

/-- `default_termios` -/
def defaultTermios : Termios where
  icanon := true
  verase := 0x7f
  vkill := 0x15
  veof := 0x04
  vmin := 1
  vtime := 0

/-- `c == t->c_cc[i]`: a `char` is signed, and a `cc_t` is not. -/
def isControl (c cc : UInt8) : Bool := decide (c < 128) && c == cc

/-- The buffers of `struct tty`. -/
structure Tty where
  readBuf : RingBuffer UInt8
  /-- The first `canonical_pos` bytes of `canonical_buf`. -/
  canonicalBuf : List UInt8

/-! ## Input -/

/-- `commit_line`, up to `event_alarm`, and whether it gets there. -/
def commitLine (tty : Tty) : Tty × Bool :=
  if tty.canonicalBuf = [] then (tty, false)
  else ({ readBuf := (tty.readBuf.put tty.canonicalBuf).2, canonicalBuf := [] }, true)

/-- `receive_char`, up to `event_alarm`, and whether it gets there. -/
def receiveChar (t : Termios) (tty : Tty) (c : UInt8) : Tty × Bool :=
  if t.icanon then
    if isControl c t.verase then
      ({ tty with canonicalBuf := tty.canonicalBuf.dropLast }, false)
    else if isControl c t.vkill then ({ tty with canonicalBuf := [] }, false)
    else if isControl c t.veof then commitLine tty
    else
      let tty := if tty.canonicalBuf.length < ttyBufSize - 1 then
          { tty with canonicalBuf := tty.canonicalBuf ++ [c] }
        else tty
      if c = newline then commitLine tty else (tty, false)
  else ({ tty with readBuf := (tty.readBuf.put [c]).2 }, true)

/-! ## Reads -/

/-- The loop of `check_line`, with the number of bytes left. -/
def checkLineFrom (rb : RingBuffer UInt8) : ℕ → ℕ → ℕ
  | 0, _ => 0
  | left + 1, i =>
    if rb.data[(rb.tail + i) % rb.capacity]? = some newline then i + 1
    else checkLineFrom rb left (i + 1)

/-- `check_line` -/
def checkLine (rb : RingBuffer UInt8) : ℕ := checkLineFrom rb rb.available 0

/-- A line, or else all there is: a partial line. -/
def lineSize (rb : RingBuffer UInt8) : ℕ :=
  if checkLine rb = 0 ∧ rb.available > 0 then rb.available else checkLine rb

/-- The arguments and the variables of a `read`. -/
structure Read where
  icanon : Bool
  vmin : ℕ
  vtime : ℕ
  len : ℕ
  got : List UInt8
  firstByte : Bool
  deriving DecidableEq

/-- `read` starts. -/
def Read.start (t : Termios) (len : ℕ) : Read where
  icanon := t.icanon
  vmin := t.vmin.toNat
  vtime := t.vtime.toNat
  len := len
  got := []
  firstByte := true

/-- There is something to take. -/
def Read.accepts (rd : Read) (rb : RingBuffer UInt8) : Bool :=
  if rd.icanon then decide (lineSize rb > 0) else decide (rb.available > 0)

/-- How much is taken. -/
def Read.size (rd : Read) (rb : RingBuffer UInt8) : ℕ :=
  if rd.icanon then min (lineSize rb) rd.len else min rb.available (rd.len - rd.got.length)

/-- The condition of the loop. -/
def Read.goesOn (rd : Read) : Bool :=
  rd.icanon || rd.got.length == 0 || (decide (rd.vmin > 0) && decide (rd.got.length < rd.vmin))

/-! ## Threads -/

/-- Where a thread is. -/
inductive Thread
  /-- Not in the code below. -/
  | idle
  /-- In `receive_char` with the mutex, before `event_alarm` or after it. -/
  | receiving (alarm : Bool)
  /-- In `read`, before the first acquisition of the mutex. -/
  | entering (rd : Read)
  /-- At the head of the loop, with the mutex. -/
  | looping (rd : Read)
  /-- After `event_clear`, with the mutex. -/
  | looking (rd : Read)
  /-- Before `sched_wait`, without the mutex. -/
  | waitNext (rd : Read)
  /-- Blocked in `sched_wait`. -/
  | waiting (rd : Read)
  /-- After `sched_wait`, before the acquisition of the mutex. -/
  | woken (rd : Read) (timedOut : Bool)
  /-- After the loop, with the mutex. -/
  | finishing (rd : Read)
  deriving DecidableEq

/-- Where a read is after it has taken some bytes. -/
def Read.after (rd : Read) (bytes : List UInt8) : Thread :=
  if rd.icanon || rd.vmin == 0 then .finishing { rd with got := rd.got ++ bytes }
  else .looping { rd with
    got := rd.got ++ bytes
    firstByte := false }

/-- A terminal, and the threads that use it. -/
structure State where
  tty : Tty
  /-- `data_available.hdr.obj_signal_count` -/
  dataAvailable : ℕ
  /-- The owner of `read_mutex`. -/
  readMutex : Option ℕ
  threads : ℕ → Thread
  /-- The characters received since the last line. -/
  typed : List UInt8
  /-- The lines, the first one first. -/
  lines : List (List UInt8)
  /-- The bytes of each read in canonical mode, the first one first. -/
  reads : List (List UInt8)
  /-- The reads that were blocked when an end of file came in, and have not returned 0 bytes. -/
  owed : ℕ → Bool

/-- What is on a line after erase and kill, from the characters typed. -/
def edit (t : Termios) (line : List UInt8) (c : UInt8) : List UInt8 :=
  if isControl c t.verase then line.dropLast
  else if isControl c t.vkill then []
  else if isControl c t.veof then line
  else if line.length < ttyBufSize - 1 then line ++ [c] else line

/-- The line that has been typed. -/
def edited (t : Termios) (typed : List UInt8) : List UInt8 := typed.foldl (edit t) []

/-- The character ends a line. -/
def endsLine (t : Termios) (c : UInt8) : Bool :=
  t.icanon && !isControl c t.verase && !isControl c t.vkill && (isControl c t.veof || c == newline)

def Thread.isBlocked : Thread → Bool
  | .waiting _ => true
  | _ => false

namespace State

variable (s : State)

def setThread (t : ℕ) (thread : Thread) : State :=
  { s with threads := Function.update s.threads t thread }

/-! ## The event -/

/-- `event_alarm`: no signal is lost on an event that is set, and all that are blocked go on. -/
def eventAlarm : State :=
  if s.dataAvailable = 0 then
    { s with
      dataAvailable := 1
      threads := fun t =>
        match s.threads t with
        | .waiting rd => .woken rd false
        | thread => thread }
  else s

def eventClear : State := { s with dataAvailable := 0 }

/-! ## Steps -/

/-- What an observer of the line has seen: the characters, and the lines that end. -/
def observe (termios : Termios) (c : UInt8) : State :=
  if endsLine termios c && !(edited termios (s.typed ++ [c])).isEmpty then
    { s with
      typed := []
      lines := s.lines ++ [edited termios (s.typed ++ [c])] }
  else
    { s with
      typed := s.typed ++ [c]
      owed := fun t => s.owed t || (endsLine termios c && (s.threads t).isBlocked) }

/-- `receive_char`, from the acquisition of the mutex on. -/
def receive (termios : Termios) (t : ℕ) (c : UInt8) : State :=
  let r := receiveChar termios s.tty c
  { s.observe termios c with
    tty := r.1
    readMutex := some t }.setThread t (.receiving r.2)

/-- At the head of the loop. -/
def loop (t : ℕ) (rd : Read) : State :=
  if rd.goesOn then s.eventClear.setThread t (.looking rd)
  else s.setThread t (.finishing rd)

/-- A read takes what there is. -/
def take (t : ℕ) (rd : Read) : State :=
  let r := s.tty.readBuf.get (rd.size s.tty.readBuf)
  { s with
    tty := { s.tty with readBuf := r.2 }
    reads := if rd.icanon then s.reads ++ [r.1] else s.reads }.setThread t (rd.after r.1)

/-- After `event_clear`. -/
def look (t : ℕ) (rd : Read) : State :=
  if rd.accepts s.tty.readBuf then s.take t rd
  else { s with readMutex := none }.setThread t (.waitNext rd)

/-- `sched_wait(&tty->data_available, ..)` -/
def schedWait (t : ℕ) (rd : Read) : State :=
  if s.dataAvailable = 0 then s.setThread t (.waiting rd) else s.setThread t (.woken rd false)

/-- After the acquisition of the mutex that follows `sched_wait`. -/
def resume (t : ℕ) (rd : Read) (timedOut : Bool) : State :=
  { s with readMutex := some t }.setThread t
    (if timedOut then .finishing rd
    else if rd.icanon = false ∧ rd.vtime > 0 ∧ rd.firstByte = false ∧
      s.tty.readBuf.available = 0 then .finishing rd
    else .looping rd)

/-- The end of `read`. -/
def finish (t : ℕ) (rd : Read) : State :=
  { if s.tty.readBuf.available = 0 then s.eventClear else s with
    readMutex := none
    owed := Function.update s.owed t (s.owed t && !rd.got.isEmpty) }.setThread t .idle

/-- The next step of a thread. -/
def advance (t : ℕ) : Thread → Option State
  | .idle => none
  | .receiving true => some (s.eventAlarm.setThread t (.receiving false))
  | .receiving false => some ({ s with readMutex := none }.setThread t .idle)
  | .entering rd =>
    if s.readMutex = none then
      some ({ s with readMutex := some t }.setThread t (.looping rd))
    else none
  | .looping rd => some (s.loop t rd)
  | .looking rd => some (s.look t rd)
  | .waitNext rd => some (s.schedWait t rd)
  | .waiting _ => none
  | .woken rd timedOut => if s.readMutex = none then some (s.resume t rd timedOut) else none
  | .finishing rd => some (s.finish t rd)

end State

/-- What can happen next. -/
inductive Event
  /-- The thread gets the mutex in `receive_char`. -/
  | receive (t : ℕ) (c : UInt8)
  /-- The thread calls `read`. -/
  | read (t : ℕ) (len : ℕ)
  /-- The wait of the thread times out. -/
  | timeout (t : ℕ)
  /-- The thread goes on. -/
  | run (t : ℕ)
  deriving DecidableEq

def Event.thread : Event → ℕ
  | .receive t _ => t
  | .read t _ => t
  | .timeout t => t
  | .run t => t

def step (termios : Termios) (s : State) : Event → Option State
  | .receive t c =>
    if s.threads t = .idle ∧ s.readMutex = none then some (s.receive termios t c) else none
  | .read t len =>
    if s.threads t = .idle then
      some (s.setThread t (.entering (Read.start termios len)))
    else none
  | .timeout t =>
    match s.threads t with
    | .waiting rd =>
      if rd.icanon = false ∧ rd.vtime > 0 then some (s.setThread t (.woken rd true)) else none
    | _ => none
  | .run t => s.advance t (s.threads t)

/-- A terminal that nobody uses. -/
def fresh (backing : List UInt8) : State where
  tty := { readBuf := RingBuffer.staticInit backing, canonicalBuf := [] }
  dataAvailable := 0
  readMutex := none
  threads _ := .idle
  typed := []
  lines := []
  reads := []
  owed _ := false

/-- The uses of a terminal with the settings `termios`. -/
def system (termios : Termios) : TransitionSystem State Event where
  init s := ∃ backing : List UInt8, backing.length = ttyBufSize ∧ s = fresh backing
  step := step termios

/-- No thread can go on before something else comes. -/
def Quiescent (s : State) : Prop :=
  s.readMutex = none ∧ ∀ t, s.threads t = .idle ∨ ∃ rd, s.threads t = .waiting rd

/-- The threads below `n` cannot go on. -/
def quiescentBelow (s : State) (n : ℕ) : Bool :=
  s.readMutex.isNone && (List.range n).all fun t =>
    match s.threads t with
    | .idle => true
    | .waiting _ => true
    | _ => false

/-! ## Threads that do nothing -/

variable {termios : Termios} {s s' : State} {t : ℕ}

theorem observe_threads (termios : Termios) (s : State) (c : UInt8) :
    (s.observe termios c).threads = s.threads := by
  unfold State.observe
  split <;> rfl

theorem eventAlarm_idle (h : s.threads t = .idle) : s.eventAlarm.threads t = .idle := by
  unfold State.eventAlarm
  split
  · simp [h]
  · exact h

theorem advance_idle (h : s.threads t = .idle) {u : ℕ} (hut : t ≠ u) {thread : Thread}
    (hs : s.advance u thread = some s') : s'.threads t = .idle := by
  cases thread with
  | idle => simp [State.advance] at hs
  | receiving alarm =>
    cases alarm with
    | true =>
      obtain rfl : s.eventAlarm.setThread u (.receiving false) = s' := by
        simpa [State.advance] using hs
      simp [State.setThread, hut, eventAlarm_idle h]
    | false =>
      obtain rfl : { s with readMutex := none }.setThread u .idle = s' := by
        simpa [State.advance] using hs
      simp [State.setThread, hut, h]
  | entering rd =>
    by_cases hfree : s.readMutex = none
    · obtain rfl : { s with readMutex := some u }.setThread u (.looping rd) = s' := by
        simpa [State.advance, hfree] using hs
      simp [State.setThread, hut, h]
    · simp [State.advance, hfree] at hs
  | looping rd =>
    obtain rfl : s.loop u rd = s' := by simpa [State.advance] using hs
    unfold State.loop
    split <;> simp [State.setThread, State.eventClear, hut, h]
  | looking rd =>
    obtain rfl : s.look u rd = s' := by simpa [State.advance] using hs
    unfold State.look State.take
    split <;> simp [State.setThread, hut, h]
  | waitNext rd =>
    obtain rfl : s.schedWait u rd = s' := by simpa [State.advance] using hs
    unfold State.schedWait
    split <;> simp [State.setThread, hut, h]
  | waiting rd => simp [State.advance] at hs
  | woken rd timedOut =>
    by_cases hfree : s.readMutex = none
    · obtain rfl : s.resume u rd timedOut = s' := by simpa [State.advance, hfree] using hs
      simp [State.resume, State.setThread, hut, h]
    · simp [State.advance, hfree] at hs
  | finishing rd =>
    obtain rfl : s.finish u rd = s' := by simpa [State.advance] using hs
    unfold State.finish
    split <;> simp [State.setThread, State.eventClear, hut, h]

theorem step_idle (h : s.threads t = .idle) {e : Event} (he : e.thread ≠ t)
    (hs : step termios s e = some s') : s'.threads t = .idle := by
  cases e with
  | receive u c =>
    have hut : t ≠ u := fun hut => he hut.symm
    by_cases hu : s.threads u = .idle ∧ s.readMutex = none
    · obtain rfl : s.receive termios u c = s' := by simpa [step, hu] using hs
      simp [State.receive, State.setThread, observe_threads, hut, h]
    · simp [step, hu] at hs
  | read u len =>
    have hut : t ≠ u := fun hut => he hut.symm
    by_cases hu : s.threads u = .idle
    · obtain rfl : s.setThread u (.entering (Read.start termios len)) = s' := by
        simpa [step, hu] using hs
      simp [State.setThread, hut, h]
    · simp [step, hu] at hs
  | timeout u =>
    have hut : t ≠ u := fun hut => he hut.symm
    simp only [step] at hs
    split at hs
    · next rd hu =>
      split at hs
      · obtain rfl : s.setThread u (.woken rd true) = s' := by simpa using hs
        simp [State.setThread, hut, h]
      · simp at hs
    · simp at hs
  | run u => exact advance_idle h (fun hut => he hut.symm) hs

theorem reachable_idle {C : State → Event → Prop} {n : ℕ} (hC : ∀ s e, C s e → e.thread < n)
    (h : (system termios).ReachableUnder C s) : ∀ t, n ≤ t → s.threads t = .idle := by
  apply h.invariant
  · rintro s ⟨backing, -, rfl⟩ t _
    rfl
  · intro s e s' hidle he hs t ht
    have hlt := hC s e he
    exact step_idle (hidle t ht) (by omega) hs

theorem quiescent_of_below {n : ℕ} (hidle : ∀ t, n ≤ t → s.threads t = .idle)
    (h : quiescentBelow s n = true) : Quiescent s := by
  rw [quiescentBelow, Bool.and_eq_true, Option.isNone_iff_eq_none, List.all_eq_true] at h
  refine ⟨h.1, fun t => ?_⟩
  by_cases ht : t < n
  · have hthread := h.2 t (List.mem_range.2 ht)
    split at hthread
    · next hidle => exact .inl hidle
    · next rd hwaiting => exact .inr ⟨rd, hwaiting⟩
    · simp at hthread
  · exact .inl (hidle t (by omega))

end NTty
