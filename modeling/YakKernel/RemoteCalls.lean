/-
# Remote calls

`core/irq/ipi.c`: any number of senders put calls on the queue of a processor, as raw bytes, and
interrupt it; its handler takes them off and runs them.  A section under `rcq_lock` is one step.
The handler runs at the highest level, and so is not interrupted by itself; interrupts that
arrive meanwhile are pending, and are one when there are several.
-/
import YakKernel.RingBuffer
import YakKernel.TransitionSystem

namespace RemoteCalls

/-! ## Records as bytes -/

/-- `struct remote_call`; the counter 0 is `NULL`. -/
structure RemoteCall where
  fn : UInt64
  ctx : UInt64
  done : UInt64
  deriving DecidableEq

/-- The `n` bytes of a number, the lowest first. -/
def toBytes : ℕ → ℕ → List UInt8
  | 0, _ => []
  | n + 1, x => UInt8.ofNat x :: toBytes n (x / 256)

/-- The number of some bytes. -/
def ofBytes : List UInt8 → ℕ
  | [] => 0
  | b :: bytes => b.toNat + 256 * ofBytes bytes

/-- `sizeof(struct remote_call)`. -/
def callSize : ℕ := 24

/-- The memory of a record. -/
def RemoteCall.encode (rc : RemoteCall) : List UInt8 :=
  toBytes 8 rc.fn.toNat ++ toBytes 8 rc.ctx.toNat ++ toBytes 8 rc.done.toNat

/-- The record in some memory. -/
def RemoteCall.decode (bytes : List UInt8) : RemoteCall where
  fn := UInt64.ofNat (ofBytes (bytes.take 8))
  ctx := UInt64.ofNat (ofBytes ((bytes.drop 8).take 8))
  done := UInt64.ofNat (ofBytes (bytes.drop 16))

theorem toBytes_length (n x : ℕ) : (toBytes n x).length = n := by
  induction n generalizing x with
  | zero => rfl
  | succ n ih => rw [toBytes, List.length_cons, ih]

theorem ofBytes_toBytes (n : ℕ) : ∀ x, x < 256 ^ n → ofBytes (toBytes n x) = x := by
  induction n with
  | zero =>
    intro x hx
    have : x = 0 := by omega
    rw [this]
    rfl
  | succ n ih =>
    intro x hx
    have hdiv : x / 256 < 256 ^ n := by
      rw [Nat.pow_succ] at hx
      omega
    rw [toBytes, ofBytes, ih _ hdiv, UInt8.toNat_ofNat']
    have := Nat.div_add_mod x 256
    omega

theorem RemoteCall.encode_length (rc : RemoteCall) : rc.encode.length = callSize := by
  simp only [RemoteCall.encode, List.length_append, toBytes_length, callSize]

/-- **A record is read back from its memory.** -/
theorem RemoteCall.decode_encode (rc : RemoteCall) : RemoteCall.decode rc.encode = rc := by
  have hword : ∀ w : UInt64, UInt64.ofNat (ofBytes (toBytes 8 w.toNat)) = w := by
    intro w
    have hlt : w.toNat < 256 ^ 8 := w.toNat_lt
    rw [ofBytes_toBytes 8 _ hlt]
    exact UInt64.ofNat_toNat
  obtain ⟨fn, ctx, done⟩ := rc
  have hfn := toBytes_length 8 fn.toNat
  have hctx := toBytes_length 8 ctx.toNat
  have hdone := toBytes_length 8 done.toNat
  simp only [RemoteCall.encode, RemoteCall.decode, RemoteCall.mk.injEq]
  refine ⟨?_, ?_, ?_⟩
  · rw [List.append_assoc, List.take_left' hfn]
    exact hword fn
  · rw [List.append_assoc, List.drop_left' hfn, List.take_left' hctx]
    exact hword ctx
  · rw [List.drop_left' (by rw [List.length_append, hfn, hctx])]
    exact hword done

/-! ## The system -/

/-- `RC_MAX_QUEUE`. -/
def rcMaxQueue : ℕ := 32

/-- A sender in `do_ipi`: it tries to put its call, or has put it and is to interrupt. -/
inductive Sender where
  | idle
  | putting (rc : RemoteCall)
  | placed
  deriving DecidableEq

/-- `ipi_handler`: at the test of its loop, with a call to run, or with a call to acknowledge. -/
inductive Handler where
  | idle
  | checking
  | called (rc : RemoteCall)
  | ran (rc : RemoteCall)
  deriving DecidableEq

/-- The queue of a processor and who works on it; `increments` counts what was added to each
counter.  The calls that were put, run and acknowledged are recorded in this order. -/
structure State (S : Type) where
  queue : RingBuffer UInt8
  senders : S → Sender
  pending : Bool
  handler : Handler
  increments : UInt64 → ℕ
  puts : List RemoteCall
  executed : List RemoteCall
  finished : List RemoteCall

/-- The steps; `other` is an interrupt of `softint_issue_other`, and the stack of the handler has
`uninit` where it keeps the call. -/
inductive Event (S : Type) where
  | send (t : S) (rc : RemoteCall)
  | put (t : S)
  | notify (t : S)
  | other
  | interrupt
  | check (uninit : RemoteCall)
  | call
  | count

variable {S : Type}

/-- A section of `do_ipi`: any non-zero result ends its loop. -/
def State.put [DecidableEq S] (s : State S) (t : S) (rc : RemoteCall) : State S :=
  let r := s.queue.put rc.encode
  if r.1 = 0 then { s with queue := r.2 }
  else { s with
    queue := r.2
    senders := Function.update s.senders t .placed
    puts := s.puts ++ [rc] }

/-- A section of `ipi_handler`. -/
def State.check (s : State S) (uninit : RemoteCall) : State S :=
  if s.queue.available = 0 then { s with handler := .idle }
  else
    let r := s.queue.get callSize
    { s with
      queue := r.2
      handler := .called (RemoteCall.decode (r.1 ++ uninit.encode.drop r.1.length)) }

/-- `if (rc.rc_done) __atomic_fetch_add(rc.rc_done, 1)`. -/
def State.count (s : State S) (rc : RemoteCall) : State S :=
  { s with
    increments := if rc.done = 0 then s.increments
      else Function.update s.increments rc.done (s.increments rc.done + 1)
    finished := s.finished ++ [rc]
    handler := .checking }

/-- The step of an event. -/
def step [DecidableEq S] (s : State S) (e : Event S) : Option (State S) :=
  match e with
  | .send t rc =>
    if s.senders t = .idle then
      some { s with senders := Function.update s.senders t (.putting rc) }
    else none
  | .put t =>
    match s.senders t with
    | .putting rc => some (s.put t rc)
    | _ => none
  | .notify t =>
    if s.senders t = .placed then
      some { s with senders := Function.update s.senders t .idle, pending := true }
    else none
  | .other => some { s with pending := true }
  | .interrupt =>
    if s.pending ∧ s.handler = .idle then some { s with pending := false, handler := .checking }
    else none
  | .check uninit => if s.handler = .checking then some (s.check uninit) else none
  | .call =>
    match s.handler with
    | .called rc => some { s with executed := s.executed ++ [rc], handler := .ran rc }
    | _ => none
  | .count =>
    match s.handler with
    | .ran rc => some (s.count rc)
    | _ => none

/-- `rcq_init`, with anything in `rcq_backing`. -/
def initial (backing : List UInt8) : State S where
  queue := RingBuffer.staticInit backing
  senders := fun _ => .idle
  pending := false
  handler := .idle
  increments := fun _ => 0
  puts := []
  executed := []
  finished := []

/-- The remote calls of a processor. -/
def system (S : Type) [DecidableEq S] : TransitionSystem (State S) (Event S) where
  init := fun s => ∃ backing : List UInt8,
    backing.length = rcMaxQueue * callSize ∧ s = initial backing
  step := step

/-! ## The invariant -/

/-- The call that the handler is to run. -/
def Handler.inHand : Handler → List RemoteCall
  | .called rc => [rc]
  | _ => []

/-- The call that the handler is to acknowledge. -/
def Handler.toFinish : Handler → List RemoteCall
  | .ran rc => [rc]
  | _ => []

/-- Nobody is going to look at the queue. -/
def State.Quiet (s : State S) : Prop :=
  s.handler = .idle ∧ s.pending = false ∧ ∀ t, s.senders t ≠ .placed

/-- The queue holds the calls `waiting`, whole. -/
structure State.Waiting (s : State S) (waiting : List RemoteCall) : Prop where
  contents : s.queue.contents = waiting.flatMap RemoteCall.encode
  puts : s.puts = s.executed ++ s.handler.inHand ++ waiting
  quiet : s.Quiet → waiting = []

/-- **The invariant.** -/
structure State.Inv (s : State S) : Prop where
  wellFormed : s.queue.WellFormed
  capacity : s.queue.capacity = rcMaxQueue * callSize
  waiting : ∃ waiting, s.Waiting waiting
  finished : s.executed = s.finished ++ s.handler.toFinish
  increments : ∀ a, s.increments a =
    if a = 0 then 0 else s.finished.countP (fun rc => rc.done = a)

theorem flatMap_encode_length (l : List RemoteCall) :
    (l.flatMap RemoteCall.encode).length = l.length * callSize := by
  induction l with
  | nil => rfl
  | cons rc l ih =>
    rw [List.flatMap_cons, List.length_append, ih, RemoteCall.encode_length, List.length_cons,
      Nat.add_mul, Nat.one_mul, Nat.add_comm]

variable {s s' : State S} {rc : RemoteCall}

theorem State.Inv.size_eq (h : s.Inv) {waiting : List RemoteCall} (hw : s.Waiting waiting) :
    s.queue.size = waiting.length * callSize := by
  rw [← RingBuffer.contents_length h.wellFormed, hw.contents, flatMap_encode_length]

/-- **No record is split**: a put writes a record or nothing. -/
theorem State.Inv.put_whole (h : s.Inv) (rc : RemoteCall) :
    (s.queue.put rc.encode).1 = 0 ∨ (s.queue.put rc.encode).1 = callSize := by
  obtain ⟨waiting, hw⟩ := h.waiting
  have hsize := h.size_eq hw
  have hle := h.wellFormed.size_le
  rw [RingBuffer.put_fst, RemoteCall.encode_length, hsize]
  rw [hsize] at hle
  rw [h.capacity] at hle ⊢
  simp only [rcMaxQueue, callSize] at hle ⊢
  omega

/-- **A get takes a whole record**, the oldest. -/
theorem State.Inv.get_whole (h : s.Inv) {waiting : List RemoteCall} (hw : s.Waiting waiting)
    (hne : s.queue.available ≠ 0) : ∃ rc rest, waiting = rc :: rest ∧
      (s.queue.get callSize).1 = rc.encode ∧
      (s.queue.get callSize).2.contents = rest.flatMap RemoteCall.encode := by
  have hsize := h.size_eq hw
  cases waiting with
  | nil =>
    rw [List.length_nil, Nat.zero_mul] at hsize
    exact absurd hsize hne
  | cons rc rest =>
    have hget := RingBuffer.get_contents h.wellFormed callSize
    rw [hw.contents, List.flatMap_cons] at hget
    refine ⟨rc, rest, rfl, ?_, ?_⟩
    · rw [hget.1, List.take_left' rc.encode_length]
    · rw [hget.2, List.drop_left' rc.encode_length]

/-! ## The steps -/

theorem initial_inv {backing : List UInt8} (hlen : backing.length = rcMaxQueue * callSize) :
    (initial backing : State S).Inv where
  wellFormed := by
    refine RingBuffer.staticInit_wellFormed ?_
    rintro rfl
    exact absurd hlen (by decide)
  capacity := hlen
  waiting := ⟨[], RingBuffer.staticInit_contents backing, rfl, fun _ => rfl⟩
  finished := rfl
  increments := by
    intro a
    split
    · rfl
    · rfl

section

variable [DecidableEq S]

theorem State.Inv.put (h : s.Inv) (t : S) (rc : RemoteCall) : (s.put t rc).Inv := by
  obtain ⟨waiting, hw⟩ := h.waiting
  have hwf := RingBuffer.put_wellFormed h.wellFormed rc.encode
  have hcont := RingBuffer.put_contents h.wellFormed rc.encode
  have hcap : (s.queue.put rc.encode).2.capacity = rcMaxQueue * callSize := by
    rw [RingBuffer.put]
    split
    · exact h.capacity
    · split
      · exact h.capacity
      · exact h.capacity
  rw [State.put]
  by_cases hzero : (s.queue.put rc.encode).1 = 0
  · simp only [if_pos hzero]
    rw [hzero, List.take_zero, List.append_nil] at hcont
    exact ⟨hwf, hcap, ⟨waiting, hcont.trans hw.contents, hw.puts, hw.quiet⟩, h.finished,
      h.increments⟩
  · have hwhole := (h.put_whole rc).resolve_left hzero
    simp only [if_neg hzero]
    rw [hwhole, List.take_of_length_le (le_of_eq rc.encode_length)] at hcont
    refine ⟨hwf, hcap, ⟨waiting ++ [rc], ?_, ?_, ?_⟩, h.finished, h.increments⟩
    · rw [List.flatMap_append, List.flatMap_cons, List.flatMap_nil, List.append_nil, ← hw.contents]
      exact hcont
    · show s.puts ++ [rc] = s.executed ++ s.handler.inHand ++ (waiting ++ [rc])
      rw [hw.puts, List.append_assoc]
    · rintro ⟨_, _, hplaced⟩
      exact absurd (Function.update_self t Sender.placed s.senders) (hplaced t)

omit [DecidableEq S] in
theorem State.Inv.check (h : s.Inv) (hh : s.handler = .checking) (uninit : RemoteCall) :
    (s.check uninit).Inv := by
  obtain ⟨waiting, hw⟩ := h.waiting
  have hputs := hw.puts
  have hfinished := h.finished
  rw [hh] at hputs hfinished
  rw [State.check]
  by_cases hempty : s.queue.available = 0
  · rw [if_pos hempty]
    have hnil : waiting = [] := by
      have hsize := h.size_eq hw
      rw [show s.queue.size = 0 from hempty] at hsize
      simp only [callSize] at hsize
      exact List.length_eq_zero_iff.mp (by omega)
    exact ⟨h.wellFormed, h.capacity, ⟨waiting, hw.contents, hputs, fun _ => hnil⟩, hfinished,
      h.increments⟩
  · rw [if_neg hempty]
    obtain ⟨rc, rest, rfl, hget, hcont⟩ := h.get_whole hw hempty
    have hcap : (s.queue.get callSize).2.capacity = rcMaxQueue * callSize := by
      rw [RingBuffer.get]
      split
      · exact h.capacity
      · split
        · exact h.capacity
        · exact h.capacity
    have hdrop : uninit.encode.drop rc.encode.length = [] := by
      rw [List.drop_eq_nil_iff, RemoteCall.encode_length, RemoteCall.encode_length]
    simp only [hget, hdrop, List.append_nil, RemoteCall.decode_encode]
    refine ⟨RingBuffer.get_wellFormed h.wellFormed _, hcap, ⟨rest, hcont, ?_, ?_⟩, hfinished,
      h.increments⟩
    · show s.puts = s.executed ++ [rc] ++ rest
      rw [hputs, List.append_assoc, List.append_assoc]
      rfl
    · rintro ⟨hidle, _⟩
      cases hidle

omit [DecidableEq S] in
theorem State.Inv.count (h : s.Inv) (hh : s.handler = .ran rc) : (s.count rc).Inv := by
  obtain ⟨waiting, hw⟩ := h.waiting
  have hputs := hw.puts
  have hfinished := h.finished
  rw [hh] at hputs hfinished
  refine ⟨h.wellFormed, h.capacity, ⟨waiting, hw.contents, hputs, ?_⟩, ?_, ?_⟩
  · rintro ⟨hidle, _⟩
    cases hidle
  · show s.executed = s.finished ++ [rc] ++ []
    rw [List.append_nil]
    exact hfinished
  · intro a
    show (if rc.done = 0 then s.increments
      else Function.update s.increments rc.done (s.increments rc.done + 1)) a =
      if a = 0 then 0 else (s.finished ++ [rc]).countP (fun rc => rc.done = a)
    have hone : [rc].countP (fun rc => rc.done = a) = if rc.done = a then 1 else 0 := by
      simp [List.countP_singleton]
    rw [List.countP_append, hone]
    have hold := h.increments a
    by_cases ha : a = 0
    · rw [if_pos ha] at hold ⊢
      by_cases hz : rc.done = 0
      · rw [if_pos hz]
        exact hold
      · rw [if_neg hz, Function.update_of_ne (fun hab => hz (hab.symm.trans ha))]
        exact hold
    · rw [if_neg ha] at hold ⊢
      by_cases hz : rc.done = 0
      · rw [if_pos hz, hold, if_neg (fun hab => ha (hab.symm.trans hz)), Nat.add_zero]
      · rw [if_neg hz]
        by_cases hab : rc.done = a
        · rw [hab, Function.update_self, hold, if_pos rfl]
        · rw [Function.update_of_ne (Ne.symm hab), hold, if_neg hab, Nat.add_zero]

/-- **Step lemma.**  Every step keeps the invariant. -/
theorem State.Inv.step {e : Event S} (h : s.Inv) (hs : step s e = some s') : s'.Inv := by
  obtain ⟨waiting, hw⟩ := h.waiting
  cases e with
  | send t rc =>
    obtain ⟨hidle, hs⟩ := Option.ite_none_right_eq_some.mp hs
    rw [← Option.some.inj hs]
    refine ⟨h.wellFormed, h.capacity, ⟨waiting, hw.contents, hw.puts, ?_⟩, h.finished,
      h.increments⟩
    rintro ⟨hhandler, hpending, hplaced⟩
    refine hw.quiet ⟨hhandler, hpending, ?_⟩
    intro t' ht'
    refine hplaced t' ?_
    have hne : t' ≠ t := by
      rintro rfl
      rw [hidle] at ht'
      cases ht'
    exact (Function.update_of_ne hne _ _).trans ht'
  | put t =>
    simp only [RemoteCalls.step] at hs
    split at hs
    · rename_i rc _
      rw [← Option.some.inj hs]
      exact h.put t rc
    · cases hs
  | notify t =>
    obtain ⟨_, hs⟩ := Option.ite_none_right_eq_some.mp hs
    rw [← Option.some.inj hs]
    refine ⟨h.wellFormed, h.capacity, ⟨waiting, hw.contents, hw.puts, ?_⟩, h.finished,
      h.increments⟩
    rintro ⟨_, hpending, _⟩
    cases hpending
  | other =>
    rw [← Option.some.inj hs]
    refine ⟨h.wellFormed, h.capacity, ⟨waiting, hw.contents, hw.puts, ?_⟩, h.finished,
      h.increments⟩
    rintro ⟨_, hpending, _⟩
    cases hpending
  | interrupt =>
    obtain ⟨⟨_, hidle⟩, hs⟩ := Option.ite_none_right_eq_some.mp hs
    have hputs := hw.puts
    have hfinished := h.finished
    rw [hidle] at hputs hfinished
    rw [← Option.some.inj hs]
    refine ⟨h.wellFormed, h.capacity, ⟨waiting, hw.contents, hputs, ?_⟩, hfinished,
      h.increments⟩
    rintro ⟨hhandler, _⟩
    cases hhandler
  | check uninit =>
    obtain ⟨hchecking, hs⟩ := Option.ite_none_right_eq_some.mp hs
    rw [← Option.some.inj hs]
    exact h.check hchecking uninit
  | call =>
    simp only [RemoteCalls.step] at hs
    split at hs
    · rename_i rc hcalled
      have hputs := hw.puts
      have hfinished := h.finished
      rw [hcalled] at hputs hfinished
      rw [← Option.some.inj hs]
      refine ⟨h.wellFormed, h.capacity, ⟨waiting, hw.contents, ?_, ?_⟩, ?_, h.increments⟩
      · show s.puts = s.executed ++ [rc] ++ [] ++ waiting
        rw [List.append_nil]
        exact hputs
      · rintro ⟨hidle, _⟩
        cases hidle
      · show s.executed ++ [rc] = s.finished ++ [rc]
        rw [hfinished]
        show s.finished ++ [] ++ [rc] = s.finished ++ [rc]
        rw [List.append_nil]
    · cases hs
  | count =>
    simp only [RemoteCalls.step] at hs
    split at hs
    · rename_i rc hran
      rw [← Option.some.inj hs]
      exact h.count hran
    · cases hs

/-! ## Every run -/

/-- The calls that were put have been run, in this order and unmodified, except one that the
handler has taken and those in the queue; and none waits when nobody is going to look. -/
def State.InOrder (s : State S) : Prop := ∃ waiting, s.Waiting waiting

end

end RemoteCalls
