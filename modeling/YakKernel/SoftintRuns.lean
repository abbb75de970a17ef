/-
# No deferred work is lost

The invariant of the stack: a frame that will lower the IPL below `IPL_DPC` has nothing below it
that has acknowledged the software interrupt and is still to look at the queue or at `next_thread`.
So, when ordinary code runs below `IPL_DPC`, whatever is there has its pending bit set.  With it
goes the invariant that the log of the DPCs is lawful.
-/
import YakKernel.Softint

namespace Softint

set_option linter.unusedSectionVars false

/-! ## Frames -/

section Frames

variable {D X T : Type*}

/-- The software interrupt has been acknowledged, and the queue has not been found empty. -/
def Frame.runsQueue : Frame D X T → Bool
  | .dpcInt .raise | .dpcInt .enable | .dpcInt .queueRun | .dpcInt (.call _ _) => true
  | _ => false

/-- The software interrupt has been acknowledged, and `next_thread` has not been found null. -/
def Frame.checksNext : Frame D X T → Bool
  | .dpcInt .checkNext | .dpcInt .preempt => true
  | frame => frame.runsQueue

/-- Interrupts are disabled when the frame runs. -/
def Frame.masked : Frame D X T → Bool
  | .dispatchLoop _ _ | .dpcInt .ack | .dpcInt .raise | .dpcInt .enable => true
  | _ => false

/-- The DPC whose function is about to be called. -/
def Frame.called : Frame D X T → Option (D × X)
  | .dpcInt (.call dpc context) => some (dpc, context)
  | _ => none

/-- No frame is still to look at `next_thread`. -/
def Quiet (stack : List (Frame D X T)) : Prop := ∀ frame ∈ stack, frame.checksNext = false

/-- The frame that runs does so with interrupts enabled, or may. -/
def Unmasked (stack : List (Frame D X T)) : Prop :=
  ∀ frame ∈ stack.head?, frame.masked = false

/-- What holds of the frames below a frame. -/
def Frame.Over (rest : List (Frame D X T)) : Frame D X T → Prop
  | .raised old | .handler old => (old < iplDpc → Quiet rest) ∧ Unmasked rest
  | .xipl ipl | .xiplCheck ipl => (ipl < iplDpc → Quiet rest) ∧ Unmasked rest
  | .dispatch _ | .dispatchLoop _ _ | .swtch _ => Quiet rest ∧ Unmasked rest
  | .dpcInt _ => Quiet rest
  | .code | .sti | .dispatchEnd _ | .func => Unmasked rest

/-- **The invariant of a stack.** -/
def Guarded : List (Frame D X T) → Prop
  | [] => True
  | frame :: rest => frame.Over rest ∧ Guarded rest

variable {frame : Frame D X T} {stack rest : List (Frame D X T)}

theorem quiet_cons : Quiet (frame :: rest) ↔ frame.checksNext = false ∧ Quiet rest :=
  List.forall_mem_cons

theorem unmasked_cons : Unmasked (frame :: rest) ↔ frame.masked = false := by
  simp [Unmasked]

theorem Frame.checksNext_of_runsQueue (h : frame.runsQueue = true) : frame.checksNext = true := by
  unfold Frame.checksNext
  split
  · rfl
  · rfl
  · exact h

theorem Quiet.called (h : Quiet stack) : stack.filterMap Frame.called = [] := by
  rw [List.filterMap_eq_nil_iff]
  intro frame hframe
  have hno := h frame hframe
  cases frame with
  | dpcInt pc => cases pc <;> first | rfl | cases hno
  | _ => rfl

theorem Quiet.not_runsQueue (h : Quiet stack) : ¬ ∃ frame ∈ stack, frame.runsQueue = true := by
  rintro ⟨frame, hframe, hruns⟩
  have hno := h frame hframe
  rw [Frame.checksNext_of_runsQueue hruns] at hno
  cases hno

end Frames

variable {D X T R : Type*} [DecidableEq D] [DecidableEq T] [DecidableEq R] {idle : T}
  {priority : T → ℕ} {s s' : State D X T R} {frame : Frame D X T} {stack rest : List (Frame D X T)}

/-! ## The pending bit -/

/-- The bit of `IPL_DPC` is set. -/
def State.Pending (s : State D X T R) : Prop := s.softintPending &&& pending iplDpc ≠ 0

instance (s : State D X T R) : Decidable s.Pending :=
  inferInstanceAs (Decidable (_ ≠ _))

/-- No other bit than that of `IPL_DPC` is ever set. -/
def State.OneBit (s : State D X T R) : Prop :=
  s.softintPending = 0 ∨ s.softintPending = pending iplDpc

theorem State.OneBit.or (h : s.OneBit) :
    s.softintPending ||| pending iplDpc = pending iplDpc := by
  rcases h with h | h
  · rw [h]
    decide
  · rw [h]
    decide

theorem State.OneBit.pending_iff (h : s.OneBit) : s.Pending ↔ s.softintPending ≠ 0 := by
  rw [State.Pending]
  rcases h with h | h
  · rw [h]
    decide
  · rw [h]
    decide

theorem State.OneBit.ack (h : s.OneBit) : s.softintPending &&& ~~~pending iplDpc = 0 := by
  rcases h with h | h
  · rw [h]
    decide
  · rw [h]
    decide

theorem pending_shift (ipl : ℕ) : pending iplDpc >>> ipl ≠ 0 ↔ ipl < iplDpc := by
  by_cases h : ipl < iplDpc
  · refine iff_of_true ?_ h
    unfold iplDpc at h
    obtain rfl | rfl : ipl = 0 ∨ ipl = 1 := by omega
    · decide
    · decide
  · refine iff_of_false ?_ h
    rw [not_not]
    apply BitVec.eq_of_toNat_eq
    have hval : (pending iplDpc).toNat = 2 := by decide
    rw [BitVec.toNat_ushiftRight, hval]
    show 2 >>> ipl = 0
    unfold iplDpc at h
    rw [Nat.shiftRight_eq_div_pow]
    apply Nat.div_eq_of_lt
    calc 2 < 2 ^ 2 := by decide
      _ ≤ 2 ^ ipl := Nat.pow_le_pow_right (by decide) (by omega)

/-- `xipl` dispatches when the bit is set and the new IPL is below `IPL_DPC`. -/
theorem State.OneBit.check (h : s.OneBit) (ipl : ℕ) :
    s.softintPending >>> ipl ≠ 0 ↔ s.Pending ∧ ipl < iplDpc := by
  rw [h.pending_iff]
  rcases h with h | h
  · rw [h]
    simp
  · rw [h, pending_shift]
    have hne : pending iplDpc ≠ 0 := by decide
    exact ⟨fun hipl => ⟨hne, hipl⟩, fun hp => hp.2⟩

/-! ## The invariant of control -/

/-- **The invariant of control.**  What is queued, or next, has the bit set, or will be looked for:
by `do_dpc_int` on the stack, or it is another processor that is about to set the bit. -/
structure Control (s : State D X T R) : Prop where
  oneBit : s.OneBit
  guarded : Guarded s.stack
  masked : s.interrupts = true → Unmasked s.stack
  level : s.softIpl < iplDpc → Quiet s.stack ∨ s.stack.head? = some (.dpcInt .raise)
  saved : ∀ t, Guarded (s.saved t) ∧ Quiet (s.saved t) ∧ Unmasked (s.saved t)
  queue : s.dpcQueue ≠ [] → s.Pending ∨ ∃ frame ∈ s.stack, frame.runsQueue = true
  next : s.nextThread ≠ none →
    s.Pending ∨ s.inserting ≠ none ∨ ∃ frame ∈ s.stack, frame.checksNext = true

theorem Control.goto (h : Control s) (hthreads : s'.saved = s.saved)
    (hbit : s'.softintPending = s.softintPending) (hguarded : Guarded s'.stack)
    (hmasked : s'.interrupts = true → Unmasked s'.stack)
    (hlevel : s'.softIpl < iplDpc → Quiet s'.stack)
    (hqueue : s'.dpcQueue ≠ [] → s.dpcQueue ≠ [] ∧
      ((∃ frame ∈ s.stack, frame.runsQueue = true) → ∃ frame ∈ s'.stack, frame.runsQueue = true))
    (hnext : s'.nextThread ≠ none → s.nextThread ≠ none ∧ s'.inserting = s.inserting ∧
      ((∃ frame ∈ s.stack, frame.checksNext = true) →
        ∃ frame ∈ s'.stack, frame.checksNext = true)) : Control s' where
  oneBit := by
    rw [State.OneBit, hbit]
    exact h.oneBit
  guarded := hguarded
  masked := hmasked
  level := fun hipl => Or.inl (hlevel hipl)
  saved := by
    rw [hthreads]
    exact h.saved
  queue := by
    intro hne
    obtain ⟨hne', hruns⟩ := hqueue hne
    rw [State.Pending, hbit]
    exact (h.queue hne').imp id hruns
  next := by
    intro hne
    obtain ⟨hne', hins, hchecks⟩ := hnext hne
    rw [State.Pending, hbit, hins]
    exact (h.next hne').imp id (Or.imp id hchecks)

/-- The stack stays; the bit may be set, the queue and `next_thread` change. -/
theorem Control.stay (h : Control s) (hstack : s'.stack = s.stack) (hsaved : s'.saved = s.saved)
    (hipl : s'.softIpl = s.softIpl) (hint : s'.interrupts = s.interrupts)
    (hbit : s'.softintPending = s.softintPending ∨
      s'.softintPending = s.softintPending ||| pending iplDpc)
    (hqueue : s'.dpcQueue ≠ [] → s'.Pending ∨ s.dpcQueue ≠ [])
    (hnext : s'.nextThread ≠ none → s'.Pending ∨ s'.inserting ≠ none ∨
      (s.nextThread ≠ none ∧ s'.inserting = s.inserting)) : Control s' := by
  have hpending : s.Pending → s'.Pending := by
    intro hp
    rcases hbit with hbit | hbit
    · rw [State.Pending, hbit]
      exact hp
    · rw [State.Pending, hbit, h.oneBit.or]
      decide
  refine ⟨?_, ?_, ?_, ?_, ?_, ?_, ?_⟩
  · rcases hbit with hbit | hbit
    · rw [State.OneBit, hbit]
      exact h.oneBit
    · rw [State.OneBit, hbit]
      exact Or.inr h.oneBit.or
  · rw [hstack]
    exact h.guarded
  · rw [hstack, hint]
    exact h.masked
  · rw [hstack, hipl]
    exact h.level
  · rw [hsaved]
    exact h.saved
  · intro hne
    rw [hstack]
    rcases hqueue hne with hp | hne'
    · exact Or.inl hp
    · exact (h.queue hne').imp hpending id
  · intro hne
    rw [hstack]
    rcases hnext hne with hp | hins | ⟨hne', hins⟩
    · exact Or.inl hp
    · exact Or.inr (Or.inl hins)
    · rw [hins]
      exact (h.next hne').imp hpending id

/-! ## Queueing and inserting -/

theorem State.OneBit.issued (h : s.OneBit)
    (hbit : s'.softintPending = s.softintPending ||| pending iplDpc) : s'.Pending := by
  rw [State.Pending, hbit, h.or]
  decide

theorem Control.dpcEnqueue (h : Control s) (dpc : D) (context : X) :
    Control (dpcEnqueue s dpc context) := by
  unfold Softint.dpcEnqueue
  split_ifs
  · exact h.stay rfl rfl rfl rfl (Or.inl rfl) Or.inr (fun hne => Or.inr (Or.inr ⟨hne, rfl⟩))
  · refine h.stay rfl rfl rfl rfl (Or.inr rfl) ?_ ?_
    · exact fun _ => Or.inl (h.oneBit.issued rfl)
    · exact fun _ => Or.inl (h.oneBit.issued rfl)

theorem Control.dpcDequeue (h : Control s) (dpc : D) : Control (dpcDequeue s dpc) := by
  unfold Softint.dpcDequeue
  split_ifs
  · refine h.stay rfl rfl rfl rfl (Or.inl rfl) ?_ (fun hne => Or.inr (Or.inr ⟨hne, rfl⟩))
    intro hne
    refine Or.inr (fun hno => hne ?_)
    show s.dpcQueue.erase dpc = []
    rw [hno]
    rfl
  · exact h

/-- What `sched_insert` leaves alone; there is a next thread only if there was one, or if the
softint is issued. -/
structure Inserted (s s' : State D X T R) (issue : Bool) : Prop where
  same : ∃ status next, s' = { s with status := status, nextThread := next }
  next : s'.nextThread ≠ none → issue = true ∨ s.nextThread ≠ none

theorem insertRound_inserted (idle : T) (priority : T → ℕ) (s : State D X T R) (thread : T) :
    Inserted s (insertRound idle priority s thread).1 (insertRound idle priority s thread).2.2 ∧
      ((insertRound idle priority s thread).2.1 ≠ none → s.nextThread ≠ none) := by
  unfold insertRound
  simp only
  split_ifs
  · exact ⟨⟨⟨_, _, rfl⟩, Or.inr⟩, fun hno => absurd rfl hno⟩
  · exact ⟨⟨⟨_, _, rfl⟩, Or.inr⟩, fun hno => absurd rfl hno⟩
  · refine ⟨⟨⟨_, _, rfl⟩, fun _ => ?_⟩, id⟩
    show s.nextThread.isNone = true ∨ s.nextThread ≠ none
    cases s.nextThread with
    | none => exact Or.inl rfl
    | some _ => exact Or.inr (fun hno => by cases hno)

/-- **`sched_insert`** sets `next_thread` from null only if it issues the softint. -/
theorem schedInsert_inserted {fuel : ℕ} {thread : T} {issue : Bool}
    (hs : schedInsert idle priority fuel s thread = some (s', issue)) : Inserted s s' issue := by
  induction fuel generalizing s thread with
  | zero => cases hs
  | succ n ih =>
    have hround := insertRound_inserted idle priority s thread
    rw [schedInsert] at hs
    generalize insertRound idle priority s thread = r at hs hround
    obtain ⟨s₁, old, issue₁⟩ := r
    obtain ⟨⟨⟨status, next, hsame⟩, hnext⟩, hold⟩ := hround
    cases old with
    | none =>
      obtain ⟨rfl, rfl⟩ := Prod.mk.inj (Option.some.inj hs)
      exact ⟨⟨status, next, hsame⟩, hnext⟩
    | some old =>
      obtain ⟨⟨status', next', rfl⟩, _⟩ := ih hs
      change s₁ = _ at hsame
      refine ⟨⟨status', next', by rw [hsame]⟩, fun _ => Or.inr (hold ?_)⟩
      intro hno
      cases hno

/-- It ends after two rounds: a thread that replaces another is above it, and that one then goes to
a queue. -/
theorem schedInsert_isSome {thread : T} (hidle : priority idle < Sched.prioRealTime)
    (hthread : thread ≠ idle) : (schedInsert idle priority 2 s thread).isSome := by
  rw [schedInsert]
  unfold insertRound
  simp only
  split_ifs with h1 h2
  · rfl
  · rfl
  · cases hnext : s.nextThread with
    | none => rfl
    | some old =>
      rw [hnext, Option.getD_some] at h1 h2
      simp only [schedInsert, insertRound, Option.getD_some]
      split_ifs with h3 h4
      · rfl
      · rfl
      · exfalso
        rw [not_and, not_le] at h1 h3
        rw [not_and, not_not] at h2 h4
        by_cases hold : priority old < Sched.prioRealTime
        · exact hthread (h4 hold)
        · have hlt := h3 (Nat.le_of_not_lt hold)
          by_cases hrt : priority thread < Sched.prioRealTime
          · rw [h2 hrt] at hold
            exact hold hidle
          · have hlt' := h1 (Nat.le_of_not_lt hrt)
            omega

theorem Control.inserted (h : Control s) {issue : Bool} (hs : Inserted s s' issue)
    (hissue : issue = false) : Control s' := by
  obtain ⟨⟨status, next, rfl⟩, hnext⟩ := hs
  refine h.stay rfl rfl rfl rfl (Or.inl rfl) Or.inr ?_
  intro hne
  refine Or.inr (Or.inr ⟨(hnext hne).resolve_left ?_, rfl⟩)
  rw [hissue]
  exact Bool.false_ne_true

theorem Control.schedInsertHere (h : Control s) {thread : T}
    (hs : schedInsertHere idle priority s thread = some s') : Control s' := by
  obtain ⟨⟨s₁, issue⟩, hins, hs'⟩ := Option.map_eq_some_iff.mp hs
  have hinserted := schedInsert_inserted hins
  cases issue with
  | false =>
    rw [← hs']
    exact h.inserted hinserted rfl
  | true =>
    obtain ⟨⟨status, next, rfl⟩, _⟩ := hinserted
    rw [← hs']
    refine h.stay rfl rfl rfl rfl (Or.inr rfl) ?_ ?_
    · exact fun _ => Or.inl (h.oneBit.issued rfl)
    · exact fun _ => Or.inl (h.oneBit.issued rfl)

theorem Control.schedInsertOther (h : Control s) {thread : T} {cpu : R}
    (hs : (schedInsert idle priority 2 s thread).map
      (fun r => if r.2 then { r.1 with inserting := some cpu } else r.1) = some s') :
    Control s' := by
  obtain ⟨⟨s₁, issue⟩, hins, hs'⟩ := Option.map_eq_some_iff.mp hs
  have hinserted := schedInsert_inserted hins
  cases issue with
  | false =>
    rw [← hs']
    exact h.inserted hinserted rfl
  | true =>
    obtain ⟨⟨status, next, rfl⟩, _⟩ := hinserted
    rw [← hs']
    refine h.stay rfl rfl rfl rfl (Or.inl rfl) Or.inr (fun _ => Or.inr (Or.inl ?_))
    intro hno
    cases hno

theorem Control.softintIssueOther (h : Control s) :
    Control ({ s.softintIssue with inserting := none } : State D X T R) := by
  refine h.stay rfl rfl rfl rfl (Or.inr rfl) ?_ ?_
  · exact fun _ => Or.inl (h.oneBit.issued rfl)
  · exact fun _ => Or.inl (h.oneBit.issued rfl)

/-! ## Raising and lowering the IPL -/

theorem Control.below (h : Control s) (hipl : s.softIpl < iplDpc) (hmask : Unmasked s.stack) :
    Quiet s.stack := by
  refine (h.level hipl).resolve_right (fun hraise => ?_)
  have hno := hmask _ hraise
  cases hno

theorem Control.unmasked_of_free (hfree : s.Free) : Unmasked s.stack := by
  obtain ⟨frame, hframe, hf⟩ := hfree
  intro other hother
  obtain rfl := Option.mem_unique hframe hother
  cases frame <;> first | rfl | cases hf

theorem Control.push (h : Control s) (frame : Frame D X T) {ipl : ℕ} (hipl : iplDpc ≤ ipl)
    (hmask : Unmasked s.stack) (hframe : frame = .raised s.softIpl ∨ frame = .handler s.softIpl) :
    Control { s with softIpl := ipl, stack := frame :: s.stack } := by
  have hover : frame.Over s.stack := by
    rcases hframe with rfl | rfl
    · exact ⟨fun hlow => h.below hlow hmask, hmask⟩
    · exact ⟨fun hlow => h.below hlow hmask, hmask⟩
  refine h.goto rfl rfl ⟨hover, h.guarded⟩ ?_ ?_ ?_ ?_
  · intro _
    rw [unmasked_cons]
    rcases hframe with rfl | rfl <;> rfl
  · intro hlow
    exact absurd hlow (Nat.not_lt_of_le hipl)
  · intro hne
    exact ⟨hne, fun ⟨f, hf, hruns⟩ => ⟨f, List.mem_cons_of_mem _ hf, hruns⟩⟩
  · intro hne
    exact ⟨hne, rfl, fun ⟨f, hf, hruns⟩ => ⟨f, List.mem_cons_of_mem _ hf, hruns⟩⟩

theorem Control.replace (h : Control s) (above : List (Frame D X T)) {ipl : ℕ} {ints : Bool}
    (hs : s.stack = frame :: rest) (hguarded : Guarded (above ++ rest))
    (hmasked : ints = true → Unmasked (above ++ rest))
    (hlevel : ipl < iplDpc → Quiet (above ++ rest)) (hframe : frame.checksNext = false) :
    Control { s with softIpl := ipl, interrupts := ints, stack := above ++ rest } := by
  have hkeep : ∀ p : Frame D X T → Bool, p frame = false →
      (∃ f ∈ s.stack, p f = true) → ∃ f ∈ above ++ rest, p f = true := by
    rintro p hp ⟨f, hf, hpf⟩
    rw [hs, List.mem_cons] at hf
    rcases hf with rfl | hf
    · rw [hp] at hpf
      cases hpf
    · exact ⟨f, List.mem_append_right _ hf, hpf⟩
  have hruns : frame.runsQueue = false := by
    rw [← Bool.not_eq_true]
    intro hruns
    rw [Frame.checksNext_of_runsQueue hruns] at hframe
    cases hframe
  exact h.goto rfl rfl hguarded hmasked hlevel (fun hne => ⟨hne, hkeep _ hruns⟩)
    (fun hne => ⟨hne, rfl, hkeep _ hframe⟩)

theorem Control.quiet_rest (h : Control s) (hs : s.stack = frame :: rest)
    (hmask : frame.masked = false) (hipl : s.softIpl < iplDpc) : Quiet rest := by
  have hquiet := h.below hipl (by rw [hs, unmasked_cons]; exact hmask)
  rw [hs] at hquiet
  exact (quiet_cons.mp hquiet).2

theorem Control.leave (h : Control s) {old : ℕ}
    (hs : s.stack = .raised old :: rest) : Control { s with stack := .xipl old :: rest } := by
  have hguarded := h.guarded
  rw [hs] at hguarded
  exact h.replace [.xipl old] hs hguarded (fun _ => unmasked_cons.mpr rfl)
    (fun hlow => quiet_cons.mpr ⟨rfl, h.quiet_rest hs rfl hlow⟩) rfl

theorem Control.handlerReturn (h : Control s) {old : ℕ} (hs : s.stack = .handler old :: rest) :
    Control { s with interrupts := false, stack := .xipl old :: .sti :: rest } := by
  have hguarded := h.guarded
  rw [hs] at hguarded
  obtain ⟨⟨hquiet, hmask⟩, hrest⟩ := hguarded
  refine h.replace [.xipl old, .sti] hs ⟨⟨?_, ?_⟩, hmask, hrest⟩
    (fun hno => by cases hno) (fun hlow => ?_) rfl
  · exact fun hlow => quiet_cons.mpr ⟨rfl, hquiet hlow⟩
  · exact unmasked_cons.mpr rfl
  · exact quiet_cons.mpr ⟨rfl, quiet_cons.mpr ⟨rfl, h.quiet_rest hs rfl hlow⟩⟩

theorem Control.pop (h : Control s) (ints : Bool) (hs : s.stack = frame :: rest)
    (hmask : frame.masked = false) (hframe : frame.checksNext = false) (hrest : Unmasked rest) :
    Control { s with interrupts := ints, stack := rest } := by
  have hguarded := h.guarded
  rw [hs] at hguarded
  exact h.replace [] hs hguarded.2 (fun _ => hrest)
    (fun hlow => h.quiet_rest hs hmask hlow) hframe

/-! ## Dispatching -/

theorem Control.xipl (h : Control s) {ipl : ℕ} (hs : s.stack = .xipl ipl :: rest) :
    Control { s with softIpl := ipl, stack := .xiplCheck ipl :: rest } := by
  have hguarded := h.guarded
  rw [hs] at hguarded
  exact h.replace [.xiplCheck ipl] hs hguarded (fun _ => unmasked_cons.mpr rfl)
    (fun hlow => quiet_cons.mpr ⟨rfl, hguarded.1.1 hlow⟩) rfl

theorem Control.check (h : Control s) {ipl : ℕ} (hs : s.stack = .xiplCheck ipl :: rest)
    (hbit : s.softintPending >>> ipl ≠ 0) :
    Control { s with stack := .dispatch ipl :: rest } := by
  have hguarded := h.guarded
  rw [hs] at hguarded
  have hquiet := hguarded.1.1 ((h.oneBit.check ipl).mp hbit).2
  exact h.replace [.dispatch ipl] hs ⟨⟨hquiet, hguarded.1.2⟩, hguarded.2⟩
    (fun _ => unmasked_cons.mpr rfl) (fun _ => quiet_cons.mpr ⟨rfl, hquiet⟩) rfl

theorem Control.dispatch (h : Control s) {ipl : ℕ} (hs : s.stack = .dispatch ipl :: rest) :
    Control { s with interrupts := false, stack := .dispatchLoop ipl s.interrupts :: rest } := by
  have hguarded := h.guarded
  rw [hs] at hguarded
  exact h.replace [.dispatchLoop ipl s.interrupts] hs hguarded (fun hno => by cases hno)
    (fun _ => quiet_cons.mpr ⟨rfl, hguarded.1.1⟩) rfl

theorem State.OneBit.handler (h : s.OneBit) {ipl : ℕ}
    (hbit : s.softintPending &&& (0xFFFF#64 <<< ipl) ≠ 0) :
    (softintHandler (Nat.log2 (s.softintPending.setWidth 32).toNat) : Option (Frame D X T)) =
      some (.dpcInt .ack) := by
  rcases h with h | h
  · rw [h] at hbit
    simp at hbit
  · rw [h]
    have hindex : Nat.log2 ((pending iplDpc).setWidth 32).toNat = 1 := by decide
    rw [hindex]
    rfl

theorem Control.callHandler (h : Control s) {ipl : ℕ} {state : Bool}
    (hs : s.stack = .dispatchLoop ipl state :: rest) :
    Control { s with stack := .dpcInt .ack :: .dispatchLoop ipl state :: rest } := by
  have hguarded := h.guarded
  have hmasked := h.masked
  rw [hs] at hguarded hmasked
  have hquiet : Quiet (.dpcInt .ack :: .dispatchLoop ipl state :: rest) :=
    quiet_cons.mpr ⟨rfl, quiet_cons.mpr ⟨rfl, hguarded.1.1⟩⟩
  refine h.replace [.dpcInt .ack, .dispatchLoop ipl state] hs ⟨?_, hguarded⟩
    (fun hints => ?_) (fun _ => hquiet) rfl
  · exact (quiet_cons.mp hquiet).2
  · have hno := unmasked_cons.mp (hmasked hints)
    cases hno

theorem Control.endLoop (h : Control s) {ipl : ℕ} {state : Bool}
    (hs : s.stack = .dispatchLoop ipl state :: rest) :
    Control { s with stack := .xipl ipl :: .dispatchEnd state :: rest } := by
  have hguarded := h.guarded
  rw [hs] at hguarded
  have hquiet : Quiet (.dispatchEnd state :: rest) := quiet_cons.mpr ⟨rfl, hguarded.1.1⟩
  exact h.replace [.xipl ipl, .dispatchEnd state] hs
    ⟨⟨fun _ => hquiet, unmasked_cons.mpr rfl⟩, hguarded.1.2, hguarded.2⟩
    (fun _ => unmasked_cons.mpr rfl) (fun _ => quiet_cons.mpr ⟨rfl, hquiet⟩) rfl

/-! ## `do_dpc_int` -/

theorem Control.dpcInt (h : Control s) {pc pc' : DpcPc D X T} (hs : s.stack = .dpcInt pc :: rest)
    (hruns' : (Frame.dpcInt pc).checksNext = true) (hpc : pc ≠ .raise) (hsaved : s'.saved = s.saved)
    (hbit : s'.softintPending = s.softintPending) (hipl : s'.softIpl = s.softIpl)
    (hstack : s'.stack = .dpcInt pc' :: rest) (hmask : (Frame.dpcInt pc').masked = false)
    (hqueue : s'.dpcQueue ≠ [] → s.dpcQueue ≠ [] ∧
      ((Frame.dpcInt pc).runsQueue = true → (Frame.dpcInt pc').runsQueue = true))
    (hnext : s'.nextThread ≠ none → s.nextThread ≠ none ∧ s'.inserting = s.inserting ∧
      (Frame.dpcInt pc').checksNext = true) : Control s' := by
  have hguarded := h.guarded
  rw [hs] at hguarded
  -- the IPL has been raised
  have hhigh : ¬ s.softIpl < iplDpc := by
    intro hlow
    rcases h.level hlow with hquiet | hraise
    · rw [hs] at hquiet
      have hno := (quiet_cons.mp hquiet).1
      rw [hruns'] at hno
      cases hno
    · rw [hs] at hraise
      exact hpc (Frame.dpcInt.inj (Option.some.inj hraise))
  refine h.goto hsaved hbit ?_ ?_ ?_ ?_ ?_
  · rw [hstack]
    exact hguarded
  · intro _
    rw [hstack]
    exact unmasked_cons.mpr hmask
  · rw [hipl]
    exact fun hlow => absurd hlow hhigh
  · intro hne
    obtain ⟨hne', hkeep⟩ := hqueue hne
    refine ⟨hne', ?_⟩
    rintro ⟨f, hf, hruns⟩
    rw [hs, List.mem_cons] at hf
    rw [hstack]
    rcases hf with rfl | hf
    · exact ⟨_, List.mem_cons_self, hkeep hruns⟩
    · exact ⟨f, List.mem_cons_of_mem _ hf, hruns⟩
  · intro hne
    obtain ⟨hne', hins, hkeep⟩ := hnext hne
    refine ⟨hne', hins, fun _ => ?_⟩
    rw [hstack]
    exact ⟨_, List.mem_cons_self, hkeep⟩

/-- The acknowledgement: from here on `do_dpc_int` is to look at everything. -/
theorem Control.ack (h : Control s) (hs : s.stack = .dpcInt .ack :: rest) :
    Control { s with
      softintPending := s.softintPending &&& ~~~pending iplDpc
      stack := .dpcInt .raise :: rest } := by
  have hguarded := h.guarded
  have hmasked := h.masked
  rw [hs] at hguarded hmasked
  refine ⟨Or.inl h.oneBit.ack, hguarded, ?_, fun _ => Or.inr rfl, h.saved, ?_, ?_⟩
  · intro hints
    have hno := unmasked_cons.mp (hmasked hints)
    cases hno
  · exact fun _ => Or.inr ⟨_, List.mem_cons_self, rfl⟩
  · exact fun _ => Or.inr (Or.inr ⟨_, List.mem_cons_self, rfl⟩)

theorem Control.raise (h : Control s) (hs : s.stack = .dpcInt .raise :: rest) :
    Control { s with softIpl := iplDpc, stack := .dpcInt .enable :: rest } := by
  have hguarded := h.guarded
  have hmasked := h.masked
  rw [hs] at hguarded hmasked
  refine ⟨h.oneBit, hguarded, ?_, fun hlow => absurd hlow (lt_irrefl _), h.saved, ?_, ?_⟩
  · intro hints
    have hno := unmasked_cons.mp (hmasked hints)
    cases hno
  · exact fun _ => Or.inr ⟨_, List.mem_cons_self, rfl⟩
  · exact fun _ => Or.inr (Or.inr ⟨_, List.mem_cons_self, rfl⟩)

theorem Control.call (h : Control s) {dpc : D} {context : X}
    (hs : s.stack = .dpcInt (.call dpc context) :: rest) :
    Control { s with
      log := .run dpc context :: s.log
      stack := .func :: .dpcInt .queueRun :: rest } := by
  have h₁ : Control { s with
      log := .run dpc context :: s.log
      stack := .dpcInt .queueRun :: rest } :=
    h.dpcInt hs rfl (fun hno => by cases hno) rfl rfl rfl rfl rfl (fun hne => ⟨hne, fun _ => rfl⟩)
      (fun hne => ⟨hne, rfl, rfl⟩)
  refine h₁.goto rfl rfl ⟨unmasked_cons.mpr rfl, h₁.guarded⟩ (fun _ => unmasked_cons.mpr rfl) ?_ ?_ ?_
  · intro hlow
    exact quiet_cons.mpr ⟨rfl, h₁.below hlow (unmasked_cons.mpr rfl)⟩
  · exact fun hne => ⟨hne, fun ⟨f, hf, hruns⟩ => ⟨f, List.mem_cons_of_mem _ hf, hruns⟩⟩
  · exact fun hne => ⟨hne, rfl, fun ⟨f, hf, hruns⟩ => ⟨f, List.mem_cons_of_mem _ hf, hruns⟩⟩

theorem Control.toSwtch (h : Control s) {next : T}
    (hs : s.stack = .dpcInt (.preemptInsert next) :: rest) :
    Control { s with stack := .swtch next :: .dpcInt .disable :: rest } := by
  have hguarded := h.guarded
  rw [hs] at hguarded
  have hquiet : Quiet (.dpcInt .disable :: rest) := quiet_cons.mpr ⟨rfl, hguarded.1⟩
  refine h.replace [.swtch next, .dpcInt .disable] hs
    ⟨⟨hquiet, unmasked_cons.mpr rfl⟩, hguarded⟩ (fun _ => unmasked_cons.mpr rfl) ?_ rfl
  exact fun _ => quiet_cons.mpr ⟨rfl, hquiet⟩

theorem Control.disable (h : Control s) (hs : s.stack = .dpcInt .disable :: rest) :
    Control { s with interrupts := false, stack := rest } := by
  have hguarded := h.guarded
  rw [hs] at hguarded
  exact h.replace [] hs hguarded.2 (fun hno => by cases hno) (fun _ => hguarded.1) rfl

/-- **A step of `do_dpc_int`.** -/
theorem Control.runDpcInt (h : Control s) {pc : DpcPc D X T} (hpc : s.stack = .dpcInt pc :: rest)
    (hs : Softint.runDpcInt idle priority s rest pc = some s') : Control s' := by
  cases pc with
  | ack =>
    cases hs
    exact h.ack hpc
  | raise =>
    cases hs
    exact h.raise hpc
  | enable =>
    cases hs
    exact h.dpcInt hpc rfl (fun hno => by cases hno) rfl rfl rfl rfl rfl
      (fun hne => ⟨hne, fun _ => rfl⟩) (fun hne => ⟨hne, rfl, rfl⟩)
  | queueRun =>
    simp only [Softint.runDpcInt] at hs
    cases hq : s.dpcQueue with
    | nil =>
      rw [hq] at hs
      cases hs
      exact h.dpcInt hpc rfl (fun hno => by cases hno) rfl rfl rfl rfl rfl
        (fun hne => absurd rfl hne) (fun hne => ⟨hne, rfl, rfl⟩)
    | cons dpc queue =>
      rw [hq] at hs
      cases hs
      refine h.dpcInt hpc rfl (fun hno => by cases hno) rfl rfl rfl rfl rfl ?_
        (fun hne => ⟨hne, rfl, rfl⟩)
      intro _
      rw [hq]
      exact ⟨List.cons_ne_nil _ _, fun _ => rfl⟩
  | call dpc context =>
    cases hs
    exact h.call hpc
  | checkNext =>
    simp only [Softint.runDpcInt] at hs
    cases hn : s.nextThread with
    | none =>
      rw [hn] at hs
      cases hs
      exact h.dpcInt hpc rfl (fun hno => by cases hno) rfl rfl rfl rfl rfl
        (fun hne => ⟨hne, fun hno => by cases hno⟩) (fun hne => absurd rfl hne)
    | some next =>
      rw [hn] at hs
      cases hs
      exact h.dpcInt hpc rfl (fun hno => by cases hno) rfl rfl rfl rfl rfl
        (fun hne => ⟨hne, fun hno => by cases hno⟩)
        (fun _ => ⟨by rw [hn]; exact Option.some_ne_none _, rfl, rfl⟩)
  | preempt =>
    simp only [Softint.runDpcInt] at hs
    split_ifs at hs
    cases hn : s.nextThread with
    | none =>
      rw [hn] at hs
      cases hs
      exact h.dpcInt hpc rfl (fun hno => by cases hno) rfl rfl rfl rfl rfl
        (fun hne => ⟨hne, fun hno => by cases hno⟩) (fun hne => absurd rfl hne)
    | some next =>
      rw [hn] at hs
      cases hs
      exact h.dpcInt hpc rfl (fun hno => by cases hno) rfl rfl rfl rfl rfl
        (fun hne => ⟨hne, fun hno => by cases hno⟩) (fun hne => absurd rfl hne)
  | preemptInsert next =>
    simp only [Softint.runDpcInt] at hs
    split_ifs at hs
    · cases hs
      have h₁ : Control { s with status := Function.update s.status s.currentThread .ready } :=
        h.stay rfl rfl rfl rfl (Or.inl rfl) Or.inr (fun hne => Or.inr (Or.inr ⟨hne, rfl⟩))
      exact h₁.toSwtch hpc
    · obtain ⟨s₁, hins, rfl⟩ := Option.map_eq_some_iff.mp hs
      refine (h.schedInsertHere hins).toSwtch ?_
      obtain ⟨⟨s₂, issue⟩, hins₂, rfl⟩ := Option.map_eq_some_iff.mp hins
      obtain ⟨⟨status, next', rfl⟩, _⟩ := schedInsert_inserted hins₂
      cases issue with
      | false => exact hpc
      | true => exact hpc
  | disable =>
    cases hs
    exact h.disable hpc

/-! ## Switching -/

/-- **`swtch`** goes on with the other thread's stack, which looks for nothing; and neither does the
one that is left. -/
theorem Control.swtch (h : Control s) {next : T} (hpc : s.stack = .swtch next :: rest)
    (hs : Softint.swtch s next rest = some s') : Control s' := by
  unfold Softint.swtch at hs
  split_ifs at hs with hipl
  cases hs
  have hguarded := h.guarded
  have hqueue := h.queue
  have hnext := h.next
  rw [hpc] at hguarded hqueue hnext
  obtain ⟨⟨hquiet, hmask⟩, hrest⟩ := hguarded
  have hno : ∀ frame ∈ Frame.swtch next :: rest, frame.checksNext ≠ true := by
    intro frame hframe
    rw [(quiet_cons.mpr ⟨rfl, hquiet⟩ : Quiet (Frame.swtch next :: rest)) frame hframe]
    exact Bool.false_ne_true
  refine ⟨h.oneBit, (h.saved next).1, fun _ => (h.saved next).2.2, ?_, ?_, ?_, ?_⟩
  · intro hlow
    change s.softIpl < iplDpc at hlow
    rw [hipl.1] at hlow
    exact absurd hlow (lt_irrefl _)
  · intro t
    show Guarded (Function.update s.saved s.currentThread rest t) ∧
      Quiet (Function.update s.saved s.currentThread rest t) ∧
      Unmasked (Function.update s.saved s.currentThread rest t)
    by_cases ht : t = s.currentThread
    · rw [ht, Function.update_self]
      exact ⟨hrest, hquiet, hmask⟩
    · rw [Function.update_of_ne ht]
      exact h.saved t
  · intro hne
    refine Or.inl ((hqueue hne).resolve_right ?_)
    rintro ⟨f, hf, hruns⟩
    exact hno f hf (Frame.checksNext_of_runsQueue hruns)
  · intro hne
    rcases hnext hne with hp | hins | ⟨f, hf, hchecks⟩
    · exact Or.inl hp
    · exact Or.inr (Or.inl hins)
    · exact absurd hchecks (hno f hf)

/-- **A step of the processor.** -/
theorem Control.run (h : Control s) (hs : Softint.run idle priority s = some s') : Control s' := by
  unfold Softint.run at hs
  have hguarded := h.guarded
  split at hs
  · rename_i rest hpc
    rw [hpc] at hguarded
    cases hs
    exact h.pop true hpc rfl rfl hguarded.1
  · rename_i ipl rest hpc
    cases hs
    exact h.xipl hpc
  · rename_i ipl rest hpc
    rw [hpc] at hguarded
    split_ifs at hs with hbit
    · cases hs
      exact h.check hpc hbit
    · cases hs
      exact h.pop s.interrupts hpc rfl rfl hguarded.1.2
  · rename_i ipl rest hpc
    cases hs
    exact h.dispatch hpc
  · rename_i ipl state rest hpc
    split_ifs at hs with hbit
    · rw [h.oneBit.handler hbit] at hs
      cases hs
      exact h.callHandler hpc
    · cases hs
      exact h.endLoop hpc
  · rename_i state rest hpc
    rw [hpc] at hguarded
    cases hs
    exact h.pop _ hpc rfl rfl hguarded.1
  · rename_i pc rest hpc
    exact h.runDpcInt hpc hs
  · rename_i next rest hpc
    exact h.swtch hpc hs
  · cases hs

/-! ## The invariant of the log -/

/-- **The books of the DPCs.**  The flags say which are queued, each once; the log is lawful and
knows the contexts, and the DPC that is about to be called. -/
structure Books (s : State D X T R) : Prop where
  enqueued : ∀ dpc, (s.dpcs dpc).enqueued = true ↔ dpc ∈ s.dpcQueue
  nodup : s.dpcQueue.Nodup
  lawful : JobLog.Lawful s.log
  queued : ∀ dpc, JobLog.queued dpc s.log =
    if dpc ∈ s.dpcQueue then some (s.dpcs dpc).context else none
  running : (JobLog.running s.log).toList = s.stack.filterMap Frame.called

theorem Books.same (h : Books s) (hdpcs : s'.dpcs = s.dpcs) (hqueue : s'.dpcQueue = s.dpcQueue)
    (hlog : s'.log = s.log)
    (hcalled : s'.stack.filterMap Frame.called = s.stack.filterMap Frame.called) : Books s' where
  enqueued := by
    rw [hdpcs, hqueue]
    exact h.enqueued
  nodup := by
    rw [hqueue]
    exact h.nodup
  lawful := by
    rw [hlog]
    exact h.lawful
  queued := by
    rw [hlog, hqueue, hdpcs]
    exact h.queued
  running := by
    rw [hlog, hcalled]
    exact h.running

theorem Books.not_queued (h : Books s) {dpc : D} (hfree : (s.dpcs dpc).enqueued = false) :
    dpc ∉ s.dpcQueue := by
  intro hmem
  rw [(h.enqueued dpc).mpr hmem] at hfree
  cases hfree

theorem Books.dpcEnqueue (h : Books s) (dpc : D) (context : X) :
    Books (dpcEnqueue s dpc context) := by
  unfold Softint.dpcEnqueue
  split_ifs with hq
  · refine ⟨h.enqueued, h.nodup, ⟨?_, h.lawful⟩, h.queued, h.running⟩
    rw [h.queued dpc, if_pos ((h.enqueued dpc).mp hq)]
    exact Option.some_ne_none _
  · have hnew := h.not_queued ((Bool.not_eq_true _).mp hq)
    refine ⟨?_, List.nodup_cons.mpr ⟨hnew, h.nodup⟩, ⟨?_, h.lawful⟩, ?_, h.running⟩
    · intro d
      show (Function.update s.dpcs dpc ⟨true, context⟩ d).enqueued = true ↔ d ∈ dpc :: s.dpcQueue
      by_cases hd : d = dpc
      · rw [hd, Function.update_self]
        exact iff_of_true rfl List.mem_cons_self
      · rw [Function.update_of_ne hd, h.enqueued d, List.mem_cons]
        exact ⟨Or.inr, fun hin => hin.resolve_left hd⟩
    · rw [h.queued dpc, if_neg hnew]
    · intro d
      show JobLog.queued d (.put dpc context :: s.log) = if d ∈ dpc :: s.dpcQueue then
        some (Function.update s.dpcs dpc ⟨true, context⟩ d).context else none
      by_cases hd : d = dpc
      · rw [hd, Function.update_self, JobLog.queued_put_self, if_pos List.mem_cons_self]
      · rw [Function.update_of_ne hd, JobLog.queued_put_of_ne (Ne.symm hd), h.queued d]
        simp only [List.mem_cons, hd, false_or]

theorem Books.remove (h : Books s) {dpc : D} {queue : List D}
    (hperm : s.dpcQueue.Perm (dpc :: queue)) {a : JobLog.Action D X} {stack : List (Frame D X T)}
    (hother : ∀ d, d ≠ dpc → JobLog.queued d (a :: s.log) = JobLog.queued d s.log)
    (hself : JobLog.queued dpc (a :: s.log) = none) (hlawful : JobLog.Lawful (a :: s.log))
    (hrunning : (JobLog.running (a :: s.log)).toList = stack.filterMap Frame.called) :
    Books { s with
      dpcs := Function.update s.dpcs dpc ⟨false, (s.dpcs dpc).context⟩
      dpcQueue := queue
      log := a :: s.log
      stack := stack } := by
  have hnodup := hperm.nodup_iff.mp h.nodup
  have hout : dpc ∉ queue := (List.nodup_cons.mp hnodup).1
  have hmem : ∀ d, d ≠ dpc → (d ∈ queue ↔ d ∈ s.dpcQueue) := by
    intro d hd
    rw [hperm.mem_iff, List.mem_cons]
    exact ⟨Or.inr, fun hin => hin.resolve_left hd⟩
  refine ⟨?_, (List.nodup_cons.mp hnodup).2, hlawful, ?_, hrunning⟩
  · intro d
    show (Function.update s.dpcs dpc ⟨false, (s.dpcs dpc).context⟩ d).enqueued = true ↔ d ∈ queue
    by_cases hd : d = dpc
    · rw [hd, Function.update_self]
      exact iff_of_false Bool.false_ne_true hout
    · rw [Function.update_of_ne hd, h.enqueued d, hmem d hd]
  · intro d
    show JobLog.queued d (a :: s.log) = if d ∈ queue then
      some (Function.update s.dpcs dpc ⟨false, (s.dpcs dpc).context⟩ d).context else none
    by_cases hd : d = dpc
    · rw [hd, hself, if_neg hout]
    · rw [Function.update_of_ne hd, hother d hd, h.queued d]
      simp only [hmem d hd]

theorem Books.dpcDequeue (h : Books s) (dpc : D) : Books (dpcDequeue s dpc) := by
  unfold Softint.dpcDequeue
  split_ifs with hq
  · have hmem := (h.enqueued dpc).mp hq
    refine h.remove (List.perm_cons_erase hmem)
      (fun d hd => JobLog.queued_cancel_of_ne (Ne.symm hd)) JobLog.queued_cancel_self
      ⟨?_, h.lawful⟩ h.running
    rw [h.queued dpc, if_pos hmem]
  · exact h

theorem Books.inserted (h : Books s) {issue : Bool} (hs : Inserted s s' issue) : Books s' := by
  obtain ⟨⟨status, next, rfl⟩, _⟩ := hs
  exact h.same rfl rfl rfl rfl

theorem Books.schedInsertHere (h : Books s) {thread : T}
    (hs : Softint.schedInsertHere idle priority s thread = some s') : Books s' := by
  obtain ⟨⟨s₁, issue⟩, hins, rfl⟩ := Option.map_eq_some_iff.mp hs
  have h₁ := h.inserted (schedInsert_inserted hins)
  cases issue with
  | false => exact h₁
  | true => exact h₁.same rfl rfl rfl rfl

theorem Books.runDpcInt (h : Books s) (hcontrol : Control s) {pc : DpcPc D X T}
    (hpc : s.stack = .dpcInt pc :: rest)
    (hs : Softint.runDpcInt idle priority s rest pc = some s') : Books s' := by
  have hguarded := hcontrol.guarded
  have hrunning := h.running
  rw [hpc] at hguarded hrunning
  have hrest : rest.filterMap Frame.called = [] := Quiet.called hguarded.1
  cases pc with
  | ack | raise | enable =>
    cases hs
    exact h.same rfl rfl rfl (by rw [hpc]; rfl)
  | queueRun =>
    simp only [Softint.runDpcInt] at hs
    change _ = rest.filterMap Frame.called at hrunning
    rw [hrest, Option.toList_eq_nil_iff] at hrunning
    cases hq : s.dpcQueue with
    | nil =>
      rw [hq] at hs
      cases hs
      exact h.same rfl hq.symm rfl (by rw [hpc]; rfl)
    | cons dpc queue =>
      rw [hq] at hs
      cases hs
      have hmem : dpc ∈ s.dpcQueue := by
        rw [hq]
        exact List.mem_cons_self
      refine h.remove (by rw [hq]) (fun d hd => JobLog.queued_take_of_ne (Ne.symm hd))
        JobLog.queued_take_self ⟨?_, hrunning, h.lawful⟩ ?_
      · rw [h.queued dpc, if_pos hmem]
      · show [(dpc, (s.dpcs dpc).context)] =
          (dpc, (s.dpcs dpc).context) :: rest.filterMap Frame.called
        rw [hrest]
  | call dpc context =>
    cases hs
    change _ = (dpc, context) :: rest.filterMap Frame.called at hrunning
    rw [hrest, Option.toList_eq_singleton_iff] at hrunning
    refine ⟨h.enqueued, h.nodup, ⟨hrunning, h.lawful⟩, h.queued, ?_⟩
    show [] = rest.filterMap Frame.called
    rw [hrest]
  | checkNext =>
    simp only [Softint.runDpcInt] at hs
    cases hn : s.nextThread <;> rw [hn] at hs <;> cases hs
    · exact h.same rfl rfl rfl (by rw [hpc]; rfl)
    · exact h.same rfl rfl rfl (by rw [hpc]; rfl)
  | preempt =>
    simp only [Softint.runDpcInt] at hs
    split_ifs at hs
    cases hn : s.nextThread <;> rw [hn] at hs <;> cases hs
    · exact h.same rfl rfl rfl (by rw [hpc]; rfl)
    · exact h.same rfl rfl rfl (by rw [hpc]; rfl)
  | preemptInsert next =>
    simp only [Softint.runDpcInt] at hs
    split_ifs at hs
    · cases hs
      exact h.same rfl rfl rfl (by rw [hpc]; rfl)
    · obtain ⟨s₁, hins, rfl⟩ := Option.map_eq_some_iff.mp hs
      have h₁ := h.schedInsertHere hins
      have hstack : s₁.stack = s.stack := by
        obtain ⟨⟨s₂, issue⟩, hins₂, rfl⟩ := Option.map_eq_some_iff.mp hins
        obtain ⟨⟨status, next', rfl⟩, _⟩ := schedInsert_inserted hins₂
        cases issue <;> rfl
      refine h₁.same rfl rfl rfl ?_
      rw [hstack, hpc]
      rfl
  | disable =>
    cases hs
    exact h.same rfl rfl rfl (by rw [hpc]; rfl)

theorem Books.swtch (h : Books s) (hcontrol : Control s) {next : T}
    (hpc : s.stack = .swtch next :: rest) (hs : Softint.swtch s next rest = some s') :
    Books s' := by
  unfold Softint.swtch at hs
  split_ifs at hs
  cases hs
  have hguarded := hcontrol.guarded
  rw [hpc] at hguarded
  refine h.same rfl rfl rfl ?_
  show (s.saved next).filterMap Frame.called = s.stack.filterMap Frame.called
  rw [(hcontrol.saved next).2.1.called, hpc]
  exact (Quiet.called hguarded.1.1).symm

theorem Books.run (h : Books s) (hcontrol : Control s)
    (hs : Softint.run idle priority s = some s') : Books s' := by
  unfold Softint.run at hs
  split at hs
  · rename_i rest hpc
    cases hs
    exact h.same rfl rfl rfl (by rw [hpc]; rfl)
  · rename_i ipl rest hpc
    cases hs
    exact h.same rfl rfl rfl (by rw [hpc]; rfl)
  · rename_i ipl rest hpc
    split_ifs at hs
    · cases hs
      exact h.same rfl rfl rfl (by rw [hpc]; rfl)
    · cases hs
      exact h.same rfl rfl rfl (by rw [hpc]; rfl)
  · rename_i ipl rest hpc
    cases hs
    exact h.same rfl rfl rfl (by rw [hpc]; rfl)
  · rename_i ipl state rest hpc
    split_ifs at hs with hbit
    · rw [hcontrol.oneBit.handler hbit] at hs
      cases hs
      exact h.same rfl rfl rfl (by rw [hpc]; rfl)
    · cases hs
      exact h.same rfl rfl rfl (by rw [hpc]; rfl)
  · rename_i state rest hpc
    cases hs
    exact h.same rfl rfl rfl (by rw [hpc]; rfl)
  · rename_i pc rest hpc
    exact h.runDpcInt hcontrol hpc hs
  · rename_i next rest hpc
    exact h.swtch hcontrol hpc hs
  · cases hs

/-! ## Runs -/

theorem quiet_of_threadCode (h : ∀ frame ∈ stack, frame.threadCode = true) : Quiet stack := by
  intro frame hframe
  have hcode := h frame hframe
  cases frame <;> first | rfl | cases hcode

theorem Control.doWait (h : Control s) {next : T} {status : T → Sched.ThreadState}
    (hcode : ∀ frame ∈ s.stack, frame.threadCode = true) :
    Control { s with
      nextThread := none
      status := status
      stack := .swtch next :: s.stack } := by
  have hquiet := quiet_of_threadCode hcode
  have hmask : Unmasked s.stack := by
    intro frame hframe
    have hf := hcode frame (List.mem_of_mem_head? hframe)
    cases frame <;> first | rfl | cases hf
  refine h.goto rfl rfl ⟨⟨hquiet, hmask⟩, h.guarded⟩ (fun _ => unmasked_cons.mpr rfl) ?_ ?_ ?_
  · exact fun _ => quiet_cons.mpr ⟨rfl, hquiet⟩
  · exact fun hne => ⟨hne, fun ⟨f, hf, hruns⟩ => ⟨f, List.mem_cons_of_mem _ hf, hruns⟩⟩
  · exact fun hne => absurd rfl hne

/-- **Step lemma.** -/
theorem Control.step {ev : Event D X T R} (h : Control s) (hbooks : Books s)
    (hs : Softint.step idle priority s ev = some s') : Control s' ∧ Books s' := by
  cases ev with
  | run => exact ⟨h.run hs, hbooks.run h hs⟩
  | ripl ipl =>
    simp only [Softint.step] at hs
    split_ifs at hs with hcond
    cases hs
    exact ⟨h.push _ hcond.2.1 (Control.unmasked_of_free hcond.1) (Or.inl rfl),
      hbooks.same rfl rfl rfl rfl⟩
  | xipl =>
    simp only [Softint.step] at hs
    split at hs
    · rename_i old rest hpc
      cases hs
      exact ⟨h.leave hpc, hbooks.same rfl rfl rfl (by rw [hpc]; rfl)⟩
    · cases hs
  | interrupt ipl =>
    simp only [Softint.step] at hs
    split_ifs at hs with hcond
    cases hs
    exact ⟨h.push _ (Nat.le_of_lt hcond.2.2.1) (h.masked hcond.1) (Or.inr rfl),
      hbooks.same rfl rfl rfl rfl⟩
  | handlerReturn =>
    simp only [Softint.step] at hs
    split at hs
    · rename_i old rest hpc
      cases hs
      exact ⟨h.handlerReturn hpc, hbooks.same rfl rfl rfl (by rw [hpc]; rfl)⟩
    · cases hs
  | dpcReturn =>
    simp only [Softint.step] at hs
    split at hs
    · rename_i rest hpc
      have hguarded := h.guarded
      rw [hpc] at hguarded
      cases hs
      exact ⟨h.pop s.interrupts hpc rfl rfl hguarded.1,
        hbooks.same rfl rfl rfl (by rw [hpc]; rfl)⟩
    · cases hs
  | dpcEnqueue dpc context =>
    simp only [Softint.step] at hs
    split_ifs at hs
    cases hs
    exact ⟨h.dpcEnqueue dpc context, hbooks.dpcEnqueue dpc context⟩
  | dpcDequeue dpc =>
    simp only [Softint.step] at hs
    split_ifs at hs
    cases hs
    exact ⟨h.dpcDequeue dpc, hbooks.dpcDequeue dpc⟩
  | schedInsert thread =>
    simp only [Softint.step] at hs
    split_ifs at hs
    exact ⟨h.schedInsertHere hs, hbooks.schedInsertHere hs⟩
  | schedInsertOther cpu thread =>
    simp only [Softint.step] at hs
    split_ifs at hs
    refine ⟨h.schedInsertOther hs, ?_⟩
    obtain ⟨⟨s₁, issue⟩, hins, rfl⟩ := Option.map_eq_some_iff.mp hs
    have h₁ := hbooks.inserted (schedInsert_inserted hins)
    cases issue with
    | false => exact h₁
    | true => exact h₁.same rfl rfl rfl rfl
  | softintIssueOther cpu =>
    simp only [Softint.step] at hs
    split_ifs at hs
    cases hs
    exact ⟨h.softintIssueOther, hbooks.same rfl rfl rfl rfl⟩
  | doWait selected =>
    simp only [Softint.step] at hs
    split_ifs at hs with hcond
    cases hs
    exact ⟨h.doWait hcond.1, hbooks.same rfl rfl rfl rfl⟩

variable [Inhabited X]

theorem control_initial (idle : T) : Control (initial idle : State D X T R) := by
  refine ⟨Or.inl rfl, ⟨?_, trivial⟩, fun _ => unmasked_cons.mpr rfl, fun _ => Or.inl ?_, fun t => ?_,
    fun hno => absurd rfl hno, fun hno => absurd rfl hno⟩
  · intro frame hframe
    cases hframe
  · exact quiet_cons.mpr ⟨rfl, fun _ hf => by cases hf⟩
  · have hrest : Quiet ([.sti, .code] : List (Frame D X T)) :=
      quiet_cons.mpr ⟨rfl, quiet_cons.mpr ⟨rfl, fun _ hf => by cases hf⟩⟩
    refine ⟨⟨⟨fun _ => hrest, unmasked_cons.mpr rfl⟩, unmasked_cons.mpr rfl, ?_, trivial⟩,
      quiet_cons.mpr ⟨rfl, hrest⟩, unmasked_cons.mpr rfl⟩
    intro frame hframe
    cases hframe

theorem books_initial (idle : T) : Books (initial idle : State D X T R) :=
  ⟨fun _ => iff_of_false Bool.false_ne_true List.not_mem_nil, List.nodup_nil, trivial,
    fun _ => rfl, rfl⟩

/-- **Run lemma.** -/
theorem Control.of_reachable (h : (system D X T R idle priority).Reachable s) :
    Control s ∧ Books s := by
  apply TransitionSystem.Reachable.invariant ?_ ?_ h
  · rintro _ rfl
    exact ⟨control_initial idle, books_initial idle⟩
  · rintro s ev s' ⟨hcontrol, hbooks⟩ hs
    exact hcontrol.step hbooks hs

/-! ## Nothing is lost -/

/-- What the log tells when `dpc_queue_run` runs the DPCs of a queue, the first one first. -/
def ran (dpcs : D → Dpc X) (queue : List D) : List (JobLog.Action D X) :=
  queue.reverse.flatMap fun dpc => [.run dpc (dpcs dpc).context, .take dpc (dpcs dpc).context]

/-- **`dpc_queue_run`** runs every DPC of the queue, if their functions return and enqueue nothing. -/
theorem queueRun_drains (hs : s.stack = .dpcInt .queueRun :: rest) :
    ∃ evs s', (system D X T R idle priority).run s evs = some s' ∧
      s'.stack = .dpcInt .checkNext :: rest ∧ s'.dpcQueue = [] ∧
      s'.log = ran s.dpcs s.dpcQueue ++ s.log := by
  generalize hqueue : s.dpcQueue = queue
  induction queue generalizing s with
  | nil =>
    refine ⟨[.run], { s with stack := .dpcInt .checkNext :: rest }, ?_, rfl, hqueue, rfl⟩
    have hstep : Softint.step idle priority s .run =
        some { s with stack := .dpcInt .checkNext :: rest } := by
      rw [Softint.step, Softint.run, hs]
      simp only [Softint.runDpcInt]
      rw [hqueue]
    rw [TransitionSystem.run, List.foldlM_cons]
    show (Softint.step idle priority s .run >>= _) = _
    rw [hstep]
    rfl
  | cons dpc queue ih =>
    -- the state after the call has returned
    let context := (s.dpcs dpc).context
    let s₁ : State D X T R := { s with
      dpcs := Function.update s.dpcs dpc ⟨false, context⟩
      dpcQueue := queue
      log := .take dpc context :: s.log
      stack := .dpcInt (.call dpc context) :: rest }
    let s₂ : State D X T R := { s₁ with
      log := .run dpc context :: s₁.log
      stack := .func :: .dpcInt .queueRun :: rest }
    let s₃ : State D X T R := { s₂ with stack := .dpcInt .queueRun :: rest }
    have hstep₁ : Softint.step idle priority s .run = some s₁ := by
      rw [Softint.step, Softint.run, hs]
      simp only [Softint.runDpcInt]
      rw [hqueue]
    have hstep₂ : Softint.step idle priority s₁ .run = some s₂ := rfl
    have hstep₃ : Softint.step idle priority s₂ .dpcReturn = some s₃ := rfl
    obtain ⟨evs, s', hrun, hstack, hempty, hlog⟩ := ih (s := s₃) rfl rfl
    refine ⟨.run :: .run :: .dpcReturn :: evs, s', ?_, hstack, hempty, ?_⟩
    · rw [TransitionSystem.run, List.foldlM_cons]
      show (Softint.step idle priority s .run >>= _) = _
      rw [hstep₁, Option.bind_eq_bind, Option.bind_some, List.foldlM_cons]
      show (Softint.step idle priority s₁ .run >>= _) = _
      rw [hstep₂, Option.bind_eq_bind, Option.bind_some, List.foldlM_cons]
      show (Softint.step idle priority s₂ .dpcReturn >>= _) = _
      rw [hstep₃, Option.bind_eq_bind, Option.bind_some]
      exact hrun
    · have hcontext : ∀ d, (s₃.dpcs d).context = (s.dpcs d).context := by
        intro d
        show (Function.update s.dpcs dpc ⟨false, context⟩ d).context = _
        by_cases hd : d = dpc
        · rw [hd, Function.update_self]
        · rw [Function.update_of_ne hd]
      have hran : ran s₃.dpcs queue = ran s.dpcs queue := by
        unfold ran
        refine List.flatMap_congr (fun d _ => ?_)
        rw [hcontext d]
      rw [hlog, hran, ran, ran, List.reverse_cons, List.flatMap_append, List.append_assoc]
      rfl

/-- **No deferred work is lost.**  The log of the DPCs is lawful: a DPC is put in only while it is
not queued, is taken out with the context it was put in with, and what is taken is run before
anything else is; so each that was put in has been run once, or dequeued, or is queued or about to
be called.  While ordinary code runs below `IPL_DPC`, the queue is empty or the bit is set, and
`next_thread` is null or the bit is set or another processor is about to set it; when `xipl` goes
below `IPL_DPC` and dispatches nothing, the queue is empty.  And `dpc_queue_run` can always empty
it. -/
theorem deferred_work [DecidableEq X] (h : (system D X T R idle priority).Reachable s) :
    JobLog.Lawful s.log ∧
    (∀ dpc context, s.log.count (.put dpc context) =
      s.log.count (.run dpc context) + s.log.count (.cancel dpc context) +
        (if dpc ∈ s.dpcQueue ∧ (s.dpcs dpc).context = context then 1 else 0) +
        (s.stack.filterMap Frame.called).count (dpc, context)) ∧
    (s.Free → s.softIpl < iplDpc → (s.dpcQueue = [] ∨ s.Pending) ∧
      (s.nextThread = none ∨ s.Pending ∨ s.inserting ≠ none)) ∧
    (∀ ipl rest, s.stack = .xiplCheck ipl :: rest → ipl < iplDpc → s.softintPending >>> ipl = 0 →
      s.dpcQueue = [] ∧ (s.nextThread = none ∨ s.inserting ≠ none)) ∧
    ∀ rest, s.stack = .dpcInt .queueRun :: rest → ∃ evs s',
      (system D X T R idle priority).run s evs = some s' ∧
      s'.stack = .dpcInt .checkNext :: rest ∧ s'.dpcQueue = [] ∧
      s'.log = ran s.dpcs s.dpcQueue ++ s.log := by
  obtain ⟨hcontrol, hbooks⟩ := Control.of_reachable h
  -- with nothing on the stack that looks for it, what is there has the bit set
  have hquiet : Quiet s.stack → (s.dpcQueue = [] ∨ s.Pending) ∧
      (s.nextThread = none ∨ s.Pending ∨ s.inserting ≠ none) := by
    intro hq
    constructor
    · by_cases hne : s.dpcQueue = []
      · exact Or.inl hne
      · exact Or.inr ((hcontrol.queue hne).resolve_right hq.not_runsQueue)
    · by_cases hne : s.nextThread = none
      · exact Or.inl hne
      · refine Or.inr ((hcontrol.next hne).imp id (fun h' => h'.resolve_right ?_))
        rintro ⟨f, hf, hchecks⟩
        rw [hq f hf] at hchecks
        cases hchecks
  refine ⟨hbooks.lawful, ?_, ?_, ?_, fun rest hs => queueRun_drains hs⟩
  · intro dpc context
    rw [hbooks.lawful.count dpc context, hbooks.running, hbooks.queued dpc]
    congr 2
    by_cases hmem : dpc ∈ s.dpcQueue
    · by_cases hc : (s.dpcs dpc).context = context
      · rw [if_pos hmem, if_pos ⟨hmem, hc⟩, hc]
        simp
      · rw [if_pos hmem, if_neg (fun h' => hc h'.2)]
        simp [hc]
    · rw [if_neg hmem, if_neg (fun h' => hmem h'.1)]
      rfl
  · intro hfree hlow
    exact hquiet (hcontrol.below hlow (Control.unmasked_of_free hfree))
  · intro ipl rest hs hlow hzero
    have hguarded := hcontrol.guarded
    rw [hs] at hguarded
    have hq : Quiet s.stack := by
      rw [hs]
      exact quiet_cons.mpr ⟨rfl, hguarded.1.1 hlow⟩
    have hclear : ¬ s.Pending := fun hp => (hcontrol.oneBit.check ipl).mpr ⟨hp, hlow⟩ hzero
    obtain ⟨hqueue, hnext⟩ := hquiet hq
    exact ⟨hqueue.resolve_right hclear, hnext.imp id (fun h' => h'.resolve_left hclear)⟩

/-! ## Two runs -/

/-- A DPC is enqueued in a thread's code, and again with another context; an interrupt comes, and
its handler's return dispatches. -/
def refusedRun : List (Event ℕ ℕ ℕ ℕ) :=
  [.dpcEnqueue 0 1, .dpcEnqueue 0 2, .interrupt 3, .handlerReturn] ++
    List.replicate 9 .run ++ [.dpcReturn] ++ List.replicate 8 .run

/-- Afterwards the DPC has run once. -/
theorem deferred_work_two : ∃ s : State ℕ ℕ ℕ ℕ,
    (system ℕ ℕ ℕ ℕ 0 (fun _ => 1)).Reachable s ∧ s.log.count (.put 0 1) = 1 ∧
    JobLog.Lawful s.log ∧ (s.dpcQueue = [] ∨ s.Pending) := by
  obtain ⟨s, hs, hp⟩ := TransitionSystem.exists_reachable_of_run
    (show (system ℕ ℕ ℕ ℕ 0 (fun _ => 1)).init (initial 0) from rfl) refusedRun
    (fun s => s.log.count (.put 0 1) = 1 ∧ s.Free ∧ s.softIpl < iplDpc) (by decide +kernel)
  simp only [decide_eq_true_eq] at hp
  obtain ⟨hlawful, _, hbelow, _⟩ := deferred_work hs
  exact ⟨s, hs, hp.1, hlawful, (hbelow hp.2.1 hp.2.2).1⟩

/-- Below `IPL_DPC` the processor has a next thread and no bit set, while another processor is about
to set it; and a DPC that is enqueued twice is run once, with the first context. -/
theorem window_and_refusal :
    (∃ s : State ℕ ℕ ℕ ℕ, (system ℕ ℕ ℕ ℕ 0 (fun _ => 1)).Reachable s ∧ s.Free ∧
      s.softIpl < iplDpc ∧ s.nextThread ≠ none ∧ ¬ s.Pending) ∧
    ∃ s : State ℕ ℕ ℕ ℕ, (system ℕ ℕ ℕ ℕ 0 (fun _ => 1)).Reachable s ∧ s.Free ∧
      s.softIpl < iplDpc ∧ s.dpcQueue = [] ∧
      s.log = [.run 0 1, .take 0 1, .refused 0 2, .put 0 1] := by
  have hinit : (system ℕ ℕ ℕ ℕ 0 (fun _ => 1)).init (initial 0) := rfl
  constructor
  · obtain ⟨s, hs, hp⟩ := TransitionSystem.exists_reachable_of_run hinit [.schedInsertOther 0 1]
      (fun s => s.Free ∧ s.softIpl < iplDpc ∧ s.nextThread ≠ none ∧ ¬ s.Pending)
      (by decide +kernel)
    exact ⟨s, hs, of_decide_eq_true hp⟩
  · obtain ⟨s, hs, hp⟩ := TransitionSystem.exists_reachable_of_run hinit refusedRun
      (fun s => s.Free ∧ s.softIpl < iplDpc ∧ s.dpcQueue = [] ∧
        s.log = [.run 0 1, .take 0 1, .refused 0 2, .put 0 1])
      (by decide +kernel)
    exact ⟨s, hs, of_decide_eq_true hp⟩

end Softint
