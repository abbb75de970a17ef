/-
# poll

`sys_poll` of `kernel/core/syscall/poll.c`.  What other code answers is given: the table of
descriptors, `VOP_POLL`, the allocator, and how each `sched_wait_many` ends.  The loop waits until
an entry is ready, however the wait has ended.
-/
import Mathlib.Tactic

namespace SysPoll

/-! ## The call -/

/-- `POLLNVAL` -/
def pollNval : BitVec 16 := 0x0020

/-- `TIMEOUT_INFINITE` -/
def timeoutInfinite : ℕ := 2 ^ 64 - 1

/-- `struct pollfd`, before the call. -/
structure Entry where
  fd : ℤ
  events : BitVec 16

/-- `struct timespec` -/
structure Timespec where
  sec : ℕ
  nsec : ℕ

/-- What the code that is called answers. -/
structure Env where
  /-- `getfile_ref` for the entry with this index. -/
  file : ℕ → ℤ → Option ℕ
  /-- What `VOP_POLL` sets, in the first pass or after a wait, for the entry with this index. -/
  poll : ℕ → ℕ → ℕ → BitVec 16 → BitVec 16
  hasFiles : Bool
  hasEvents : Bool
  hasBlocks : Bool
  /-- The waits that end: with `YAK_TIMEOUT`, or otherwise. -/
  waits : List Bool

inductive Errno where
  | einval
  | enomem
  deriving DecidableEq

/-- `files[i]` and `entry->revents`. -/
@[ext]
structure Slot where
  file : Option ℕ
  revents : BitVec 16
  deriving DecidableEq

/-- What becomes of a call: it returns, with the file references that it has not released and the
waits that did not take place; or it still waits; or an assertion fails. -/
inductive Outcome where
  | returned (value : Except Errno ℕ) (slots : List Slot) (refs : List ℕ) (waits : List Bool)
  | waiting
  | assertion

/-- What a pass over the entries leaves: the slots, and how often `ready_count` is incremented. -/
structure Pass where
  slots : List Slot
  ready : ℕ

/-- One more slot. -/
def Pass.cons (slot : Slot) (p : Pass) : Pass where
  slots := slot :: p.slots
  ready := if slot.revents ≠ 0 then p.ready + 1 else p.ready

/-- An entry in the first pass. -/
def firstSlot (env : Env) (i : ℕ) (e : Entry) : Slot :=
  if e.fd < 0 then ⟨none, 0⟩
  else (env.file i e.fd).elim ⟨none, pollNval⟩ fun f => ⟨some f, 0 ||| env.poll 0 i f e.events⟩

/-- The first pass, from the entry with index `i` on. -/
def firstPass (env : Env) : ℕ → List Entry → Pass
  | _, [] => ⟨[], 0⟩
  | i, e :: entries => (firstPass env (i + 1) entries).cons (firstSlot env i e)

/-- An entry in the pass after the `n`th wait. -/
def nextSlot (env : Env) (n i : ℕ) (e : Entry) (slot : Slot) : Slot :=
  slot.file.elim slot fun f => { slot with revents := slot.revents ||| env.poll n i f e.events }

/-- The pass after the `n`th wait; an entry without a file is skipped. -/
def nextPass (env : Env) (n : ℕ) : ℕ → List Entry → List Slot → Pass
  | i, e :: entries, slot :: slots =>
    if slot.file = none then
      { nextPass env n (i + 1) entries slots with
        slots := slot :: (nextPass env n (i + 1) entries slots).slots }
    else (nextPass env n (i + 1) entries slots).cons (nextSlot env n i e slot)
  | _, _, _ => ⟨[], 0⟩

/-- The files of the slots. -/
def filesOf (slots : List Slot) : List ℕ := slots.filterMap Slot.file

/-- From the label `Cleanup` on. -/
def cleanup (slots : List Slot) (refs : List ℕ) (ready : ℕ) (waits : List Bool) : Outcome :=
  .returned (.ok ready) slots (refs.diff (filesOf slots)) waits

/-- The loop, after `n` waits.  `sched_wait_many` asserts that there is something to wait for. -/
def waitLoop (env : Env) (entries : List Entry) (refs : List ℕ) :
    ℕ → List Slot → List Bool → Outcome
  | _, slots, [] => if (filesOf slots).length < 1 then .assertion else .waiting
  | n, slots, _ :: waits =>
    if (filesOf slots).length < 1 then .assertion
    else
      let p := nextPass env (n + 1) 0 entries slots
      if p.ready = 0 then waitLoop env entries refs (n + 1) p.slots waits
      else cleanup p.slots refs p.ready waits

/-- `timeout_ns` -/
def timeoutNs (timeout : Option Timespec) : ℕ :=
  timeout.elim timeoutInfinite fun t => (t.sec * 1000000000 + t.nsec) % 2 ^ 64

/-- `sys_poll`. -/
def sysPoll (env : Env) (entries : List Entry) (timeout : Option Timespec) : Outcome :=
  if entries.length = 0 then
    if timeout.isNone then .returned (.error .einval) [] [] env.waits
    else .returned (.ok 0) [] [] env.waits
  else if env.hasFiles = false then .returned (.error .enomem) [] [] env.waits
  else if env.hasEvents = false then .returned (.error .enomem) [] [] env.waits
  else
    let p := firstPass env 0 entries
    -- every file in a slot has been referenced
    let refs := filesOf p.slots
    if timeoutNs timeout = 0 ∨ p.ready ≠ 0 then cleanup p.slots refs p.ready env.waits
    else if env.hasBlocks = false then .returned (.error .enomem) p.slots refs env.waits
    else waitLoop env entries refs 0 p.slots env.waits

/-! ## Its contract -/

/-- How many entries are reported. -/
def reported (slots : List Slot) : ℕ := slots.countP (fun slot => slot.revents ≠ 0)

/-- **The contract of a call**: no assertion fails; a finite timeout ends it at the first wait that
returns `YAK_TIMEOUT`; and when it returns, it has no references, and its value is the number of
entries that it reports. -/
def Honours (env : Env) (entries : List Entry) (timeout : Option Timespec) : Prop :=
  (∃ value slots waits consumed,
    sysPoll env entries timeout = .returned value slots [] waits ∧
      env.waits = consumed ++ waits ∧
      (timeout ≠ none → true ∉ consumed.dropLast) ∧
      (∀ n, value = .ok n → n = reported slots) ∧
      (∀ e, value = .error e → entries = [] ∧ timeout = none ∨
        ¬ (env.hasFiles ∧ env.hasEvents ∧ env.hasBlocks))) ∨
  sysPoll env entries timeout = .waiting ∧ (timeout ≠ none → true ∉ env.waits)

/-- Some entry, which the call treats in this way. -/
def Has (treats : ℕ → Entry → Prop) : ℕ → List Entry → Prop
  | _, [] => False
  | i, e :: entries => treats i e ∨ Has treats (i + 1) entries

/-- The entry has an event in the first pass, or after the `n`th wait. -/
def ready (env : Env) (n i : ℕ) (e : Entry) : Prop :=
  0 ≤ e.fd ∧ (env.file i e.fd).any (fun f => env.poll n i f e.events ≠ 0) = true

/-- The entry has an invalid descriptor. -/
def invalid (env : Env) (i : ℕ) (e : Entry) : Prop := 0 ≤ e.fd ∧ env.file i e.fd = none

/-- The entry has a file. -/
def valid (env : Env) (i : ℕ) (e : Entry) : Prop := 0 ≤ e.fd ∧ env.file i e.fd ≠ none

/-- An entry is ready when a wait times out, or has been before. -/
def InTime (env : Env) (entries : List Entry) (waits : List Bool) : Prop :=
  ∀ k, waits[k]? = some true → ∃ j, j ≤ k ∧ Has (ready env (j + 1)) 0 entries

/-- **When the call honours it**: it need not wait; or it has memory and a file to wait for, and
an entry is ready when a wait times out; or it has no memory and no file. -/
def Served (env : Env) (entries : List Entry) (timeout : Option Timespec) : Prop :=
  entries = [] ∨ ¬ (env.hasFiles ∧ env.hasEvents) ∨ timeoutNs timeout = 0 ∨
    Has (ready env 0) 0 entries ∨ Has (invalid env) 0 entries ∨
    if env.hasBlocks then
      Has (valid env) 0 entries ∧ (timeout ≠ none → InTime env entries env.waits)
    else ¬ Has (valid env) 0 entries

variable {env : Env} {entries : List Entry} {slots : List Slot} {timeout : Option Timespec}
  {waits : List Bool} {refs : List ℕ} {n i : ℕ}

/-! ## The passes -/

/-- The slot of an entry without an event. -/
def blank (env : Env) (i : ℕ) (e : Entry) : Slot :=
  ⟨if e.fd < 0 then none else env.file i e.fd, 0⟩

def blanks (env : Env) : ℕ → List Entry → List Slot
  | _, [] => []
  | i, e :: entries => blank env i e :: blanks env (i + 1) entries

theorem Pass.cons_ready {p : Pass} (slot : Slot) (h : p.ready = reported p.slots) :
    (p.cons slot).ready = reported (p.cons slot).slots := by
  by_cases hzero : slot.revents = 0
  · simp [Pass.cons, reported, hzero, h]
  · have hset : ¬ slot.revents = 0#16 := hzero
    simp [Pass.cons, reported, hset, h]

theorem Pass.cons_ready_eq_zero {p : Pass} (slot : Slot) :
    (p.cons slot).ready = 0 ↔ slot.revents = 0 ∧ p.ready = 0 := by
  unfold Pass.cons
  by_cases hzero : slot.revents = 0
  · simp [hzero]
  · have hset : ¬ slot.revents = 0#16 := hzero
    simp [hset]

theorem filesOf_cons (slot : Slot) (slots : List Slot) :
    filesOf (slot :: slots) = slot.file.toList ++ filesOf slots := by
  unfold filesOf
  rw [List.filterMap_cons]
  cases slot.file <;> rfl

theorem filesOf_blanks (env : Env) (i : ℕ) (entries : List Entry) :
    filesOf (blanks env i entries) ≠ [] ↔ Has (valid env) i entries := by
  induction entries generalizing i with
  | nil => simp [blanks, filesOf, Has]
  | cons e entries ih =>
    rw [blanks, filesOf_cons, Has, ← ih, valid, blank]
    rcases lt_or_ge e.fd 0 with hneg | hpos
    · simp [hneg]
    · rw [if_neg (by omega)]
      cases env.file i e.fd with
      | none => simp
      | some f => simp [hpos]

theorem firstSlot_cases (env : Env) (i : ℕ) (e : Entry) :
    (firstSlot env i e).file = (blank env i e).file ∧
      ((firstSlot env i e).revents = 0 ↔ ¬ ready env 0 i e ∧ ¬ invalid env i e) := by
  unfold firstSlot blank ready invalid
  rcases lt_or_ge e.fd 0 with hneg | hpos
  · rw [if_pos hneg, if_pos hneg]
    exact ⟨rfl, iff_of_true rfl ⟨fun h => by omega, fun h => by omega⟩⟩
  · rw [if_neg (by omega), if_neg (by omega)]
    cases env.file i e.fd with
    | none => simp [hpos, pollNval]
    | some f => simp [hpos]

/-- **The first pass**: what it counts, what it references, and when it finds nothing. -/
theorem firstPass_spec (env : Env) (i : ℕ) (entries : List Entry) :
    (firstPass env i entries).ready = reported (firstPass env i entries).slots ∧
      filesOf (firstPass env i entries).slots = filesOf (blanks env i entries) ∧
      ((firstPass env i entries).ready = 0 ↔
        ¬ Has (ready env 0) i entries ∧ ¬ Has (invalid env) i entries) ∧
      ((firstPass env i entries).ready = 0 →
        (firstPass env i entries).slots = blanks env i entries) := by
  induction entries generalizing i with
  | nil => simp [firstPass, reported, blanks, Has]
  | cons e entries ih =>
    obtain ⟨hready, hfiles, hnone, hblank⟩ := ih (i + 1)
    obtain ⟨hfile, hrevents⟩ := firstSlot_cases env i e
    rw [firstPass]
    refine ⟨Pass.cons_ready _ hready, ?_, ?_, fun hzero => ?_⟩
    · rw [Pass.cons, filesOf_cons, blanks, filesOf_cons, hfile, hfiles]
    · rw [Pass.cons_ready_eq_zero, hrevents, hnone, Has, Has]
      tauto
    · rw [Pass.cons_ready_eq_zero] at hzero
      have hslot : firstSlot env i e = blank env i e := Slot.ext hfile hzero.1
      rw [Pass.cons, blanks, hblank hzero.2, hslot]

/-- **A pass after a wait**, when nothing has been found so far. -/
theorem nextPass_spec (env : Env) (n i : ℕ) (entries : List Entry) :
    let p := nextPass env n i entries (blanks env i entries)
    p.ready = reported p.slots ∧ filesOf p.slots = filesOf (blanks env i entries) ∧
      (p.ready = 0 ↔ ¬ Has (ready env n) i entries) ∧
      (p.ready = 0 → p.slots = blanks env i entries) := by
  induction entries generalizing i with
  | nil => simp [nextPass, reported, blanks, Has]
  | cons e entries ih =>
    obtain ⟨hready, hfiles, hnone, hblank⟩ := ih (i + 1)
    rw [blanks, nextPass]
    by_cases hskip : (blank env i e).file = none
    · -- the entry has no file
      have hnot : ¬ ready env n i e := by
        rintro ⟨hpos, hany⟩
        rw [blank, if_neg (by omega)] at hskip
        have hnone : env.file i e.fd = none := hskip
        rw [hnone] at hany
        cases hany
      have hzero : (blank env i e).revents = 0 := rfl
      rw [if_pos hskip]
      refine ⟨?_, ?_, ?_, fun hend => ?_⟩
      · simp only [reported, List.countP_cons, hzero]
        simpa [reported] using hready
      · rw [filesOf_cons, filesOf_cons, hfiles]
      · rw [Has, hnone]
        tauto
      · rw [hblank hend]
    · obtain ⟨f, hfile⟩ := Option.ne_none_iff_exists'.mp hskip
      have hvalid : ¬ e.fd < 0 ∧ env.file i e.fd = some f := by
        by_cases hneg : e.fd < 0
        · rw [blank, if_pos hneg] at hfile
          cases hfile
        · rw [blank, if_neg hneg] at hfile
          exact ⟨hneg, hfile⟩
      have hnext : nextSlot env n i e (blank env i e) = ⟨some f, env.poll n i f e.events⟩ := by
        rw [nextSlot, hfile, Option.elim_some]
        exact Slot.ext rfl BitVec.zero_or
      have hrevents : (nextSlot env n i e (blank env i e)).revents = 0 ↔ ¬ ready env n i e := by
        rw [hnext, ready, hvalid.2, Option.any_some, decide_eq_true_iff]
        have hpos : 0 ≤ e.fd := by omega
        tauto
      rw [if_neg hskip]
      refine ⟨Pass.cons_ready _ hready, ?_, ?_, fun hend => ?_⟩
      · rw [Pass.cons, filesOf_cons, filesOf_cons, hfiles, hnext, hfile]
      · rw [Pass.cons_ready_eq_zero, hrevents, hnone, Has]
        tauto
      · rw [Pass.cons_ready_eq_zero] at hend
        have hslot : nextSlot env n i e (blank env i e) = blank env i e := by
          refine Slot.ext ?_ hend.1
          rw [hnext, hfile]
        rw [Pass.cons, hblank hend.2, hslot]

/-! ## The loop -/

/-- **What the loop does**, by induction on the waits: it ends after the first one that finds an
entry ready. -/
theorem waitLoop_spec (hfiles : filesOf (blanks env 0 entries) ≠ []) (refs : List ℕ)
    (waits : List Bool) (n : ℕ) :
    (∃ consumed rest slots, waits = consumed ++ rest ∧ consumed ≠ [] ∧
      waitLoop env entries refs n (blanks env 0 entries) waits =
        cleanup slots refs (reported slots) rest ∧
      filesOf slots = filesOf (blanks env 0 entries) ∧
      Has (ready env (n + consumed.length)) 0 entries ∧
      ∀ j, j < consumed.length - 1 → ¬ Has (ready env (n + j + 1)) 0 entries) ∨
    waitLoop env entries refs n (blanks env 0 entries) waits = .waiting ∧
      ∀ j, j < waits.length → ¬ Has (ready env (n + j + 1)) 0 entries := by
  have hcount : ¬ (filesOf (blanks env 0 entries)).length < 1 := by
    have := List.length_pos_iff.mpr hfiles
    omega
  induction waits generalizing n with
  | nil =>
    right
    refine ⟨?_, fun j hj => absurd hj (Nat.not_lt_zero j)⟩
    rw [waitLoop, if_neg hcount]
  | cons w waits ih =>
    obtain ⟨hready, hsame, hnone, hblank⟩ := nextPass_spec env (n + 1) 0 entries
    rw [waitLoop, if_neg hcount]
    simp only
    by_cases hzero : (nextPass env (n + 1) 0 entries (blanks env 0 entries)).ready = 0
    · have hnot := hnone.mp hzero
      rw [if_pos hzero, hblank hzero]
      -- nothing is ready after this wait
      have hlater : ∀ m, (∀ j, j < m → ¬ Has (ready env (n + 1 + j + 1)) 0 entries) →
          ∀ j, j < m + 1 → ¬ Has (ready env (n + j + 1)) 0 entries := by
        intro m hm j hj
        cases j with
        | zero => exact hnot
        | succ j =>
          rw [show n + (j + 1) + 1 = n + 1 + j + 1 by omega]
          exact hm j (by omega)
      rcases ih (n + 1) with ⟨consumed, rest, slots, hwaits, hne, hrun, hslots, hhas, hbefore⟩ |
        ⟨hrun, hbefore⟩
      · left
        refine ⟨w :: consumed, rest, slots, by rw [hwaits]; rfl, List.cons_ne_nil _ _, hrun,
          hslots, ?_, ?_⟩
        · rw [List.length_cons, show n + (consumed.length + 1) = n + 1 + consumed.length by omega]
          exact hhas
        · have hpos := List.length_pos_iff.mpr hne
          have hall := hlater (consumed.length - 1) hbefore
          rw [List.length_cons]
          intro j hj
          exact hall j (by omega)
      · right
        exact ⟨hrun, hlater _ hbefore⟩
    · left
      have hhas : Has (ready env (n + 1)) 0 entries := by
        by_contra hnot
        exact hzero (hnone.mpr hnot)
      rw [if_neg hzero, hready]
      exact ⟨[w], waits, _, rfl, List.cons_ne_nil _ _, rfl, hsame, hhas,
        fun j hj => absurd hj (Nat.not_lt_zero j)⟩

/-! ## Every call -/

theorem diff_self (l : List ℕ) : l.diff l = [] := by
  induction l with
  | nil => rfl
  | cons a l ih => rw [List.diff_cons, List.erase_cons_head, ih]

theorem cleanup_eq (hrefs : refs = filesOf slots) (n : ℕ) :
    cleanup slots refs n waits = .returned (.ok n) slots [] waits := by
  rw [cleanup, hrefs, diff_self]

theorem honours_of_ok {consumed : List Bool} {count : ℕ}
    (hrun : sysPoll env entries timeout = .returned (.ok count) slots [] waits)
    (hcount : count = reported slots) (hwaits : env.waits = consumed ++ waits) :
    Honours env entries timeout ↔ (timeout ≠ none → true ∉ consumed.dropLast) := by
  constructor
  · rintro (⟨value, slots', waits', consumed', hrun', hwaits', htime, -⟩ | ⟨hrun', -⟩)
    · rw [hrun] at hrun'
      cases hrun'
      obtain rfl : consumed = consumed' := List.append_cancel_right (hwaits.symm.trans hwaits')
      exact htime
    · rw [hrun] at hrun'
      cases hrun'
  · intro htime
    refine .inl ⟨_, _, _, _, hrun, hwaits, htime, fun n hn => ?_, fun e he => ?_⟩
    · cases hn
      exact hcount
    · cases he

theorem honours_of_error {e : Errno}
    (hrun : sysPoll env entries timeout = .returned (.error e) slots refs env.waits)
    (hcause : entries = [] ∧ timeout = none ∨ ¬ (env.hasFiles ∧ env.hasEvents ∧ env.hasBlocks)) :
    Honours env entries timeout ↔ refs = [] := by
  constructor
  · rintro (⟨value, slots', waits', consumed', hrun', -⟩ | ⟨hrun', -⟩)
    · rw [hrun] at hrun'
      cases hrun'
      rfl
    · rw [hrun] at hrun'
      cases hrun'
  · rintro rfl
    refine .inl ⟨_, _, _, [], hrun, rfl, fun _ => List.not_mem_nil, fun n hn => ?_,
      fun _ _ => hcause⟩
    cases hn

/-- **When the loop ends in time.** -/
theorem waitLoop_honours (hfiles : filesOf (blanks env 0 entries) ≠ [])
    (hrun : sysPoll env entries timeout =
      waitLoop env entries (filesOf (blanks env 0 entries)) 0 (blanks env 0 entries) env.waits) :
    Honours env entries timeout ↔ (timeout ≠ none → InTime env entries env.waits) := by
  rcases waitLoop_spec hfiles (filesOf (blanks env 0 entries)) env.waits 0 with
    ⟨consumed, rest, slots, hwaits, hne, hloop, hslots, hhas, hbefore⟩ | ⟨hloop, hbefore⟩
  · rw [hloop, cleanup_eq hslots.symm] at hrun
    rw [honours_of_ok hrun rfl hwaits]
    have hpos := List.length_pos_iff.mpr hne
    rw [Nat.zero_add] at hhas
    refine forall_congr' fun _ => ⟨fun hnone k hk => ?_, fun htime hmem => ?_⟩
    · -- the last wait of the loop makes an entry ready
      rcases Nat.lt_or_ge k (consumed.length - 1) with hlt | hge
      · refine absurd ?_ hnone
        rw [hwaits, List.getElem?_append_left (by omega)] at hk
        refine List.mem_of_getElem? (i := k) ?_
        rw [List.getElem?_dropLast, if_pos hlt]
        exact hk
      · refine ⟨consumed.length - 1, hge, ?_⟩
        rw [Nat.sub_add_cancel hpos]
        exact hhas
    · obtain ⟨k, hk⟩ := List.mem_iff_getElem?.mp hmem
      rw [List.getElem?_dropLast] at hk
      split at hk
      · next hlt =>
        obtain ⟨j, hj, hready⟩ := htime k (by
          rw [hwaits, List.getElem?_append_left (by omega)]
          exact hk)
        have hnot := hbefore j (by omega)
        rw [Nat.zero_add] at hnot
        exact hnot hready
      · cases hk
  · rw [hloop] at hrun
    have hwaiting : Honours env entries timeout ↔ (timeout ≠ none → true ∉ env.waits) := by
      constructor
      · rintro (⟨value, slots', waits', consumed', hrun', -⟩ | ⟨-, htime⟩)
        · rw [hrun] at hrun'
          cases hrun'
        · exact htime
      · exact fun htime => .inr ⟨hrun, htime⟩
    rw [hwaiting]
    refine forall_congr' fun _ => ⟨fun hnone k hk => ?_, fun htime hmem => ?_⟩
    · exact absurd (List.mem_of_getElem? hk) hnone
    · obtain ⟨k, hk⟩ := List.mem_iff_getElem?.mp hmem
      obtain ⟨j, hj, hready⟩ := htime k hk
      obtain ⟨hlt, -⟩ := List.getElem?_eq_some_iff.mp hk
      have hnot := hbefore j (by omega)
      rw [Nat.zero_add] at hnot
      exact hnot hready

/-- **poll honours its contract** exactly when it need not wait, or has something to wait for and
finds it before a wait times out. -/
theorem honours_iff (env : Env) (entries : List Entry) (timeout : Option Timespec) :
    Honours env entries timeout ↔ Served env entries timeout := by
  unfold Served
  have hnowaits : env.waits = [] ++ env.waits := rfl
  by_cases hempty : entries = []
  · subst hempty
    refine iff_of_true ?_ (.inl rfl)
    cases timeout with
    | none =>
      have hrun : sysPoll env [] none = .returned (.error .einval) [] [] env.waits := rfl
      exact (honours_of_error hrun (.inl ⟨rfl, rfl⟩)).mpr rfl
    | some t =>
      have hrun : sysPoll env [] (some t) = .returned (.ok 0) [] [] env.waits := rfl
      exact (honours_of_ok hrun rfl hnowaits).mpr (fun _ => List.not_mem_nil)
  have hlength : ¬ entries.length = 0 := fun hzero => hempty (List.length_eq_zero_iff.mp hzero)
  by_cases hfiles : env.hasFiles = true
  swap
  · rw [Bool.not_eq_true] at hfiles
    have hrun : sysPoll env entries timeout = .returned (.error .enomem) [] [] env.waits := by
      rw [sysPoll, if_neg hlength, if_pos hfiles]
    have hcause : ¬ (env.hasFiles ∧ env.hasEvents ∧ env.hasBlocks) := by simp [hfiles]
    exact iff_of_true ((honours_of_error hrun (.inr hcause)).mpr rfl)
      (.inr (.inl (by simp [hfiles])))
  by_cases hevents : env.hasEvents = true
  swap
  · rw [Bool.not_eq_true] at hevents
    have hrun : sysPoll env entries timeout = .returned (.error .enomem) [] [] env.waits := by
      rw [sysPoll, if_neg hlength, if_neg (by simp [hfiles]), if_pos hevents]
    have hcause : ¬ (env.hasFiles ∧ env.hasEvents ∧ env.hasBlocks) := by simp [hevents]
    exact iff_of_true ((honours_of_error hrun (.inr hcause)).mpr rfl)
      (.inr (.inl (by simp [hevents])))
  obtain ⟨hcount, hsame, hnone, hblank⟩ := firstPass_spec env 0 entries
  have hstart : sysPoll env entries timeout =
      if timeoutNs timeout = 0 ∨ (firstPass env 0 entries).ready ≠ 0 then
        cleanup (firstPass env 0 entries).slots (filesOf (firstPass env 0 entries).slots)
          (firstPass env 0 entries).ready env.waits
      else if env.hasBlocks = false then .returned (.error .enomem) (firstPass env 0 entries).slots
        (filesOf (firstPass env 0 entries).slots) env.waits
      else waitLoop env entries (filesOf (firstPass env 0 entries).slots) 0
        (firstPass env 0 entries).slots env.waits := by
    rw [sysPoll, if_neg hlength, if_neg (by simp [hfiles]), if_neg (by simp [hevents])]
  by_cases hnow : timeoutNs timeout = 0 ∨ (firstPass env 0 entries).ready ≠ 0
  · -- there is no need to wait
    rw [if_pos hnow, cleanup_eq rfl] at hstart
    refine iff_of_true
      ((honours_of_ok hstart hcount hnowaits).mpr (fun _ => List.not_mem_nil)) ?_
    rcases hnow with htime | hready
    · exact .inr (.inr (.inl htime))
    · rw [Ne, hnone] at hready
      tauto
  · rw [not_or, not_not] at hnow
    obtain ⟨htime, hzero⟩ := hnow
    have hnothing := hnone.mp hzero
    rw [if_neg (by simp [htime, hzero]), hblank hzero] at hstart
    have hmemory : ¬ ¬ (env.hasFiles = true ∧ env.hasEvents = true) := by simp [hfiles, hevents]
    have hreduce : (entries = [] ∨ ¬ (env.hasFiles = true ∧ env.hasEvents = true) ∨
        timeoutNs timeout = 0 ∨ Has (ready env 0) 0 entries ∨ Has (invalid env) 0 entries ∨
        if env.hasBlocks = true then
          Has (valid env) 0 entries ∧ (timeout ≠ none → InTime env entries env.waits)
        else ¬ Has (valid env) 0 entries) ↔
        if env.hasBlocks = true then
          Has (valid env) 0 entries ∧ (timeout ≠ none → InTime env entries env.waits)
        else ¬ Has (valid env) 0 entries := by
      tauto
    rw [hreduce]
    by_cases hblocks : env.hasBlocks = true
    · rw [if_neg (by simp [hblocks])] at hstart
      rw [if_pos hblocks]
      by_cases hvalid : filesOf (blanks env 0 entries) = []
      · -- there is nothing to wait for
        have hassert : sysPoll env entries timeout = .assertion := by
          rw [hstart]
          cases env.waits with
          | nil => rw [waitLoop, if_pos (by simp [hvalid])]
          | cons w waits => rw [waitLoop, if_pos (by simp [hvalid])]
        refine iff_of_false ?_ (fun h => (filesOf_blanks env 0 entries).mpr h.1 hvalid)
        rintro (⟨value, slots', waits', consumed', hrun', -⟩ | ⟨hrun', -⟩)
        · rw [hassert] at hrun'
          cases hrun'
        · rw [hassert] at hrun'
          cases hrun'
      · rw [waitLoop_honours hvalid hstart]
        have hhas := (filesOf_blanks env 0 entries).mp hvalid
        exact ⟨fun h => ⟨hhas, h⟩, fun h => h.2⟩
    · rw [if_neg hblocks]
      rw [Bool.not_eq_true] at hblocks
      rw [if_pos hblocks] at hstart
      have hcause : ¬ (env.hasFiles ∧ env.hasEvents ∧ env.hasBlocks) := by simp [hblocks]
      rw [honours_of_error hstart (.inr hcause), ← filesOf_blanks, not_not]

/-- One file, which is never ready, and a wait that times out. -/
def neverReady : Env where
  file _ fd := if fd = 0 then some 1 else none
  poll _ _ _ _ := 0
  hasFiles := true
  hasEvents := true
  hasBlocks := true
  waits := [true]

/-- **Counterexample.**  With negative descriptors alone an assertion fails, and with a valid one
the call goes on after the timeout. -/
theorem poll_not_honoured :
    (sysPoll neverReady [⟨-1, 1⟩] (some ⟨1, 0⟩) = .assertion ∧
      ¬ Honours neverReady [⟨-1, 1⟩] (some ⟨1, 0⟩)) ∧
    (sysPoll neverReady [⟨0, 1⟩] (some ⟨1, 0⟩) = .waiting ∧
      ¬ Honours neverReady [⟨0, 1⟩] (some ⟨1, 0⟩)) := by
  have hassert : sysPoll neverReady [⟨-1, 1⟩] (some ⟨1, 0⟩) = .assertion := rfl
  have hwaits : sysPoll neverReady [⟨0, 1⟩] (some ⟨1, 0⟩) = .waiting := rfl
  refine ⟨⟨hassert, ?_⟩, ⟨hwaits, ?_⟩⟩
  · rintro (⟨value, slots, waits, consumed, hrun, -⟩ | ⟨hrun, -⟩)
    · rw [hassert] at hrun
      cases hrun
    · rw [hassert] at hrun
      cases hrun
  · rintro (⟨value, slots, waits, consumed, hrun, -⟩ | ⟨-, htime⟩)
    · rw [hwaits] at hrun
      cases hrun
    · exact htime (Option.some_ne_none _) List.mem_cons_self

end SysPoll
