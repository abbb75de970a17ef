/-
# References to files, over every run

Processes open, copy and close descriptors, are forked, executed and destroyed, while system
calls hold references of their own.  In every run the count of a file is the number of its
holders, provided that two errors for want of memory do not occur: `dup2` closes the descriptor
it is to replace before it has memory for the new one, and `poll` returns without dropping its
references.
-/
import YakKernel.FileRefs
import YakKernel.TransitionSystem

namespace FileTable

open Prog

variable {P T : Type}

/-! ## The system -/

/-- A system call in progress: the files it has referenced, whether `poll` has found one that is
ready, and, in the loop that drops the references, the next index. -/
structure InProgress where
  poll : Bool
  files : List (Option ℕ)
  ready : Bool
  cleanup : Option ℕ

/-- The processes and files, and what the threads are doing. -/
structure State (P T : Type) where
  kernel : Kernel P
  calls : T → Option InProgress

/-- The file in entry `j` of the array of thread `t`. -/
def State.held (s : State P T) (t : T) (j : ℕ) : Option ℕ :=
  (s.calls t).bind (fun c => c.files[j]?.join)

/-- The operations on descriptors.  `duplicate` is `dup`, `dup2` and `F_DUPFD`; `getfile` starts
a call that holds one file, and `cleanup` is where the call is done with its files. -/
inductive Op (P T : Type) where
  | openat (p : P) (cloexec : Bool)
  | close (p : P) (fd : ℤ)
  | duplicate (p : P) (oldfd newfd : ℤ) (flags : DupeFlags)
  | setFd (p : P) (fd : ℤ) (arg : ℕ)
  | fork (old new : P)
  | execve (p : P)
  | destroy (p : P)
  | getfile (t : T) (p : P) (fd : ℤ)
  | pollBegin (t : T)
  | pollEntry (t : T) (p : P) (fd : ℤ) (revents : Bool)
  | pollNomem (t : T)
  | cleanup (t : T)
  | cleanupEntry (t : T)

/-- An operation, and what the allocator answers meanwhile. -/
structure Event (P T : Type) where
  op : Op P T
  allocs : List Bool

/-- The kernel at the start of an event. -/
def State.begin (s : State P T) (e : Event P T) : Kernel P := { s.kernel with allocs := e.allocs }

/-- The vnodes are not asked. -/
def noAnswer : Env := fun _ => .ok 0

/-- What an operation returns, and the kernel afterwards; `none` when it crashes. -/
def Kernel.result {α : Type} (k : Kernel P) (x : FdM P α) : Option (α × Kernel P) :=
  (x noAnswer k).toOption

/-- An operation that is done with its files when it returns. -/
def State.perform {α : Type} (s : State P T) (e : Event P T) (x : FdM P α) :
    Option (State P T) :=
  ((s.begin e).result x).map (fun r => { s with kernel := r.2 })

section

variable [DecidableEq T]

/-- The call of `t` becomes `c`. -/
@[simps -fullyApplied]
def State.setCall (s : State P T) (t : T) (c : Option InProgress) : State P T :=
  { s with calls := Function.update s.calls t c }

/-- A system call that holds one file, after `getfile_ref`. -/
def State.getfile (s : State P T) (t : T) (k : Kernel P) (file : Option ℕ) : State P T :=
  match file with
  | none => { s with kernel := k }
  | some f => ({ s with kernel := k } : State P T).setCall t
      (some { poll := false, files := [some f], ready := false, cleanup := none })

/-- An entry of `sys_poll`'s array. -/
def State.polled (s : State P T) (t : T) (c : InProgress) (k : Kernel P) (file : Option ℕ)
    (ready : Bool) : State P T :=
  ({ s with kernel := k } : State P T).setCall t
    (some { c with files := c.files ++ [file], ready := c.ready || ready })

/-- A round of the first loop of `sys_poll`: negative descriptors are skipped, and one that is
not open is ready. -/
def State.pollEntry (s : State P T) (e : Event P T) (t : T) (c : InProgress) (p : P) (fd : ℤ)
    (revents : Bool) : Option (State P T) :=
  if fd < 0 then some (s.polled t c s.kernel none false)
  else ((s.begin e).result (getfileRef p fd)).map
    (fun r => s.polled t c r.2 r.1 (r.1.isNone || revents))

/-- A round of the loop that drops the references, or its end. -/
def State.cleanupEntry (s : State P T) (t : T) (c : InProgress) (i : ℕ) : State P T :=
  if i < c.files.length then
    ({ s with kernel := s.kernel.drop c.files[i]?.join } : State P T).setCall t
      (some { c with files := c.files.set i none, cleanup := some (i + 1) })
  else s.setCall t none

/-- The call of `t` that is still busy with its files. -/
def State.busy (s : State P T) (t : T) : Option InProgress :=
  (s.calls t).filter (fun c => c.cleanup.isNone)

/-- The call of `t` that is dropping its references, and how far it is. -/
def State.dropping (s : State P T) (t : T) : Option (InProgress × ℕ) :=
  (s.calls t).bind (fun c => c.cleanup.map (fun i => (c, i)))

variable [DecidableEq P]

/-- The step of an event. -/
def step (s : State P T) (e : Event P T) : Option (State P T) :=
  match e.op with
  | .openat p cloexec => s.perform e (sysOpenat p cloexec)
  | .close p fd => s.perform e (sysClose p fd)
  | .duplicate p oldfd newfd flags => s.perform e (fdDuplicate p oldfd newfd flags)
  | .setFd p fd arg => s.perform e (setFd p fd arg)
  | .fork old new =>
    if old ≠ new ∧ (s.kernel.procs new).fds = none then s.perform e (fdClone old new) else none
  | .execve p => s.perform e (closeOnExec p)
  | .destroy p => s.perform e (closeAll p)
  | .getfile t p fd =>
    if (s.calls t).isNone then
      ((s.begin e).result (getfileRef p fd)).map (fun r => s.getfile t r.2 r.1)
    else none
  | .pollBegin t =>
    if (s.calls t).isNone then
      some (s.setCall t (some { poll := true, files := [], ready := false, cleanup := none }))
    else none
  | .pollEntry t p fd revents =>
    ((s.busy t).filter InProgress.poll).bind (fun c => s.pollEntry e t c p fd revents)
  | .pollNomem t =>
    -- `wait_blocks` is NULL: the call returns
    if (s.busy t).any (fun c => c.poll && !c.ready) ∧ (s.begin e).hasMemory = false then
      some (s.setCall t none)
    else none
  | .cleanup t => (s.busy t).map (fun c => s.setCall t (some { c with cleanup := some 0 }))
  | .cleanupEntry t => (s.dropping t).map (fun c => s.cleanupEntry t c.1 c.2)

/-- No process has descriptors, and there are no files. -/
def State.initial : State P T where
  kernel := { procs := fun _ => Process.init, files := fun _ => ⟨0, 0⟩, nextFile := 0, allocs := [] }
  calls := fun _ => none

variable (P T) in
/-- Processes and files, from the start. -/
def system : TransitionSystem (State P T) (Event P T) where
  init := fun s => s = State.initial
  step := step

end

/-! ## The condition -/

/-- **The condition on a step.**  `dup2` has memory for the descriptor that is to replace an open
one, and `poll` fails to allocate its wait blocks only if it holds no file. -/
def Careful (s : State P T) (e : Event P T) : Prop :=
  match e.op with
  | .duplicate p oldfd newfd flags => ¬ ((s.kernel.procs p).Opened oldfd ∧ oldfd ≠ newfd ∧
      (s.begin e).Loses p newfd flags)
  | .pollNomem t => ∀ c ∈ s.calls t, ∀ file ∈ c.files, file = none
  | _ => True

/-- What holds in every state: the counts are exact, and a call that is dropping its references
has dropped those before its index. -/
structure State.Inv (s : State P T) : Prop where
  exact_held : Exact s.kernel s.held
  dropped : ∀ t c i, s.calls t = some c → c.cleanup = some i → ∀ j, j < i → s.held t j = none

/-! ## Steps of calls -/

section

variable {s s' : State P T} {t : T} {e : Event P T}

theorem State.begin_exact (h : Exact s.kernel s.held) : Exact (s.begin e) s.held :=
  h.congr rfl rfl (fun _ => rfl)

theorem Kernel.result_spec {α : Type} {k k' : Kernel P} {x : FdM P α} {a : α}
    {Q : α → Kernel P → Prop} {R : Failure → Prop} (h : x.Ends noAnswer k Q R)
    (hx : k.result x = some (a, k')) : Q a k' := by
  rw [Kernel.result] at hx
  refine h.of_ok ?_
  cases hrun : x noAnswer k with
  | error e =>
    rw [hrun] at hx
    cases hx
  | ok r =>
    rw [hrun] at hx
    exact congrArg Except.ok (Option.some.inj hx)

theorem State.Inv.perform {α : Type} {x : FdM P α} (h : s.Inv)
    (hx : x.Ends noAnswer (s.begin e) (fun _ k' => Exact k' s.held) (fun _ => True))
    (hs : s.perform e x = some s') : s'.Inv := by
  rw [State.perform, Option.map_eq_some_iff] at hs
  obtain ⟨r, hr, rfl⟩ := hs
  exact ⟨Kernel.result_spec hx hr, h.dropped⟩

section

variable [DecidableEq T]

theorem State.held_setCall (c : Option InProgress) (t' : T) (j : ℕ) :
    (s.setCall t c).held t' j =
      if t' = t then c.bind (fun c => c.files[j]?.join) else s.held t' j := by
  rw [State.held, State.setCall_calls]
  by_cases ht : t' = t
  · subst ht
    rw [Function.update_self, if_pos rfl]
  · rw [Function.update_of_ne ht, if_neg ht]
    rfl

/-- A call changes: the counts are exact again, and it has dropped what it should have. -/
theorem State.Inv.setCall (h : s.Inv) {k : Kernel P} {c : Option InProgress}
    (hexact : Exact k ((s.setCall t c).held))
    (hdropped : ∀ c' i, c = some c' → c'.cleanup = some i → ∀ j, j < i → c'.files[j]?.join = none) :
    (({ s with kernel := k } : State P T).setCall t c).Inv where
  exact_held := hexact
  dropped := by
    intro t' c' i hc' hi j hj
    rw [State.held_setCall]
    rw [State.setCall_calls] at hc'
    by_cases ht : t' = t
    · subst ht
      rw [Function.update_self] at hc'
      rw [if_pos rfl, hc']
      exact hdropped c' i hc' hi j hj
    · rw [Function.update_of_ne ht] at hc'
      rw [if_neg ht]
      exact h.dropped t' c' i hc' hi j hj

theorem State.Inv.replaceCall (h : s.Inv) {c : Option InProgress}
    (hnone : ∀ j, s.held t j = none)
    (hc : ∀ c', c = some c' → c'.files = []) : (s.setCall t c).Inv := by
  have hfiles : ∀ j : ℕ, c.bind (fun c' => c'.files[j]?.join) = none := by
    intro j
    cases hc' : c with
    | none => rfl
    | some c' =>
      show c'.files[j]?.join = none
      rw [hc c' hc']
      rfl
  refine h.setCall (k := s.kernel) ?_ ?_
  · refine h.exact_held.congr rfl rfl ?_
    intro a
    cases a with
    | slot q j => rfl
    | call t' j =>
      show (s.setCall t c).held t' j = s.held t' j
      rw [State.held_setCall]
      by_cases ht : t' = t
      · subst ht
        rw [if_pos rfl, hnone, hfiles]
      · rw [if_neg ht]
  · intro c' i hc' _ j _
    rw [hc c' hc']
    rfl

theorem State.held_entry {f : ℕ} {c c' : InProgress} {j : ℕ} (hc : s.calls t = some c)
    (hj : c'.files[j]?.join = some f)
    (hne : ∀ j', j' ≠ j → c'.files[j']?.join = c.files[j']?.join) :
    (s.setCall t (some c')).held t j = some f ∧
      ∀ (t' : T) (j' : ℕ), (t' ≠ t ∨ j' ≠ j) →
        (s.setCall t (some c')).held t' j' = s.held t' j' := by
  refine ⟨?_, ?_⟩
  · rw [State.held_setCall, if_pos rfl]
    exact hj
  · intro t' j' hor
    rw [State.held_setCall]
    by_cases ht : t' = t
    · subst ht
      rw [if_pos rfl, State.held, hc]
      exact hne j' (hor.resolve_left (fun h => h rfl))
    · rw [if_neg ht]

theorem State.Inv.getfile (h : s.Inv) {p : P} {fd : ℤ} (hidle : s.calls t = none)
    {r : Option ℕ × Kernel P} (hr : (s.begin e).result (getfileRef p fd) = some r) :
    (s.getfile t r.2 r.1).Inv := by
  have hnone : ∀ j, s.held t j = none := by
    intro j
    rw [State.held, hidle]
    rfl
  obtain ⟨file, k'⟩ := r
  have hspec := Kernel.result_spec (getfileRef_exact (State.begin_exact (e := e) h.exact_held)
    (hnone 0) fd (g := fun f => (s.setCall t (some
      { poll := false, files := [some f], ready := false, cleanup := none })).held) ?_) hr
  · cases file with
    | none =>
      have hk : k' = s.begin e := hspec
      exact ⟨hk ▸ State.begin_exact h.exact_held, h.dropped⟩
    | some f =>
      refine h.setCall hspec ?_
      intro c' i hc' hi
      cases hc'
      cases hi
  · intro f
    refine ⟨?_, ?_⟩
    · rw [State.held_setCall, if_pos rfl]
      rfl
    · intro t' j' hor
      rw [State.held_setCall]
      by_cases ht : t' = t
      · subst ht
        rw [if_pos rfl, hnone]
        cases j' with
        | zero => exact absurd rfl (hor.resolve_left (fun h => h rfl))
        | succ j' => rfl
      · rw [if_neg ht]

theorem State.Inv.polled (h : s.Inv) {c : InProgress}
    (hcleanup : c.cleanup = none) {k' : Kernel P} {file : Option ℕ} (ready : Bool)
    (hexact : Exact k' (s.polled t c k' file ready).held) : (s.polled t c k' file ready).Inv := by
  refine h.setCall hexact ?_
  intro c' i hc' hi
  cases hc'
  rw [hcleanup] at hi
  cases hi

theorem State.Inv.pollEntry (h : s.Inv) {c : InProgress} (hc : s.calls t = some c)
    (hcleanup : c.cleanup = none) {p : P} {fd : ℤ} {revents : Bool}
    (hs : s.pollEntry e t c p fd revents = some s') : s'.Inv := by
  -- an entry without a file changes nothing
  have hsame : ∀ (k' : Kernel P) (ready : Bool), Exact k' s.held →
      Exact k' (s.polled t c k' none ready).held := by
    intro k' ready hk'
    refine hk'.congr rfl rfl ?_
    intro a
    cases a with
    | slot q i => rfl
    | call t' j =>
      show (State.polled s t c k' none ready).held t' j = s.held t' j
      rw [State.polled, State.held_setCall]
      by_cases ht : t' = t
      · subst ht
        rw [if_pos rfl, State.held, hc]
        show (c.files ++ [none])[j]?.join = c.files[j]?.join
        by_cases hj : j < c.files.length
        · rw [List.getElem?_append_left hj]
        · rw [List.getElem?_append_right (by omega), List.getElem?_eq_none (by omega : _ ≤ j)]
          cases j - c.files.length with
          | zero => rfl
          | succ n => rfl
      · rw [if_neg ht]
        rfl
  rw [State.pollEntry] at hs
  by_cases hneg : fd < 0
  · rw [if_pos hneg, Option.some.injEq] at hs
    rw [← hs]
    exact h.polled hcleanup _ (hsame _ _ h.exact_held)
  · rw [if_neg hneg, Option.map_eq_some_iff] at hs
    obtain ⟨⟨file, k'⟩, hr, rfl⟩ := hs
    have hlast : s.held t c.files.length = none := by
      rw [State.held, hc]
      show c.files[c.files.length]?.join = none
      rw [List.getElem?_eq_none (le_refl _)]
      rfl
    refine h.polled hcleanup _ ?_
    have hspec := Kernel.result_spec (getfileRef_exact (State.begin_exact (e := e) h.exact_held)
      hlast fd (g := fun f => (s.polled t c k' (some f)
        ((some f).isNone || revents)).held) ?_) hr
    · cases file with
      | none =>
        have hk : k' = s.begin e := hspec
        exact hsame _ _ (hk ▸ State.begin_exact h.exact_held)
      | some f => exact hspec
    · intro f
      refine State.held_entry (s := { s with kernel := k' }) (j := c.files.length) hc ?_ ?_
      · show (c.files ++ [some f])[c.files.length]?.join = some f
        rw [List.getElem?_append_right (le_refl _), Nat.sub_self]
        rfl
      · intro j' hj'
        show (c.files ++ [some f])[j']?.join = c.files[j']?.join
        by_cases hlt : j' < c.files.length
        · rw [List.getElem?_append_left hlt]
        · rw [List.getElem?_eq_none (by simp; omega), List.getElem?_eq_none (by omega)]

theorem State.Inv.cleanupEntry (h : s.Inv) {c : InProgress} {i : ℕ} (hc : s.calls t = some c)
    (hi : c.cleanup = some i) : (s.cleanupEntry t c i).Inv := by
  have hdropped : ∀ j, j < i → c.files[j]?.join = none := by
    intro j hj
    have := h.dropped t c i hc hi j hj
    rw [State.held, hc] at this
    exact this
  have hother : ∀ (c' : Option InProgress) (t' : T) (j : ℕ), t' ≠ t →
      (s.setCall t c').held t' j = s.held t' j := by
    intro c' t' j ht
    rw [State.held_setCall, if_neg ht]
  rw [State.cleanupEntry]
  by_cases hlt : i < c.files.length
  · rw [if_pos hlt]
    have hset : ∀ j, (c.files.set i none)[j]?.join = if j = i then none else c.files[j]?.join := by
      intro j
      rw [List.getElem?_set]
      by_cases hj : i = j
      · rw [if_pos hj, if_pos hj.symm]
        split
        · rfl
        · rfl
      · rw [if_neg hj, if_neg (Ne.symm hj)]
    have hheld : ∀ j, (s.setCall t (some
        { c with files := c.files.set i none, cleanup := some (i + 1) })).held t j
          = if j = i then none else s.held t j := by
      intro j
      rw [State.held_setCall, if_pos rfl, State.held, hc]
      exact hset j
    refine h.setCall ?_ ?_
    · cases hf : c.files[i]?.join with
      | none =>
        refine h.exact_held.congr rfl rfl ?_
        intro a
        cases a with
        | slot q j => rfl
        | call t' j =>
          by_cases ht : t' = t
          · subst ht
            refine (hheld j).trans ?_
            by_cases hj : j = i
            · rw [if_pos hj, hj]
              show none = s.held t' i
              rw [State.held, hc]
              exact hf.symm
            · rw [if_neg hj]
              rfl
          · exact hother _ t' j ht
      | some f =>
        refine h.exact_held.deref (a := .call t i) ?_ rfl rfl ?_ ?_
        · show s.held t i = some f
          rw [State.held, hc]
          exact hf
        · exact (hheld i).trans (if_pos rfl)
        · intro b hb
          cases b with
          | slot q j => rfl
          | call t' j =>
            by_cases ht : t' = t
            · subst ht
              refine (hheld j).trans (if_neg ?_)
              rintro rfl
              exact hb rfl
            · exact hother _ t' j ht
    · intro c' i' hc' hi' j hj
      cases hc'
      cases hi'
      show (c.files.set i none)[j]?.join = none
      rw [hset]
      by_cases hji : j = i
      · rw [if_pos hji]
      · rw [if_neg hji]
        exact hdropped j (by omega)
  · rw [if_neg hlt]
    refine h.setCall (k := s.kernel) ?_ ?_
    · refine h.exact_held.congr rfl rfl ?_
      intro a
      cases a with
      | slot q j => rfl
      | call t' j =>
        by_cases ht : t' = t
        · subst ht
          show (s.setCall t' none).held t' j = s.held t' j
          rw [State.held_setCall, if_pos rfl, State.held, hc]
          show none = c.files[j]?.join
          by_cases hj : j < i
          · exact (hdropped j hj).symm
          · rw [List.getElem?_eq_none (by omega)]
            rfl
        · exact hother _ t' j ht
    · intro c' i' hc'
      cases hc'

variable [DecidableEq P]

/-- **Step lemma.**  Every step that meets the condition keeps the invariant. -/
theorem State.Inv.step (h : s.Inv) (hC : Careful s e) (hs : step s e = some s') : s'.Inv := by
  have hexact := State.begin_exact (e := e) h.exact_held
  obtain ⟨op, allocs⟩ := e
  cases op with
  | openat p cloexec => exact h.perform (sysOpenat_exact hexact cloexec) hs
  | close p fd => exact h.perform (sysClose_exact hexact fd) hs
  | duplicate p oldfd newfd flags =>
    exact h.perform ((fdDuplicate_exact hexact oldfd newfd flags).imp (fun _ _ h' => h'.1)) hs
  | setFd p fd arg => exact h.perform (setFd_exact hexact fd arg) hs
  | fork old new =>
    obtain ⟨⟨_, hnew⟩, hs⟩ := Option.ite_none_right_eq_some.mp hs
    exact h.perform (fdClone_exact hexact hnew) hs
  | execve p => exact h.perform (closeOnExec_exact hexact) hs
  | destroy p => exact h.perform (closeAll_exact hexact) hs
  | getfile t p fd =>
    obtain ⟨hidle, hs⟩ := Option.ite_none_right_eq_some.mp hs
    obtain ⟨r, hr, rfl⟩ := Option.map_eq_some_iff.mp hs
    exact h.getfile (Option.isNone_iff_eq_none.mp hidle) hr
  | pollBegin t =>
    obtain ⟨hidle, hs⟩ := Option.ite_none_right_eq_some.mp hs
    rw [← Option.some.inj hs]
    have hnone := Option.isNone_iff_eq_none.mp hidle
    refine h.replaceCall (fun j => ?_) ?_
    · rw [State.held, hnone]
      rfl
    · intro c' hc'
      cases hc'
      rfl
  | pollEntry t p fd revents =>
    obtain ⟨c, hc, hs⟩ := Option.bind_eq_some_iff.mp hs
    obtain ⟨hbusy, _⟩ := Option.filter_eq_some_iff.mp hc
    obtain ⟨hcall, hcleanup⟩ := Option.filter_eq_some_iff.mp hbusy
    exact h.pollEntry hcall (Option.isNone_iff_eq_none.mp hcleanup) hs
  | pollNomem t =>
    obtain ⟨⟨hbusy, _⟩, hs⟩ := Option.ite_none_right_eq_some.mp hs
    rw [← Option.some.inj hs]
    refine h.replaceCall (fun j => ?_) ?_
    · cases hc : s.calls t with
      | none =>
        rw [State.held, hc]
        rfl
      | some c =>
        rw [State.held, hc]
        -- the condition on the step
        have hfiles := hC c hc
        show c.files[j]?.join = none
        cases hj : c.files[j]? with
        | none => rfl
        | some file => exact hfiles file (List.mem_of_getElem? hj)
    · intro c' hc'
      cases hc'
  | cleanup t =>
    obtain ⟨c, hc, rfl⟩ := Option.map_eq_some_iff.mp hs
    obtain ⟨hcall, _⟩ := Option.filter_eq_some_iff.mp hc
    refine h.setCall (k := s.kernel) ?_ ?_
    · refine h.exact_held.congr rfl rfl ?_
      intro a
      cases a with
      | slot q j => rfl
      | call t' j =>
        show (s.setCall t _).held t' j = s.held t' j
        rw [State.held_setCall]
        by_cases ht : t' = t
        · subst ht
          rw [if_pos rfl, State.held, hcall]
          rfl
        · rw [if_neg ht]
    · intro c' i' hc' hi' j hj
      cases hc'
      cases hi'
      exact absurd hj (Nat.not_lt_zero j)
  | cleanupEntry t =>
    obtain ⟨⟨c, i⟩, hc, rfl⟩ := Option.map_eq_some_iff.mp hs
    obtain ⟨c', hcall, hmap⟩ := Option.bind_eq_some_iff.mp hc
    obtain ⟨i', hi', hpair⟩ := Option.map_eq_some_iff.mp hmap
    cases hpair
    exact h.cleanupEntry hcall hi'

end

theorem State.initial_inv : (State.initial : State P T).Inv where
  exact_held := by
    refine ⟨?_, ?_, ?_⟩
    · intro f
      refine Tally.zero_iff.mpr ?_
      intro a ha
      cases a with
      | slot p i =>
        have hnone : (none : Option ℕ) = some f := ha
        cases hnone
      | call t j =>
        have hnone : (none : Option ℕ) = some f := ha
        cases hnone
    · intro f
      exact (if_neg (fun h => Nat.not_lt_zero f h.2)).symm
    · intro f _
      rfl
  dropped := by
    intro t c i hc
    cases hc

end

/-! ## Every run -/

/-- `dup2` as a system call. -/
def dup2 {P T : Type} (p : P) (oldfd newfd : ℤ) (allocs : List Bool) : Event P T :=
  ⟨.duplicate p oldfd newfd ⟨true, false, false⟩, allocs⟩

instance (proc : Process) (fd : ℤ) : Decidable (proc.Opened fd) :=
  inferInstanceAs (Decidable (0 ≤ fd ∧ fd < proc.fdCap ∧ (proc.get fd).isSome))

instance (k : Kernel P) (p : P) (newfd : ℤ) (flags : DupeFlags) :
    Decidable (k.Loses p newfd flags) :=
  inferInstanceAs (Decidable (flags.minimum = false ∧ newfd ≠ -1 ∧ 0 ≤ newfd ∧
    ((k.procs p).get newfd).isSome ∧ k.hasMemory = false))

instance (s : State P T) : ∀ e, Decidable (Careful s e)
  | ⟨.duplicate p oldfd newfd flags, allocs⟩ => inferInstanceAs
      (Decidable (¬ ((s.kernel.procs p).Opened oldfd ∧ oldfd ≠ newfd ∧
        (s.begin ⟨.duplicate p oldfd newfd flags, allocs⟩).Loses p newfd flags)))
  | ⟨.pollNomem t, _⟩ =>
      inferInstanceAs (Decidable (∀ c ∈ s.calls t, ∀ file ∈ c.files, file = none))
  | ⟨.openat .., _⟩ | ⟨.close .., _⟩ | ⟨.setFd .., _⟩ | ⟨.fork .., _⟩ | ⟨.execve .., _⟩
  | ⟨.destroy .., _⟩ | ⟨.getfile .., _⟩ | ⟨.pollBegin .., _⟩ | ⟨.pollEntry .., _⟩
  | ⟨.cleanup .., _⟩ | ⟨.cleanupEntry .., _⟩ => .isTrue trivial

end FileTable
