/-
# Process groups and sessions

`core/jobctl.c`: the groups and sessions of the processes, their reference counts, and the tables
of `core/process.c` that find them by number.  Each call runs alone.  A panic, a failed assertion
and a bad pointer stop the kernel with its memory as it is then.
-/
import YakKernel.Roster
import YakKernel.Status
import YakKernel.TransitionSystem

namespace JobCtl

/-! ## The memory -/

/-- `struct pgrp`. -/
structure Pgrp where
  pgid : ℕ
  refcount : ℕ
  session : ℕ
  members : List ℕ

/-- `struct session`, without its terminal. -/
structure Session where
  sid : ℕ
  refcount : ℕ
  members : List ℕ
  pgrps : List ℕ

/-- The fields of `struct kprocess` that job control uses; the number names the process. -/
structure Process where
  ppid : ℕ
  parentProcess : Option ℕ
  session : Option ℕ
  pgrp : Option ℕ

/-- The processes of the `pid` table, the groups and sessions in the heap by their addresses, and
the tables.  Freed memory is not handed out again. -/
structure State where
  procs : ℕ → Option Process
  pgrps : ℕ → Option Pgrp
  sessions : ℕ → Option Session
  pgidTable : ℕ → Option ℕ
  sidTable : ℕ → Option ℕ
  nextPid : ℕ
  nextAddr : ℕ
  halted : Bool

/-- `process->pgrp`. -/
def State.pgrpOf (s : State) (p : ℕ) : Option ℕ := (s.procs p).bind Process.pgrp

/-- `process->session`. -/
def State.sessionOf (s : State) (p : ℕ) : Option ℕ := (s.procs p).bind Process.session

def State.setPgrp (s : State) (p : ℕ) (g : Option ℕ) : State :=
  { s with procs := Function.update s.procs p ((s.procs p).map fun q => { q with pgrp := g }) }

def State.setSession (s : State) (p : ℕ) (n : Option ℕ) : State :=
  { s with procs := Function.update s.procs p ((s.procs p).map fun q => { q with session := n }) }

/-- Which allocations of a `setsid` succeed. -/
structure Allocs where
  session : Bool
  pgrp : Bool
  sidEntry : Bool
  pgidEntry : Bool

/-! ## The code -/

/-- `session_deref`.  The last reference frees the session, and then the kernel panics. -/
def sessionDeref (s : State) (n : ℕ) : Except State State :=
  match s.sessions n with
  | none => .error s
  | some session =>
    if session.refcount = 1 then .error { s with sessions := Function.update s.sessions n none }
    else .ok { s with
      sessions := Function.update s.sessions n
        (some { session with refcount := session.refcount - 1 }) }

/-- `pgrp_deref`.  The last reference frees the group, and then the kernel panics. -/
def pgrpDeref (s : State) (g : ℕ) : Except State State :=
  match s.pgrps g with
  | none => .error s
  | some pgrp =>
    if pgrp.refcount = 1 then .error { s with pgrps := Function.update s.pgrps g none }
    else .ok { s with
      pgrps := Function.update s.pgrps g (some { pgrp with refcount := pgrp.refcount - 1 }) }

/-- `pgrp_insert`. -/
def pgrpInsert (s : State) (g p : ℕ) : Except State State :=
  if s.pgrpOf p ≠ none then .error s
  else match s.pgrps g with
    | none => .error s
    | some pgrp => .ok (State.setPgrp { s with
        pgrps := Function.update s.pgrps g
          (some { pgrp with refcount := pgrp.refcount + 1, members := p :: pgrp.members }) }
        p (some g))

/-- `session_insert`. -/
def sessionInsert (s : State) (n p : ℕ) : Except State State :=
  if s.sessionOf p ≠ none then .error s
  else match s.sessions n with
    | none => .error s
    | some session => .ok (State.setSession { s with
        sessions := Function.update s.sessions n
          (some { session with
            refcount := session.refcount + 1, members := p :: session.members }) }
        p (some n))

/-- `session_remove`. -/
def sessionRemove (s : State) (p : ℕ) : Except State State :=
  match s.sessionOf p with
  | none => .error s
  | some n => match s.sessions n with
    | none => .error s
    | some session => sessionDeref (State.setSession { s with
        sessions := Function.update s.sessions n
          (some { session with members := session.members.erase p }) } p none) n

/-- `pgrp_remove`. -/
def pgrpRemove (s : State) (p : ℕ) : Except State State :=
  match s.pgrpOf p with
  | none => .error s
  | some g => match s.pgrps g with
    | none => .error s
    | some pgrp => pgrpDeref (State.setPgrp { s with
        pgrps := Function.update s.pgrps g
          (some { pgrp with members := pgrp.members.erase p }) } p none) g

/-- `pgrp_create`. -/
def pgrpCreate (s : State) (n leader : ℕ) (alloc : Bool) : Except State (Option ℕ × State) :=
  if !alloc then .ok (none, s)
  else match s.sessions n with
    | none => .error s
    | some session => .ok (some s.nextAddr, { s with
        pgrps := Function.update s.pgrps s.nextAddr
          (some { pgid := leader, refcount := 1, session := n, members := [] })
        sessions := Function.update s.sessions n
          (some { session with
            refcount := session.refcount + 1, pgrps := s.nextAddr :: session.pgrps })
        nextAddr := s.nextAddr + 1 })

/-- `session_create`. -/
def sessionCreate (s : State) (leader : ℕ) (alloc : Bool) : Option ℕ × State :=
  if !alloc then (none, s)
  else (some s.nextAddr, { s with
    sessions := Function.update s.sessions s.nextAddr
      (some { sid := leader, refcount := 1, members := [], pgrps := [] })
    nextAddr := s.nextAddr + 1 })

/-- `insert_sid`: `ht_set` fails for a number that is there and when it cannot allocate. -/
def insertSid (s : State) (n : ℕ) (alloc : Bool) : Except State State :=
  match s.sessions n with
  | none => .error s
  | some session =>
    if alloc && (s.sidTable session.sid).isNone then
      .ok { s with sidTable := Function.update s.sidTable session.sid (some n) }
    else .error s

/-- `insert_pgrp`. -/
def insertPgrp (s : State) (g : ℕ) (alloc : Bool) : Except State State :=
  match s.pgrps g with
  | none => .error s
  | some pgrp =>
    if alloc && (s.pgidTable pgrp.pgid).isNone then
      .ok { s with pgidTable := Function.update s.pgidTable pgrp.pgid (some g) }
    else .error s

/-- `pgrp_remove` and `session_remove` of `jobctl_setsid`, each for a pointer that is not null. -/
def leaveOld (s : State) (p : ℕ) : Except State State := do
  let s ← if (s.pgrpOf p).isSome then pgrpRemove s p else .ok s
  if (s.sessionOf p).isSome then sessionRemove s p else .ok s

/-- `jobctl_setsid` from the removals on. -/
def enterNew (s : State) (p n g : ℕ) (allocs : Allocs) : Except State State := do
  let s ← leaveOld s p
  let s ← sessionInsert s n p
  let s ← pgrpInsert s g p
  let s ← insertSid s n allocs.sidEntry
  let s ← insertPgrp s g allocs.pgidEntry
  -- finally release the temporary references
  let s ← sessionDeref s n
  pgrpDeref s g

/-- The process leads its session or its group, as `jobctl_setsid` asks. -/
def isLeader (s : State) (p : ℕ) : Except State Bool :=
  match s.sessionOf p with
  | none => .ok false
  | some n => match s.sessions n with
    | none => .error s
    | some session =>
      if session.sid = p then .ok true
      else match (s.pgrpOf p).bind s.pgrps with
        | none => .error s
        | some pgrp => .ok (decide (pgrp.pgid = p))

/-- `jobctl_setsid`. -/
def jobctlSetsid (s : State) (p : ℕ) (allocs : Allocs) : Except State (Status × State) := do
  if ← isLeader s p then return (.permDenied, s)
  match s.procs p with
  | none => throw s
  | some process =>
    if process.session = none ∧ process.ppid ≠ 0 then throw s
    match sessionCreate s p allocs.session with
    | (none, s) => return (.oom, s)
    | (some n, s) =>
      match ← pgrpCreate s n p allocs.pgrp with
      | (none, s) => return (.oom, ← sessionDeref s n)
      | (some g, s) => return (.success, ← enterNew s p n g allocs)

/-- The group that `jobctl_setpgid` takes: none for a session leader, a new one for 0 or the
process' own number, else the registered one if it is of the same session. -/
def chosenPgrp (s : State) (p pgid : ℕ) (alloc : Bool) : Except State (Option ℕ × State) :=
  match (s.sessionOf p).bind (fun n => (s.sessions n).map fun session => (n, session)) with
  | none => .error s
  | some (n, session) =>
    if session.sid = p then .ok (none, s)
    else if pgid = 0 ∨ pgid = p then pgrpCreate s n p alloc
    else match s.pgidTable pgid with
      | none => .ok (none, s)
      | some g => match s.pgrps g with
        | none => .error s
        | some pgrp => .ok (if pgrp.session ≠ n then none else some g, s)

/-- `jobctl_setpgid`. -/
def jobctlSetpgid (s : State) (p pgid : ℕ) (alloc : Bool) : Except State (Status × State) := do
  match ← chosenPgrp s p pgid alloc with
  | (none, s) => return (.permDenied, s)
  | (some g, s) =>
    let s ← if (s.pgrpOf p).isSome then pgrpRemove s p else .ok s
    return (.success, ← pgrpInsert s g p)

/-- The process that `sys_setpgid` works on: the caller or a child of it. -/
def setpgidTarget (s : State) (cur pid : ℕ) : Option ℕ :=
  if pid = 0 then some cur
  else match s.procs pid with
    | none => none
    | some proc => if pid ≠ cur ∧ proc.parentProcess ≠ some cur then none else some pid

/-- `sys_setpgid`. -/
def sysSetpgid (s : State) (cur pid pgid : ℕ) (alloc : Bool) : Except State State :=
  match setpgidTarget s cur pid with
  | none => .ok s
  | some p => (jobctlSetpgid s p pgid alloc).map Prod.snd

/-- The part of `sys_fork` that places the child.  Without memory for the child the kernel stops
before it is a process. -/
def fork (s : State) (p : ℕ) (alloc : Bool) : Except State State :=
  match s.procs p with
  | none => .error s
  | some parent =>
    if !alloc then .error s
    else
      let child := s.nextPid
      let s := { s with
        procs := Function.update s.procs child
          (some { ppid := p, parentProcess := some p, session := none, pgrp := none })
        nextPid := child + 1 }
      match parent.session, parent.pgrp with
      | some n, some g => do
        let s ← sessionInsert s n child
        pgrpInsert s g child
      | _, _ => .error s

/-- `process_destroy`: the process leaves, its children become those of init, and its number leaves
the table. -/
def processDestroy (s : State) (p : ℕ) : Except State State := do
  if p = 0 ∨ p = 1 then throw s
  let s ← pgrpRemove s p
  let s ← sessionRemove s p
  return { s with procs := fun q =>
    if q = p then none
    else (s.procs q).map (fun child =>
      if child.parentProcess = some p then { child with ppid := 1, parentProcess := some 1 }
      else child) }

/-! ## Runs -/

/-- The calls. -/
inductive Event where
  | fork (p : ℕ) (alloc : Bool)
  | setsid (p : ℕ) (allocs : Allocs)
  | setpgid (cur pid pgid : ℕ) (alloc : Bool)
  | destroy (p : ℕ)

/-- The process that makes the call or is destroyed. -/
def Event.caller : Event → ℕ
  | .fork p _ => p
  | .setsid p _ => p
  | .setpgid cur _ _ _ => cur
  | .destroy p => p

/-- One call. -/
def call (s : State) : Event → Except State State
  | .fork p alloc => fork s p alloc
  | .setsid p allocs => (jobctlSetsid s p allocs).map Prod.snd
  | .setpgid cur pid pgid alloc => sysSetpgid s cur pid pgid alloc
  | .destroy p => processDestroy s p

/-- A call of a process that exists; nothing follows a panic. -/
def step (s : State) (e : Event) : Option State :=
  if s.halted ∨ (s.procs e.caller).isNone then none
  else match call s e with
    | .ok s' => some s'
    | .error s' => some { s' with halted := true }

/-- The memory when `kmain` has made process 1. -/
def proc1Made : State where
  procs := Function.update (fun _ => none) 1
    (some { ppid := 0, parentProcess := some 0, session := none, pgrp := none })
  pgrps := fun _ => none
  sessions := fun _ => none
  pgidTable := fun _ => none
  sidTable := fun _ => none
  nextPid := 2
  nextAddr := 0
  halted := false

/-- Runs begin when `kmain` has put process 1 in a session. -/
def system : TransitionSystem State Event where
  init s := jobctlSetsid proc1Made 1 ⟨true, true, true, true⟩ = .ok (.success, s)
  step := step

end JobCtl
