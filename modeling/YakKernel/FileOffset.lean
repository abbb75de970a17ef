/-
# The offset of an open file

`sys_write` and `sys_read` (`core/syscall/file.c`) load the offset of the `struct file`, call the
vnode's operation there, and add the count to the offset: three steps, between which the calls of
other threads on the same file take theirs.  The vnode is a regular one.
-/
import YakKernel.FileContents
import YakKernel.TransitionSystem
import Mathlib.Order.CompletePartialOrder

namespace FileOffset

open VfsVobj

/-! ## The system -/

/-- A system call on the file, with its arguments. -/
inductive Syscall where
  | write (buf : ℕ → UInt8) (count : ℕ)
  | read (count : ℕ)

/-- `VOP_WRITE` or `VOP_READ` at an offset. -/
def Syscall.vop (offset : ℕ) : Syscall → Call
  | .write buf count => .write offset buf count
  | .read count => .read offset count

/-- The size that a call asks for. -/
def Syscall.size : Syscall → ℕ
  | .write _ count => count
  | .read count => count

/-- Where a thread is in its call. -/
inductive Progress where
  | idle
  | loaded (call : Syscall) (offset : ℕ)
  | transferred (count : ℕ)

/-- The open file with its vnode, and the calls.  The ranges transferred and the counts returned so
far are recorded, the latest first. -/
structure State (T : Type) where
  offset : ℕ
  fileRead : Bool
  fileWrite : Bool
  vnode : Vnode
  threads : T → Progress
  ranges : List (ℕ × ℕ)
  returned : List ℕ

/-- The steps of a thread's call. -/
inductive Event (T : Type) where
  | load (t : T) (call : Syscall)
  | vop (t : T)
  | update (t : T)

variable {T : Type} [DecidableEq T]

/-- The file is open for the call. -/
def State.allows (s : State T) : Syscall → Bool
  | .write _ _ => s.fileWrite
  | .read _ => s.fileRead

def State.setThread (s : State T) (t : T) (p : Progress) : State T :=
  { s with threads := Function.update s.threads t p }

/-- `sys_write` and `sys_read`.  A call that fails has no further step. -/
def step (s : State T) : Event T → Option (State T)
  | .load t call =>
    match s.threads t with
    | .idle =>
      if call.size < 2 ^ 64 then
        -- without the mode the call returns `EBADF`
        if s.allows call then some (s.setThread t (.loaded call s.offset)) else some s
      else none
    | _ => none
  | .vop t =>
    match s.threads t with
    | .loaded call offset =>
      match s.vnode.call (call.vop offset) with
      | none => none
      | some (reply, vnode) =>
        let s := { s with vnode := vnode }
        if reply.status.isErr ∧ reply.status ≠ .eof then some (s.setThread t .idle)
        else some ({ s with ranges := (offset, reply.count.getD 0) :: s.ranges }.setThread t
          (.transferred (reply.count.getD 0)))
    | _ => none
  | .update t =>
    match s.threads t with
    | .transferred count =>
      some ({ s with
        offset := wadd s.offset count
        returned := count :: s.returned }.setThread t .idle)
    | _ => none

/-- A regular vnode with its object. -/
structure Regular (vn : Vnode) : Prop where
  type_eq : vn.type = .vreg
  exists_vobj : ∃ vobj, vn.vobj = some vobj
  filesize_lt : vn.filesize < 2 ^ 64

/-- No call is on its way. -/
def State.Quiet (s : State T) : Prop := ∀ t, s.threads t = .idle

/-- The calls on a file whose offset is `start`. -/
def system (T : Type) [DecidableEq T] (start : ℕ) : TransitionSystem (State T) (Event T) where
  init s := s.offset = start ∧ start < 2 ^ 64 ∧ Regular s.vnode ∧ s.Quiet ∧ s.ranges = [] ∧
    s.returned = []
  step := step

theorem Regular.write {vn : Vnode} (h : Regular vn) {offset : ℕ} (buf : ℕ → UInt8) (length : ℕ)
    (hoffset : offset < 2 ^ 64) :
    ∃ count vn', vfsVobjWrite vn offset buf length true = some (.success, count, vn') ∧
      Regular vn' ∧ offset + count.getD 0 < 2 ^ 64 := by
  obtain ⟨vobj, hvobj⟩ := h.exists_vobj
  by_cases hzero : length = 0
  · refine ⟨none, vn, ?_, h, hoffset⟩
    simp [vfsVobjWrite, h.type_eq, hvobj, hzero]
  · have hend : wadd offset length < 2 ^ 64 := Nat.mod_lt _ (by decide)
    obtain ⟨vobj', hloop, -⟩ :=
      writeLoop_spec (wadd offset length - offset) vobj offset (wadd offset length) buf 0 rfl
    refine ⟨some (0 + (wadd offset length - offset)), { vn with
      filesize := if wadd offset length > vn.filesize then wadd offset length else vn.filesize
      vobj := some vobj' }, ?_, ⟨h.type_eq, ⟨vobj', rfl⟩, ?_⟩, ?_⟩
    · simp [vfsVobjWrite, h.type_eq, hvobj, hzero, hloop]
    · have hsize := h.filesize_lt
      show (if wadd offset length > vn.filesize then wadd offset length else vn.filesize) < 2 ^ 64
      split
      · exact hend
      · exact hsize
    · show offset + (0 + (wadd offset length - offset)) < 2 ^ 64
      omega

/-- A read of a regular vnode succeeds or is at the end, and stays within the words. -/
theorem Regular.read {vn : Vnode} (h : Regular vn) {offset : ℕ} (length : ℕ)
    (hoffset : offset < 2 ^ 64) :
    ∃ status count bytes vn', vfsVobjRead vn offset length true = some (status, count, bytes, vn') ∧
      (status = .success ∨ status = .eof) ∧ Regular vn' ∧ offset + count.getD 0 < 2 ^ 64 := by
  obtain ⟨vobj, hvobj⟩ := h.exists_vobj
  by_cases hzero : length = 0
  · refine ⟨.success, none, [], vn, ?_, .inl rfl, h, hoffset⟩
    simp [vfsVobjRead, h.type_eq, hvobj, hzero]
  · by_cases heof : vn.filesize ≤ offset
    · refine ⟨.eof, some 0, [], vn, ?_, .inr rfl, h, hoffset⟩
      simp [vfsVobjRead, h.type_eq, hvobj, hzero, heof]
    · generalize hclamp :
        (if wadd offset length > vn.filesize then vn.filesize - offset else length) = n
      have hend : wadd offset n < 2 ^ 64 := Nat.mod_lt _ (by decide)
      obtain ⟨vobj', hloop, -⟩ :=
        readLoop_spec (wadd offset n - offset) vobj offset (wadd offset n) [] 0 rfl
      refine ⟨.success, some (0 + (wadd offset n - offset)),
        [] ++ PagedBytes.cells vobj.bytes offset (wadd offset n - offset),
        { vn with vobj := some vobj' },
        ?_, .inl rfl, ⟨h.type_eq, ⟨vobj', rfl⟩, h.filesize_lt⟩, ?_⟩
      · simp only [vfsVobjRead, h.type_eq, hvobj, hzero, heof, hclamp, hloop]
        simp
      · show offset + (0 + (wadd offset n - offset)) < 2 ^ 64
        omega

theorem Regular.vop {vn : Vnode} (h : Regular vn) {offset : ℕ} (hoffset : offset < 2 ^ 64)
    (call : Syscall) :
    ∃ reply vn', vn.call (call.vop offset) = some (reply, vn') ∧
      (reply.status = .success ∨ reply.status = .eof) ∧ Regular vn' ∧
      offset + reply.count.getD 0 < 2 ^ 64 := by
  cases call with
  | write buf length =>
    obtain ⟨count, vn', hcall, hregular, hcount⟩ := h.write buf length hoffset
    exact ⟨_, vn', by rw [Syscall.vop, Vnode.call, hcall]; rfl, .inl rfl, hregular, hcount⟩
  | read length =>
    obtain ⟨status, count, bytes, vn', hcall, hstatus, hregular, hcount⟩ :=
      h.read length hoffset
    exact ⟨_, vn', by rw [Syscall.vop, Vnode.call, hcall]; rfl, hstatus, hregular, hcount⟩

/-! ## The steps -/

variable {s s' : State T} {t : T} {start : ℕ}

theorem step_load {call : Syscall} (h : step s (.load t call) = some s') :
    s' = s ∨ (s.threads t = .idle ∧ s' = s.setThread t (.loaded call s.offset)) := by
  simp only [step] at h
  split at h
  case h_1 hidle =>
    split at h
    · split at h
      · exact .inr ⟨hidle, (Option.some.inj h).symm⟩
      · exact .inl (Option.some.inj h).symm
    · simp at h
  case h_2 => simp at h

theorem step_update (h : step s (.update t) = some s') :
    ∃ count, s.threads t = .transferred count ∧
      s' = State.setThread { s with
        offset := wadd s.offset count
        returned := count :: s.returned } t .idle := by
  simp only [step] at h
  split at h
  case h_1 count hcount => exact ⟨count, hcount, (Option.some.inj h).symm⟩
  case h_2 => simp at h

/-- An operation on a regular vnode transfers a range from the loaded offset on. -/
theorem step_vop (h : step s (.vop t) = some s') (hregular : Regular s.vnode) {call : Syscall}
    {offset : ℕ} (hloaded : s.threads t = .loaded call offset) (hoffset : offset < 2 ^ 64) :
    ∃ count vnode, Regular vnode ∧ offset + count < 2 ^ 64 ∧
      s' = State.setThread { s with vnode := vnode, ranges := (offset, count) :: s.ranges } t
        (.transferred count) := by
  obtain ⟨reply, vn', hcall, hstatus, hregular', hcount⟩ := hregular.vop hoffset call
  simp only [step, hloaded, hcall] at h
  rw [if_neg] at h
  · exact ⟨_, vn', hregular', hcount, (Option.some.inj h).symm⟩
  · rintro ⟨herr, hne⟩
    rcases hstatus with hs | hs
    · rw [hs] at herr
      simp at herr
    · exact hne hs

theorem step_vop_loaded (h : step s (.vop t) = some s') :
    ∃ call offset, s.threads t = .loaded call offset := by
  simp only [step] at h
  split at h
  case h_1 call offset hloaded => exact ⟨call, offset, hloaded⟩
  case h_2 => simp at h

/-! ## Calls that do not meet -/

/-- Two ranges have no byte in common. -/
def Apart (r r' : ℕ × ℕ) : Prop :=
  Disjoint (Set.Ico r.1 (r.1 + r.2)) (Set.Ico r'.1 (r'.1 + r'.2))

theorem apart_of_le {r r' : ℕ × ℕ} (h : r'.1 + r'.2 ≤ r.1) : Apart r r' := by
  apply Disjoint.symm
  rw [Set.Ico_disjoint_Ico]
  exact (min_le_left _ _).trans (h.trans (le_max_right _ _))

/-- The ranges of the calls that have returned lie one after the other below the offset. -/
structure Behind (start : ℕ) (s : State T) (past : List (ℕ × ℕ)) : Prop where
  le_offset : ∀ r ∈ past, r.1 + r.2 ≤ s.offset
  apart : past.Pairwise Apart
  counts : past.map Prod.snd = s.returned
  offset_eq : s.offset = start + s.returned.sum

/-- At most one call is on its way, and the offset it has loaded is the file's. -/
inductive Phase (s : State T) (past : List (ℕ × ℕ)) : Prop
  | quiet (hidle : s.Quiet) (hranges : s.ranges = past)
  | loaded (t : T) (call : Syscall) (hloaded : s.threads t = .loaded call s.offset)
      (hidle : ∀ u, u ≠ t → s.threads u = .idle) (hranges : s.ranges = past)
  | transferred (t : T) (count : ℕ) (hcount : s.threads t = .transferred count)
      (hidle : ∀ u, u ≠ t → s.threads u = .idle) (hranges : s.ranges = (s.offset, count) :: past)
      (hlt : s.offset + count < 2 ^ 64)

/-- What holds while no call loads beside another. -/
structure Serial (start : ℕ) (s : State T) : Prop where
  offset_lt : s.offset < 2 ^ 64
  regular : Regular s.vnode
  exists_past : ∃ past, Behind start s past ∧ Phase s past

theorem setThread_quiet {p : Progress} (h : ∀ u, u ≠ t → s.threads u = .idle) :
    ∀ u, u ≠ t → (s.setThread t p).threads u = .idle := by
  intro u hu
  rw [State.setThread]
  show Function.update s.threads t p u = .idle
  rw [Function.update_of_ne hu]
  exact h u hu

@[simp] theorem setThread_self (p : Progress) : (s.setThread t p).threads t = p := by
  simp [State.setThread]

theorem Phase.eq_of_loaded {past : List (ℕ × ℕ)} (h : Phase s past) {call : Syscall} {offset : ℕ}
    (hloaded : s.threads t = .loaded call offset) :
    offset = s.offset ∧ (∀ u, u ≠ t → s.threads u = .idle) ∧ s.ranges = past := by
  cases h with
  | quiet hidle hranges => simp [hidle t] at hloaded
  | loaded u call' hloaded' hidle hranges =>
    obtain rfl : t = u := by
      by_contra hne
      simp [hidle t hne] at hloaded
    rw [hloaded'] at hloaded
    simp only [Progress.loaded.injEq] at hloaded
    exact ⟨hloaded.2.symm, hidle, hranges⟩
  | transferred u count hcount hidle hranges hlt =>
    by_cases hne : t = u
    · rw [hne, hcount] at hloaded
      simp at hloaded
    · simp [hidle t hne] at hloaded

theorem Phase.of_transferred {past : List (ℕ × ℕ)} (h : Phase s past) {count : ℕ}
    (hcount : s.threads t = .transferred count) :
    (∀ u, u ≠ t → s.threads u = .idle) ∧ s.ranges = (s.offset, count) :: past ∧
      s.offset + count < 2 ^ 64 := by
  cases h with
  | quiet hidle hranges => simp [hidle t] at hcount
  | loaded u call hloaded hidle hranges =>
    by_cases hne : t = u
    · rw [hne, hloaded] at hcount
      simp at hcount
    · simp [hidle t hne] at hcount
  | transferred u count' hcount' hidle hranges hlt =>
    obtain rfl : t = u := by
      by_contra hne
      simp [hidle t hne] at hcount
    rw [hcount'] at hcount
    simp only [Progress.transferred.injEq] at hcount
    subst hcount
    exact ⟨hidle, hranges, hlt⟩

theorem Serial.load (h : Serial start s) (hquiet : s.Quiet) {call : Syscall}
    (hs : step s (.load t call) = some s') : Serial start s' := by
  obtain ⟨past, hbehind, hphase⟩ := h.exists_past
  rcases step_load hs with rfl | ⟨-, rfl⟩
  · exact h
  · refine ⟨h.offset_lt, h.regular, past, ⟨hbehind.1, hbehind.2, hbehind.3, hbehind.4⟩, ?_⟩
    apply Phase.loaded t call (setThread_self _) (setThread_quiet fun u _ => hquiet u)
    cases hphase with
    | quiet _ hranges => exact hranges
    | loaded u call hloaded _ _ => simp [hquiet u] at hloaded
    | transferred u count hcount _ _ _ => simp [hquiet u] at hcount

theorem Serial.vop (h : Serial start s) (hs : step s (.vop t) = some s') : Serial start s' := by
  obtain ⟨past, hbehind, hphase⟩ := h.exists_past
  obtain ⟨call, offset, hloaded⟩ := step_vop_loaded hs
  obtain ⟨rfl, hidle, hranges⟩ := hphase.eq_of_loaded hloaded
  obtain ⟨count, vnode, hregular, hlt, rfl⟩ := step_vop hs h.regular hloaded h.offset_lt
  refine ⟨h.offset_lt, hregular, past, ⟨hbehind.1, hbehind.2, hbehind.3, hbehind.4⟩, ?_⟩
  refine .transferred t count (setThread_self _) (setThread_quiet (s := { s with
    vnode := vnode, ranges := (s.offset, count) :: s.ranges }) hidle) ?_ hlt
  rw [← hranges]
  rfl

theorem Serial.update (h : Serial start s) (hs : step s (.update t) = some s') :
    Serial start s' := by
  obtain ⟨past, hbehind, hphase⟩ := h.exists_past
  obtain ⟨count, hcount, rfl⟩ := step_update hs
  obtain ⟨hidle, hranges, hlt⟩ := hphase.of_transferred hcount
  have hwadd : wadd s.offset count = s.offset + count := Nat.mod_eq_of_lt hlt
  refine ⟨?_, h.regular, (s.offset, count) :: past, ⟨?_, ?_, ?_, ?_⟩, ?_⟩
  · show wadd s.offset count < 2 ^ 64
    rw [hwadd]
    exact hlt
  · show ∀ r ∈ (s.offset, count) :: past, r.1 + r.2 ≤ wadd s.offset count
    intro r hr
    rw [hwadd]
    rcases List.mem_cons.1 hr with rfl | hr
    · exact le_rfl
    · exact (hbehind.le_offset r hr).trans (Nat.le_add_right _ _)
  · exact List.pairwise_cons.2 ⟨fun r hr => apart_of_le (hbehind.le_offset r hr), hbehind.apart⟩
  · show count :: past.map Prod.snd = count :: s.returned
    rw [hbehind.counts]
  · show wadd s.offset count = start + (count :: s.returned).sum
    rw [hwadd, List.sum_cons, hbehind.offset_eq]
    omega
  · refine .quiet ?_ hranges
    intro u
    by_cases hu : u = t
    · rw [hu]
      exact setThread_self _
    · exact setThread_quiet (s := { s with
        offset := wadd s.offset count, returned := count :: s.returned }) hidle u hu

/-- A new file open for writing, at its start. -/
def opened : State Bool where
  offset := 0
  fileRead := false
  fileWrite := true
  vnode := newVnode
  threads := fun _ => .idle
  ranges := []
  returned := []

end FileOffset
