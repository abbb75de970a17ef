/-
# The lock discipline of the virtual memory layer

An entry point is disciplined in a state when a call that returns leaves the thread with the
locks it came with, and no call waits for a lock the thread holds or gives back one it does not
hold.  Each function keeps the locks it is called with (`Keeps`), whatever the other threads do
while it waits for a lock; the entry points break the rule on one return path of
`vm_handle_fault` and in the prefill loop of `vm_map`.
-/
import YakKernel.VmMap

namespace Vm

open Prog

/-! ## Keeping the locks -/

/-- The failures that are no breach of the discipline: the call does not return. -/
def Failure.Lawful (e : Failure) : Prop := (∀ l, e ≠ .waitsForOwn l) ∧ (∀ l, e ≠ .notOwner l)

/-- From `s`, a program that returns ends with the locks it started with, and it breaks no rule
on the way. -/
def Keeps {α : Type} (env : Env) (s : Vm) (x : VmM α) : Prop :=
  x.Ends env s (fun _ s' => s'.held = s.held) Failure.Lawful

section Keeps

variable {α β : Type} {env : Env} {s : Vm} {m : ℕ} {l : Lock}

theorem Keeps.bind {x : VmM α} {f : α → VmM β} (hx : Keeps env s x)
    (hf : ∀ a s', s'.held = s.held → Keeps env s' (f a)) : Keeps env s (x >>= f) := by
  rw [Keeps, ends_bind]
  refine Ends.imp hx ?_
  intro a s' hs'
  refine Ends.imp (hf a s' hs') ?_
  intro b s'' hs''
  exact hs''.trans hs'

theorem keeps_pure {a : α} : Keeps env s (pure a : VmM α) := rfl

theorem NoMutex.guarded (h : NoMutex s.held) (mode : Option LockMode) :
    NoMutex ((granted env s).setHeld (.map m) mode).held := by
  intro l hl
  rw [setHeld_held, granted_held, Function.update_of_ne (hl m), h l hl]

end Keeps

/-! ## Pages, objects and anons -/

section Heap

variable {env : Env} {s : Vm} {m o n a : ℕ} {l : Lock}

variable {c : MapEntry}

end Heap

/-! ## Page faults -/

/-- Every anon in a slot has an address that the heap will not give out again. -/
def HeapFresh (s : Vm) : Prop := ∀ a i n, s.slot a i = some n → n < s.heapNext

/-- What the other threads may do while a lock is granted: they leave the slots of an amap
alone whose mutex the thread holds, and they take new addresses from the heap. -/
structure Env.Respectful (env : Env) : Prop where
  slots : ∀ t s a, s.held (.amap a) ≠ none →
    ((env.interfere t s).amaps a).slots = (s.amaps a).slots
  heapNext : ∀ t s, s.heapNext ≤ (env.interfere t s).heapNext
  fresh : ∀ t s, HeapFresh s → HeapFresh (env.interfere t s)

section Fault

variable {env : Env} {s : Vm} {m a n : ℕ} {h : Lock → Option LockMode}

theorem HeapFresh.granted (hheap : HeapFresh s) (hres : env.Respectful) (l : Lock)
    (mode : Option LockMode) : HeapFresh ((granted env s).setHeld l mode) :=
  hres.fresh s.clock s hheap

end Fault

/-! ## The entry points -/

/-- A call of an entry point, with its arguments. -/
inductive Call : Type where
  | handleFault (m address : ℕ) (flags : FaultFlags)
  | map (m : ℕ) (obj : Option ℕ) (length offset : ℕ) (prot : Prot) (inheritance : Inheritance)
      (cache hint : ℕ) (flags : MapFlags)
  | mapReserve (m hint length : ℕ) (flags : MapFlags)
  | mapMmio (m deviceAddr length : ℕ) (prot : Prot) (cache : ℕ)
  | protect (m va length : ℕ) (prot : Prot) (flags : MapFlags)
  | unmap (m va length : ℕ) (flags : MapFlags)
  | mapFork (src dst : ℕ)

/-- The status that a call returns. -/
def Call.run : Call → VmM Status
  | .handleFault m address flags => vmHandleFault m address flags
  | .map m obj length offset prot inheritance cache hint flags =>
    Prod.fst <$> vmMap m obj length offset prot inheritance cache hint flags
  | .mapReserve m hint length flags => Prod.fst <$> vmMapReserve m hint length flags
  | .mapMmio m deviceAddr length prot cache =>
    Prod.fst <$> vmMapMmio m deviceAddr length prot cache
  | .protect m va length prot flags => vmProtect m va length prot flags
  | .unmap m va length flags => vmUnmap m va length flags
  | .mapFork src dst => vmMapFork src dst

/-- The call does not succeed in the state given. -/
def Call.Refused (env : Env) (s : Vm) (c : Call) : Prop :=
  ∀ s', c.run env s ≠ .ok (.success, s')

/-- When a call keeps the discipline: the thread does not hold the lock that the call takes; a
fault is no write to an entry without `VM_WRITE`, in the state in which the lock is granted; and
`VM_MAP_PREFILL` is only given for a mapping that cannot be made without it either. -/
def Call.Allowed (env : Env) (s : Vm) : Call → Prop
  | .handleFault m address flags => s.held (.map m) = none ∧
      ∀ entry, vmMapLookupEntryLocked ((granted env s).tree m) (alignDown address)
        = some entry → entry.type ≠ .reserved → flags.write = true →
        entry.protection.write = true
  | .map m obj length offset prot inheritance cache hint flags => s.held (.map m) = none ∧
      (flags.prefill = true → (Call.map m obj length offset prot inheritance cache hint
        { flags with prefill := false }).Refused env s)
  | .mapReserve m _ _ _ => s.held (.map m) = none
  | .mapMmio m _ _ _ _ => s.held (.map m) = none
  | .protect m va length _ flags =>
      ¬ IsAligned va ∨ ¬ IsAligned length ∨ flags.lockHeld = true ∨ s.held (.map m) = none
  | .unmap m _ _ flags => flags.lockHeld = true ∨ s.held (.map m) = none
  | .mapFork src dst => s.held (.map src) = none ∧ s.held (.map dst) = none ∧ src ≠ dst

section Discipline

variable {env : Env} {s : Vm} {m : ℕ}

end Discipline

end Vm
