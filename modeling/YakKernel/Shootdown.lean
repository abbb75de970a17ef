/-
# Activating a map, and shooting translations down

`vm_map_activate` loads the root of a page table and then marks the processor in `mapped_on`;
`do_tlb_shootdown` interrupts the processors that are marked.  Each store of either is a step, a
word of the mask is read at once, and a processor may cache a translation of its root at any
time.  Translations of the upper half, which all page tables share, are not modelled.
-/
import YakKernel.TransitionSystem
import Mathlib.Tactic

namespace Shootdown

/-! ## The machine -/

/-- The processors that are online and their words in a mask, the kernel's page table, and the
processors of the threads that change page tables. -/
structure Machine (C P I W : Type) where
  cpus : List C
  mem_cpus : ∀ c, c ∈ cpus
  word : C → W
  words : List W
  word_mem : ∀ c, word c ∈ words
  kernel : P
  cpuOf : I → C

/-- Where a processor is in `vm_map_activate`: after the load of the root, after the store of
`current_map`, or after the old bit was cleared. -/
inductive Activation (P : Type) where
  | idle
  | loaded (old : Option P) (new : P)
  | stored (old : Option P) (new : P)
  | cleared (new : P)
  deriving DecidableEq

/-- Where a thread is in changing a page table: it stores entries, or goes through the words of
the mask that are left and the processors of the word it has read. -/
inductive Phase (C W : Type) where
  | storing
  | sending (left : List W) (todo : List C)
  deriving DecidableEq

/-- A change of a page table: the pages whose entries were stored, those that are not yet
invalidated on the thread's own processor, and the processors that have not yet acknowledged. -/
structure Change (C P V W : Type) where
  pmap : P
  pages : List V
  unflushed : List V
  phase : Phase C W
  waiting : List C
  deriving DecidableEq

/-- The loaded roots, the masks, the page tables and what the processors have cached; an entry 0 is
not present. -/
structure State (C P V I W : Type) where
  root : C → P
  current : C → Option P
  activation : C → Activation P
  mappedOn : P → C → Bool
  pte : P → V → ℕ
  tlb : C → V → Option ℕ
  changes : I → Option (Change C P V W)

/-- The steps: those of `vm_map_activate`, those of a change with its shootdown, and the caching of
a translation.  `mapFresh` is `pmap_map` at an entry that is not present; a handler may flush more
than the range. -/
inductive Event (C P V I W : Type) where
  | activate (c : C) (map : P)
  | storeCurrent (c : C)
  | clearOld (c : C)
  | setNew (c : C)
  | store (i : I) (p : P) (v : V) (pte : ℕ)
  | mapFresh (p : P) (v : V) (pte : ℕ)
  | invalidate (i : I) (v : V)
  | shootdown (i : I)
  | readWord (i : I)
  | send (i : I)
  | handle (i : I) (c : C) (all : Bool)
  | finish (i : I)
  | fill (c : C) (v : V)

variable {C P V I W : Type}

/-! ## The steps -/

/-- Another entry is stored by the change. -/
def Change.store (ch : Change C P V W) (v : V) : Change C P V W :=
  { ch with pages := v :: ch.pages, unflushed := v :: ch.unflushed }

/-- The first entry is stored. -/
def Change.first (p : P) (v : V) : Change C P V W where
  pmap := p
  pages := [v]
  unflushed := [v]
  phase := .storing
  waiting := []

variable [DecidableEq C] [DecidableEq P] [DecidableEq V] [DecidableEq I] [DecidableEq W]

@[simps -fullyApplied]
def State.setChange (s : State C P V I W) (i : I) (ch : Option (Change C P V W)) :
    State C P V I W :=
  { s with changes := Function.update s.changes i ch }

@[simps -fullyApplied]
def State.setActivation (s : State C P V I W) (c : C) (a : Activation P) : State C P V I W :=
  { s with activation := Function.update s.activation c a }

@[simps -fullyApplied]
def State.setMapped (s : State C P V I W) (p : P) (c : C) (b : Bool) : State C P V I W :=
  { s with mappedOn := Function.update s.mappedOn p (Function.update (s.mappedOn p) c b) }

@[simps -fullyApplied]
def State.setPte (s : State C P V I W) (p : P) (v : V) (pte : ℕ) : State C P V I W :=
  { s with pte := Function.update s.pte p (Function.update (s.pte p) v pte) }

@[simps -fullyApplied]
def State.setTlb (s : State C P V I W) (c : C) (entries : V → Option ℕ) : State C P V I W :=
  { s with tlb := Function.update s.tlb c entries }

/-- The start of `vm_map_activate`: another root is loaded, and what was cached is lost. -/
def State.activate (s : State C P V I W) (c : C) (map : P) : State C P V I W :=
  if s.current c = some map then s.setActivation c (.loaded (s.current c) map)
  else { (s.setActivation c (.loaded (s.current c) map)).setTlb c (fun _ => none) with
    root := Function.update s.root c map }

/-- `if (old != NULL) bitset_atomic_clear(&old->pmap.mapped_on, cpuid())`. -/
def State.clearOld (s : State C P V I W) (c : C) (old : Option P) : State C P V I W :=
  match old with
  | none => s
  | some p => s.setMapped p c false

/-- The bit of a processor in the mask of a shootdown: `mapped_on`, or for the kernel's page table
`cpumask_active`. -/
def State.bit (m : Machine C P I W) (s : State C P V I W) (p : P) (c : C) : Bool :=
  p = m.kernel || s.mappedOn p c

/-- The processors of a word of the mask that are interrupted. -/
def State.targets (m : Machine C P I W) (s : State C P V I W) (i : I) (p : P) (w : W) : List C :=
  m.cpus.filter (fun c => m.word c = w ∧ s.bit m p c ∧ c ≠ m.cpuOf i)

/-- What is left of the cached translations after `shootdown_handler`. -/
def flushed (entries : V → Option ℕ) (pages : List V) (all : Bool) (v : V) : Option ℕ :=
  if all ∨ v ∈ pages then none else entries v

/-- The step of an event. -/
def step (m : Machine C P I W) (s : State C P V I W) (e : Event C P V I W) :
    Option (State C P V I W) :=
  match e with
  | .activate c map => if s.activation c = .idle then some (s.activate c map) else none
  | .storeCurrent c =>
    match s.activation c with
    | .loaded old new => some { s.setActivation c (.stored old new) with
        current := Function.update s.current c (some new) }
    | _ => none
  | .clearOld c =>
    match s.activation c with
    | .stored old new => some ((s.clearOld c old).setActivation c (.cleared new))
    | _ => none
  | .setNew c =>
    match s.activation c with
    | .cleared new => some ((s.setMapped new c true).setActivation c .idle)
    | _ => none
  | .store i p v pte =>
    match s.changes i with
    | none => some ((s.setPte p v pte).setChange i (some (Change.first p v)))
    | some ch =>
      if ch.pmap = p ∧ ch.phase = .storing then
        some ((s.setPte p v pte).setChange i (some (ch.store v)))
      else none
  | .mapFresh p v pte => if s.pte p v = 0 then some (s.setPte p v pte) else none
  | .invalidate i v =>
    (s.changes i).map (fun ch =>
      (s.setTlb (m.cpuOf i) (Function.update (s.tlb (m.cpuOf i)) v none)).setChange i
        (some { ch with unflushed := ch.unflushed.filter (fun v' => v' ≠ v) }))
  | .shootdown i =>
    (s.changes i).bind (fun ch =>
      if ch.phase = .storing ∧ ch.unflushed = [] then
        -- `cpus_online() == 1`
        if m.cpus.length = 1 then some (s.setChange i none)
        else some (s.setChange i (some { ch with phase := .sending m.words [] }))
      else none)
  | .readWord i =>
    (s.changes i).bind (fun ch =>
      match ch.phase with
      | .sending (w :: left) [] => some (s.setChange i
          (some { ch with phase := .sending left (s.targets m i ch.pmap w) }))
      | _ => none)
  | .send i =>
    (s.changes i).bind (fun ch =>
      match ch.phase with
      | .sending left (c :: todo) => some (s.setChange i
          (some { ch with phase := .sending left todo, waiting := c :: ch.waiting }))
      | _ => none)
  | .handle i c all =>
    (s.changes i).bind (fun ch =>
      if c ∈ ch.waiting then
        some ((s.setTlb c (flushed (s.tlb c) ch.pages all)).setChange i
          (some { ch with waiting := ch.waiting.erase c }))
      else none)
  | .finish i =>
    (s.changes i).bind (fun ch =>
      if ch.phase = .sending [] [] ∧ ch.waiting = [] then some (s.setChange i none) else none)
  | .fill c v =>
    if s.pte (s.root c) v = 0 then none
    else some (s.setTlb c (Function.update (s.tlb c) v (some (s.pte (s.root c) v))))

/-- No processor is in `vm_map_activate`, every mask agrees with the current maps, and nothing is
cached. -/
structure State.Initial (m : Machine C P I W) (s : State C P V I W) : Prop where
  activation : ∀ c, s.activation c = .idle
  current : ∀ c, s.current c = some (s.root c) ∨ (s.current c = none ∧ s.root c = m.kernel)
  mappedOn : ∀ p c, s.mappedOn p c = true ↔ s.current c = some p
  tlb : ∀ c v, s.tlb c v = none
  changes : ∀ i, s.changes i = none

/-- The machine, from any such state on. -/
def system (V : Type) [DecidableEq V] (m : Machine C P I W) :
    TransitionSystem (State C P V I W) (Event C P V I W) where
  init := State.Initial m
  step := step m

/-! ## What is to hold -/

section

omit [DecidableEq C] [DecidableEq P] [DecidableEq V] [DecidableEq I] [DecidableEq W]

/-- `mapped_on` of every user page table has every processor whose loaded root it is. -/
def State.Covers (m : Machine C P I W) (s : State C P V I W) : Prop :=
  ∀ p c, p ≠ m.kernel → s.root c = p → s.mappedOn p c = true

/-- A processor has cached what its page table does not say. -/
def State.Stale (s : State C P V I W) (c : C) (v : V) : Prop :=
  ∃ pte, s.tlb c v = some pte ∧ pte ≠ s.pte (s.root c) v

/-- A translation is stale only while a change of its entry is in progress: not after the
shootdown has returned. -/
def State.NoneStale (s : State C P V I W) : Prop :=
  ∀ c v, s.Stale c v → ∃ i ch, s.changes i = some ch ∧ ch.pmap = s.root c ∧ v ∈ ch.pages

/-- Processor `c` is opening page table `p`: it has loaded the root, or cleared the bit of the map
that it activates again, and has not yet set the bit. -/
def Activation.Opening (a : Activation P) (p : P) : Prop :=
  match a with
  | .idle => False
  | .loaded old new => new = p ∧ old ≠ some p
  | .stored old new => new = p ∧ old ≠ some p
  | .cleared new => new = p

/-- The word of the mask that is read next. -/
def Phase.next : Phase C W → Option W
  | .sending (w :: _) [] => some w
  | _ => none

/-- **The condition on a step.**  When a word of the mask is read, no other processor of the word is
opening the page table. -/
def Settled (m : Machine C P I W) (s : State C P V I W) : Event C P V I W → Prop
  | .readWord i => ∀ ch ∈ s.changes i, ∀ c ∈ m.cpus, c ≠ m.cpuOf i →
      ch.phase.next = some (m.word c) → ¬ (s.activation c).Opening ch.pmap
  | _ => True

end

instance (a : Activation P) (p : P) : Decidable (a.Opening p) :=
  match a with
  | .idle => inferInstanceAs (Decidable False)
  | .loaded old new => inferInstanceAs (Decidable (new = p ∧ old ≠ some p))
  | .stored old new => inferInstanceAs (Decidable (new = p ∧ old ≠ some p))
  | .cleared new => inferInstanceAs (Decidable (new = p))

instance (m : Machine C P I W) (s : State C P V I W) (e : Event C P V I W) :
    Decidable (Settled m s e) :=
  match e with
  | .readWord i => inferInstanceAs (Decidable (∀ ch ∈ s.changes i, ∀ c ∈ m.cpus, c ≠ m.cpuOf i →
      ch.phase.next = some (m.word c) → ¬ (s.activation c).Opening ch.pmap))
  | .activate .. => inferInstanceAs (Decidable True)
  | .storeCurrent _ => inferInstanceAs (Decidable True)
  | .clearOld _ => inferInstanceAs (Decidable True)
  | .setNew _ => inferInstanceAs (Decidable True)
  | .store .. => inferInstanceAs (Decidable True)
  | .mapFresh .. => inferInstanceAs (Decidable True)
  | .invalidate .. => inferInstanceAs (Decidable True)
  | .shootdown _ => inferInstanceAs (Decidable True)
  | .send _ => inferInstanceAs (Decidable True)
  | .handle .. => inferInstanceAs (Decidable True)
  | .finish _ => inferInstanceAs (Decidable True)
  | .fill .. => inferInstanceAs (Decidable True)

end Shootdown
