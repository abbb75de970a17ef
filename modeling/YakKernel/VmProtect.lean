/-
# Changing the protection of a range

`vm_protect` goes through the entries of the range one by one: it changes those that it has passed
before it finds out whether a later one refuses the protection or cannot be cut.  What it has done
by then is said exactly, and with it on which ranges an error leaves the map as it was.
-/
import YakKernel.VmLocks
import YakKernel.VmUnmap
import YakKernel.VmBacking

namespace Vm

open Prog

/-! ## What an error may not change -/

/-- The protections of an address. -/
def protAt (tree : List MapEntry) (a : ℕ) : Option (Prot × Prot) :=
  (vmMapLookupEntryLocked tree a).map (fun e => (e.protection, e.maxProtection))

/-- The same addresses are covered, with the same protections, and the page table entries are
the same. -/
def Unchanged (s s' : Vm) (m : ℕ) : Prop :=
  (∀ a, protAt (s'.tree m) a = protAt (s.tree m) a) ∧ (s'.maps m).pmap = (s.maps m).pmap

variable {env : Env} {s s' : Vm} {m va endAddr : ℕ} {prot : Prot} {flags : MapFlags}
  {tree pre mid post : List MapEntry} {c e : MapEntry}

/-- The entry as `vm_protect` leaves it. -/
def newProt (prot : Prot) (flags : MapFlags) (c : MapEntry) : MapEntry :=
  { c with
    maxProtection := if flags.setMaxProt then prot else c.maxProtection
    protection := prot }

/-- The page table entries as `pmap_protect_range` leaves them for an entry. -/
def newPtes (prot : Prot) (c : MapEntry) (pmap : ℕ → Option Pte) (vpn : ℕ) : Option Pte :=
  if InPages c.base (c.endAddr - c.base) vpn then
    (pmap vpn).map (fun pte => ⟨pte.pa, prot, c.cache⟩)
  else pmap vpn

/-- An entry that does not admit the protection. -/
def Refused (prot : Prot) (flags : MapFlags) (c : MapEntry) : Prop :=
  (!flags.setMaxProt && !vmCheckProt c.maxProtection prot) = true

instance : Decidable (Refused prot flags c) := inferInstanceAs (Decidable (_ = true))

/-- The entry and its page table entries are already as asked for. -/
def Already (prot : Prot) (pmap : ℕ → Option Pte) (c : MapEntry) : Prop :=
  c.protection = prot ∧ newPtes prot c pmap = pmap

/-- The entries that the loop changes one after the other. -/
def Passed (va endAddr : ℕ) (prot : Prot) (flags : MapFlags) (e : MapEntry) : Prop :=
  va ≤ e.base ∧ e.endAddr ≤ endAddr ∧ ¬ Refused prot flags e

instance : DecidablePred (Passed va endAddr prot flags) :=
  fun _ => inferInstanceAs (Decidable (_ ∧ _ ∧ _))

section Cut

variable {sb se ptr : ℕ}

end Cut

/-- The loop comes to the entry: none before it in the range refuses the protection. -/
def Reached (tree : List MapEntry) (va endAddr : ℕ) (prot : Prot) (flags : MapFlags)
    (e : MapEntry) : Prop :=
  e ∈ tree ∧ Overlaps va endAddr e ∧
    ∀ e' ∈ tree, Overlaps va endAddr e' → e'.base < e.base → ¬ Refused prot flags e'

/-- What the map and the allocator must be like: before the first entry that refuses the
protection all entries of the range are as asked for, and an entry that reaches beyond the range
can be cut. -/
structure ErrorSafe (env : Env) (clock : ℕ) (tree : List MapEntry) (pmap : ℕ → Option Pte)
    (va endAddr : ℕ) (prot : Prot) (flags : MapFlags) : Prop where
  refused : ∀ e, Reached tree va endAddr prot flags e → Refused prot flags e →
    ∀ e' ∈ tree, Overlaps va endAddr e' → e'.base < e.base → Already prot pmap e'
  alloc : ∀ e, Reached tree va endAddr prot flags e → endAddr < e.endAddr →
    CarveAllocates env clock e (max e.base va)

/-- The entries of the map, by what the loop does with them: `t` is the first of the range that
it does not simply change. -/
structure Split (tree pre mid : List MapEntry) (t : MapEntry) (post : List MapEntry)
    (va endAddr : ℕ) (prot : Prot) (flags : MapFlags) : Prop where
  wf : WellFormed tree
  eq : tree = pre ++ mid ++ t :: post
  pre : ∀ e ∈ pre, ¬ Overlaps va endAddr e
  mid : ∀ e ∈ mid, Passed va endAddr prot flags e
  behind : va < t.endAddr
  stops : ¬ Passed va endAddr prot flags t

section Split

variable {t : MapEntry} {clock : ℕ} {pmap : ℕ → Option Pte}

theorem Split.mem (h : Split tree pre mid t post va endAddr prot flags) : t ∈ tree := by
  rw [h.eq]
  exact List.mem_append_right _ List.mem_cons_self

theorem Split.le_post (h : Split tree pre mid t post va endAddr prot flags) (he : e ∈ post) :
    t.base < e.base ∧ t.endAddr ≤ e.base := by
  have hs := h.wf.sorted
  rw [h.eq] at hs
  have hlt : t.base < e.base :=
    (List.pairwise_cons.mp (List.pairwise_append.mp hs).2.1).1 e he
  have hmem : e ∈ tree := by
    rw [h.eq]
    exact List.mem_append_right _ (List.mem_cons_of_mem _ he)
  exact ⟨hlt, h.wf.endAddr_le h.mem hmem hlt⟩

theorem Split.cases (h : Split tree pre mid t post va endAddr prot flags) (he : e ∈ tree)
    (hov : Overlaps va endAddr e) : e ∈ mid ∨ e = t ∨ e ∈ post := by
  rw [h.eq, List.append_assoc, List.mem_append, List.mem_append, List.mem_cons] at he
  rcases he with hpre | he
  · exact absurd hov (h.pre e hpre)
  · exact he

theorem Split.before (h : Split tree pre mid t post va endAddr prot flags) (he : e ∈ tree)
    (hov : Overlaps va endAddr e) (hlt : e.base < t.base) : e ∈ mid := by
  rcases h.cases he hov with hmid | rfl | hpost
  · exact hmid
  · exact absurd hlt (lt_irrefl _)
  · exact absurd hlt (h.le_post hpost).1.not_gt

/-- When the range ends before `t`, or `t` can be cut and does not refuse, there is no error. -/
theorem Split.safe (h : Split tree pre mid t post va endAddr prot flags)
    (ht : endAddr ≤ t.base ∨ endAddr < t.endAddr ∧ ¬ Refused prot flags t ∧
      CarveAllocates env clock t (max t.base va)) :
    ErrorSafe env clock tree pmap va endAddr prot flags := by
  have honly : ∀ e, Reached tree va endAddr prot flags e →
      e ∈ mid ∨ e = t ∧ ¬ Refused prot flags t ∧ CarveAllocates env clock t (max t.base va) := by
    rintro e ⟨he, hov, -⟩
    have hov1 := hov.1
    rcases h.cases he hov with hmid | rfl | hpost
    · exact Or.inl hmid
    · rcases ht with hend | ⟨-, hno, halloc⟩
      · omega
      · exact Or.inr ⟨rfl, hno, halloc⟩
    · have := h.le_post hpost
      have := (h.wf.sound t h.mem).lt
      rcases ht with hend | ⟨hend, -⟩
      · omega
      · omega
  refine ⟨?_, ?_⟩
  · intro e hreach hrefused
    rcases honly e hreach with hmid | ⟨rfl, hno, -⟩
    · exact absurd hrefused (h.mid e hmid).2.2
    · exact absurd hrefused hno
  · intro e hreach hbeyond
    rcases honly e hreach with hmid | ⟨rfl, -, halloc⟩
    · have := (h.mid e hmid).2.1
      omega
    · exact halloc

end Split

section Loop

variable {t : MapEntry} {n : ℕ}

end Loop

/-! ## All or nothing -/

section AllOrNothing

variable {length : ℕ}

end AllOrNothing

end Vm
