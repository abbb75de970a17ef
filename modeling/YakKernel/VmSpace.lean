/-
# What is in memory

The bytes that a thread finds at the addresses of a map.  A mapping of an object shows the bytes of
the object, until something is written: that goes to the place that the mapping has for it, an
offset of its amap, or of its object if it has no amap.  Pages and page tables do not appear here:
a page fault that can be served changes nothing of this, and one that cannot is a panic.
-/
import YakKernel.Aborts
import YakKernel.VmProtectRange

namespace Vm

open Prog Function

/-! ## Places -/

/-- Where a mapping keeps a byte. -/
structure Place where
  object : Option ℕ
  amap : Option ℕ
  offset : ℕ
  deriving DecidableEq

def View.place (v : View) : Place := ⟨v.object, v.amap, v.offset⟩

/-- The virtual memory layer, and what has been written to the places. -/
structure Space where
  vm : Vm
  written : Place → Option UInt8

/-- What a map says about an address. -/
def Space.view (sp : Space) (m a : ℕ) : Option View := coverage (sp.vm.tree m) a

/-- The byte at an address, if a thread of the kernel can read it; `contents` are the bytes of the
objects. -/
def Space.byteAt (sp : Space) (contents : Option ℕ → ℕ → UInt8) (m a : ℕ) : Option UInt8 :=
  (sp.view m a).bind fun v =>
    if v.type = .obj then some ((sp.written v.place).getD (contents v.object v.offset)) else none

/-- The protection at an address. -/
def Space.protAt (sp : Space) (m a : ℕ) : Option Prot := (sp.view m a).map View.protection

/-! ## Programs that read and write memory -/

/-- Programs that are refused something, or go wrong. -/
abbrev SpaceM := Prog Env (Stop Status Failure) Space

/-- A program of the virtual memory layer. -/
def onVm {α : Type} (x : VmM α) : SpaceM α := fun env sp =>
  ((x env sp.vm).map fun r => (r.1, { sp with vm := r.2 })).mapError .wrong

/-- `TRY`. -/
def attempt (rv : Status) : SpaceM Unit := check (rv.isErr = false) (.refused rv)

/-- Store a byte. -/
def storeByte (m a : ℕ) (b : UInt8) : SpaceM Unit := do
  let sp ← getState
  (sp.view m a).elim (fail (.wrong .panic)) fun v => do
    check (v.type = .obj ∧ v.protection.write = true) (.wrong .panic)
    change (fun sp => { sp with written := update sp.written v.place (some b) })

/-- `memset`. -/
def memset (m : ℕ) (b : UInt8) : ℕ → ℕ → SpaceM Unit
  | _, 0 => pure ()
  | a, n + 1 => do
    storeByte m a b
    memset m b (wadd a 1) n

variable {env : Env} {sp sp' : Space} {m a n hint length offset : ℕ} {prot : Prot} {obj : Option ℕ}
  {entry : MapEntry} {s' : Vm} {b : UInt8} {contents : Option ℕ → ℕ → UInt8}

theorem ends_onVm {α : Type} {x : VmM α} {Q : α → Space → Prop} {R : Stop Status Failure → Prop} :
    (onVm x).Ends env sp Q R ↔
      x.Ends env sp.vm (fun r s => Q r { sp with vm := s }) (fun e => R (.wrong e)) := by
  unfold Ends onVm
  cases x env sp.vm with
  | ok r => exact Iff.rfl
  | error e => exact Iff.rfl

/-! ## Orderly spaces -/

/-- Every mapping has an amap, no two addresses share a place, and nothing has been written to the
amaps that are still to come. -/
structure Orderly (sp : Space) (m : ℕ) : Prop extends Idle sp.vm m where
  amap : ∀ a v, sp.view m a = some v → v.type = .obj → ∃ k, v.amap = some k ∧ k < sp.vm.heapNext
  place : ∀ a a' v v', sp.view m a = some v → sp.view m a' = some v' → v.type = .obj →
    v'.type = .obj → v.place = v'.place → a = a'
  unwritten : ∀ p k, p.amap = some k → sp.vm.heapNext ≤ k → sp.written p = none

/-- The entries of a range that contains all that it overlaps are protected. -/
structure Protecting (s s' : Vm) (m hint endAddr : ℕ) (prot : Prot) : Prop where
  inside : ∀ e ∈ s.tree m, Overlaps hint endAddr e → hint ≤ e.base ∧ e.endAddr ≤ endAddr
  tree : s'.tree m = (s.tree m).map (protectedAs hint endAddr prot)
  heap : s'.heapNext = s.heapNext

theorem Protecting.view {endAddr : ℕ} (h : Protecting sp.vm s' m hint endAddr prot) (a : ℕ) :
    (Space.mk s' sp.written).view m a =
      if hint ≤ a ∧ a < endAddr then
        (sp.view m a).map (fun v => { v with protection := prot, maxProtection := prot })
      else sp.view m a := by
  show coverage (s'.tree m) a = if hint ≤ a ∧ a < endAddr then
    (coverage (sp.vm.tree m) a).map _ else coverage (sp.vm.tree m) a
  rw [h.tree, coverage_protectedAs h.inside]

theorem Protecting.byteAt {endAddr : ℕ} (h : Protecting sp.vm s' m hint endAddr prot) (a : ℕ) :
    (Space.mk s' sp.written).byteAt contents m a = sp.byteAt contents m a := by
  rw [Space.byteAt, Space.byteAt, h.view]
  split
  · cases sp.view m a with
    | none => rfl
    | some v => rfl
  · rfl

theorem Protecting.protAt {endAddr : ℕ} (h : Protecting sp.vm s' m hint endAddr prot) (a : ℕ) :
    (Space.mk s' sp.written).protAt m a =
      if hint ≤ a ∧ a < endAddr then (sp.view m a).map (fun _ => prot) else sp.protAt m a := by
  rw [Space.protAt, h.view]
  split
  · rw [Option.map_map]
    rfl
  · rfl

/-! ## Ranges that show bytes -/

/-- The addresses of a range show bytes, with a protection; the rest is as it was. -/
structure Shows (contents : Option ℕ → ℕ → UInt8) (sp sp' : Space) (m hint length : ℕ)
    (prot : Prot) (bytes : ℕ → UInt8) : Prop where
  orderly : Orderly sp' m
  heap : sp.vm.heapNext ≤ sp'.vm.heapNext
  view : ∀ i < length, ∃ v, sp'.view m (hint + i) = some v ∧ v.type = .obj ∧ v.protection = prot
  byte : ∀ i < length, sp'.byteAt contents m (hint + i) = some (bytes i)
  outside : ∀ a, a < hint ∨ hint + length ≤ a →
    sp'.view m a = sp.view m a ∧ sp'.byteAt contents m a = sp.byteAt contents m a
  entries : ∀ e ∈ sp'.vm.tree m, hint ≤ e.base ∧ e.endAddr ≤ hint + length ∨
    (∃ c ∈ sp.vm.tree m, c.base ≤ e.base ∧ e.endAddr ≤ c.endAddr) ∧
      ¬ Overlaps hint (hint + length) e

variable {sp₁ sp₂ : Space} {length₁ length₂ start : ℕ} {bytes bytes₁ bytes₂ : ℕ → UInt8}

theorem Shows.congr (h : Shows contents sp sp' m hint length prot bytes)
    (heq : ∀ i < length, bytes i = bytes₁ i) : Shows contents sp sp' m hint length prot bytes₁ :=
  ⟨h.orderly, h.heap, h.view, fun i hi => (h.byte i hi).trans (congrArg some (heq i hi)),
    h.outside, h.entries⟩

theorem Shows.append (h₁ : Shows contents sp sp₁ m hint length₁ prot bytes₁)
    (h₂ : Shows contents sp₁ sp₂ m (hint + length₁) length₂ prot bytes₂) :
    Shows contents sp sp₂ m hint (length₁ + length₂) prot
      (fun i => if i < length₁ then bytes₁ i else bytes₂ (i - length₁)) := by
  have hshift : ∀ i, length₁ ≤ i → hint + length₁ + (i - length₁) = hint + i := fun i hi => by omega
  refine ⟨h₂.orderly, h₁.heap.trans h₂.heap, fun i hi => ?_, fun i hi => ?_, fun a ha => ?_,
    fun e he => ?_⟩
  · by_cases hlt : i < length₁
    · rw [(h₂.outside (hint + i) (Or.inl (by omega))).1]
      exact h₁.view i hlt
    · rw [← hshift i (Nat.le_of_not_lt hlt)]
      exact h₂.view _ (by omega)
  · by_cases hlt : i < length₁
    · rw [(h₂.outside (hint + i) (Or.inl (by omega))).2, if_pos hlt]
      exact h₁.byte i hlt
    · rw [← hshift i (Nat.le_of_not_lt hlt), if_neg hlt]
      exact h₂.byte _ (by omega)
  · obtain ⟨hview₁, hbyte₁⟩ := h₁.outside a (by omega)
    obtain ⟨hview₂, hbyte₂⟩ := h₂.outside a (by omega)
    exact ⟨hview₂.trans hview₁, hbyte₂.trans hbyte₁⟩
  · have hlt := (h₂.orderly.wf.sound e he).lt
    rcases h₂.entries e he with ⟨h1, h2⟩ | ⟨⟨c, hc, h1, h2⟩, hno⟩
    · exact Or.inl ⟨by omega, by omega⟩
    · rcases h₁.entries c hc with ⟨h3, h4⟩ | ⟨⟨c', hc', h3, h4⟩, hno'⟩
      · exact Or.inl ⟨by omega, by omega⟩
      · refine Or.inr ⟨⟨c', hc', by omega, by omega⟩, ?_⟩
        unfold Overlaps at hno hno' ⊢
        omega

theorem Shows.store (h : Shows contents sp sp₁ m hint length prot bytes) (hvm : sp₂.vm = sp₁.vm)
    (ho : Orderly sp₂ m) (hstart : hint ≤ start) (hend : start + n ≤ hint + length)
    (hbyte : ∀ x, sp₂.byteAt contents m x =
      if start ≤ x ∧ x < start + n then some b else sp₁.byteAt contents m x) :
    Shows contents sp sp₂ m hint length prot
      (fun i => if start ≤ hint + i ∧ hint + i < start + n then b else bytes i) := by
  have hview : ∀ x, sp₂.view m x = sp₁.view m x := fun x => by rw [Space.view, hvm, Space.view]
  refine ⟨ho, hvm ▸ h.heap, fun i hi => ?_, fun i hi => ?_, fun a ha => ?_, ?_⟩
  · rw [hview]
    exact h.view i hi
  · rw [hbyte, h.byte i hi]
    split
    · rfl
    · rfl
  · rw [hview, hbyte, if_neg (by omega)]
    exact h.outside a ha
  · rw [hvm]
    exact h.entries

theorem Shows.exists_first (h : Shows contents sp sp' m hint length prot bytes)
    (hpos : 0 < length) : ∃ c ∈ sp'.vm.tree m, c.base = hint := by
  obtain ⟨v, hv, -⟩ := h.view 0 hpos
  obtain ⟨e, he, ⟨h1, h2⟩, -⟩ := h.orderly.wf.coverage_iff.mp hv
  rcases h.entries e he with ⟨h3, -⟩ | ⟨-, hno⟩
  · exact ⟨e, he, by omega⟩
  · exact absurd ⟨by omega, by omega⟩ hno

theorem Shows.inside (h : Shows contents sp sp' m hint length prot bytes) :
    ∀ e ∈ sp'.vm.tree m, Overlaps hint (hint + length) e →
      hint ≤ e.base ∧ e.endAddr ≤ hint + length := fun e he hov =>
  (h.entries e he).resolve_right (fun hno => hno.2 hov)

end Vm
