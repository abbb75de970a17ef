/-
# Protecting whole mappings

`vm_protect` with `VM_MAP_SETMAXPROT` over a range that begins with an entry and contains all
entries that it overlaps: none of them is cut or refused, and what they say about the addresses of
the range is the new protection.
-/
import YakKernel.VmProtect
import YakKernel.VmMapFixed

namespace Vm

open Prog

variable {env : Env} {s s' : Vm} {m va length endAddr a : ℕ} {prot : Prot} {c e : MapEntry}
  {tree : List MapEntry}

/-- The flags of `elf_load`. -/
def settingMax : MapFlags := { setMaxProt := true }

/-- An entry as it is left. -/
def protectedAs (va endAddr : ℕ) (prot : Prot) (e : MapEntry) : MapEntry :=
  if Overlaps va endAddr e then newProt prot settingMax e else e

theorem coverage_protectedAs
    (hin : ∀ e ∈ tree, Overlaps va endAddr e → va ≤ e.base ∧ e.endAddr ≤ endAddr) (a : ℕ) :
    coverage (tree.map (protectedAs va endAddr prot)) a =
      if va ≤ a ∧ a < endAddr then
        (coverage tree a).map (fun v => { v with protection := prot, maxProtection := prot })
      else coverage tree a := by
  have hcovers : ((fun e : MapEntry => decide (e.Covers a)) ∘ protectedAs va endAddr prot) =
      fun e => decide (e.Covers a) := by
    funext e
    simp only [Function.comp, protectedAs]
    split
    · rfl
    · rfl
  simp only [coverage, vmMapLookupEntryLocked, List.find?_map, hcovers, Option.map_map]
  cases hfind : tree.find? (fun e => decide (e.Covers a)) with
  | none => simp
  | some e =>
    have hcov : e.Covers a := by simpa using List.find?_some hfind
    have hmem := List.mem_of_find?_eq_some hfind
    obtain ⟨h1, h2⟩ := hcov
    by_cases ha : va ≤ a ∧ a < endAddr
    · have hov : Overlaps va endAddr e := ⟨by omega, by omega⟩
      simp only [Option.map_some, Function.comp, protectedAs, if_pos hov, if_pos ha]
      rfl
    · have hov : ¬ Overlaps va endAddr e := fun hov => by
        have := hin e hmem hov
        omega
      simp only [Option.map_some, Function.comp, protectedAs, if_neg hov, if_neg ha]

end Vm
