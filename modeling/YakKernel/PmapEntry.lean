/-
# The address and the flags of a page table entry

`pte_make` puts an address and flags into one word by `|`: the address reads back, and the flags
are those of the protection and the cache mode, as far as the address stays inside its field.
-/
import YakKernel.Pmap

namespace Pmap

/-! ## Masks -/

section Mask

variable {w : ℕ} {x m : BitVec w}

theorem and_not_of_and_eq_zero (h : x &&& m = 0) : x &&& ~~~m = x := by
  ext i hi
  have hbit : (x &&& m)[i] = (0 : BitVec w)[i] := by rw [h]
  simp only [BitVec.getElem_and, BitVec.getElem_not] at hbit ⊢
  cases hx : x[i]
  · rfl
  · rw [hx, Bool.true_and] at hbit
    rw [hbit]
    simp

theorem and_not_of_and_eq_self (h : x &&& m = x) : x &&& ~~~m = 0 := by
  ext i hi
  have hbit : (x &&& m)[i] = x[i] := by rw [h]
  simp only [BitVec.getElem_and, BitVec.getElem_not] at hbit ⊢
  cases hm : m[i]
  · rw [hm, Bool.and_false] at hbit
    rw [← hbit]
    simp
  · simp

end Mask

theorem pteAddress_toNat : pteAddress.toNat = (2 ^ 40 - 1) * 2 ^ 12 := by decide

theorem ptePaddr_toNat (pte : Pte) :
    (ptePaddr pte).toNat = pte.toNat / 2 ^ 12 % 2 ^ 40 * 2 ^ 12 := by
  rw [ptePaddr, BitVec.toNat_and, pteAddress_toNat]
  apply Nat.eq_of_testBit_eq
  intro i
  rw [Nat.testBit_and, Nat.testBit_mul_two_pow, Nat.testBit_mul_two_pow, Nat.testBit_two_pow_sub_one,
    Nat.testBit_mod_two_pow, Nat.testBit_div_two_pow]
  by_cases hi : 12 ≤ i
  · simp only [hi, decide_true, Bool.true_and, Nat.sub_add_cancel hi]
    exact Bool.and_comm _ _
  · simp [hi]

/-- An address inside the field reads back; the offset in the page does not belong to it. -/
theorem ptePaddr_ofNat {frame off : ℕ} (halign : frame % 4096 = 0) (hoff : off < 4096)
    (hlt : frame < 2 ^ 52) : ptePaddr (BitVec.ofNat 64 (frame + off)) = BitVec.ofNat 64 frame := by
  apply BitVec.eq_of_toNat_eq
  rw [ptePaddr_toNat, BitVec.toNat_ofNat, BitVec.toNat_ofNat]
  omega

/-! ## Flags -/

/-- The flags that `pte_make` gives. -/
def pteFlags (level : ℕ) (prot : VmProt) (cache : VmCache) : Pte := pteMake level 0 prot cache

theorem pteMake_eq (level : ℕ) (pa : Paddr) (prot : VmProt) (cache : VmCache) :
    pteMake level pa prot cache = pteFlags level prot cache ||| pa := by
  unfold pteFlags pteMake
  exact congrArg (fun flags : Pte => flags ||| pa) BitVec.or_zero.symm

theorem ite_and_eq_zero {c : Prop} [Decidable c] {x y m : Pte} (hx : x &&& m = 0)
    (hy : y &&& m = 0) : (if c then x else y) &&& m = 0 := by
  split
  · exact hx
  · exact hy

theorem or_and_eq_zero {x y m : Pte} (hx : x &&& m = 0) (hy : y &&& m = 0) :
    (x ||| y) &&& m = 0 := by
  rw [BitVec.and_or_distrib_right, hx, hy]
  exact BitVec.or_zero

theorem pteFlags_and_address (prot : VmProt) (cache : VmCache) :
    pteFlags 0 prot cache &&& pteAddress = 0 := by
  have hpat : ptePatBits 0 cache &&& pteAddress = 0 := by
    refine ite_and_eq_zero (by decide) (ite_and_eq_zero (by decide) (ite_and_eq_zero (by decide)
      (ite_and_eq_zero (by decide) (by decide))))
  unfold pteFlags pteMake
  refine or_and_eq_zero (or_and_eq_zero (or_and_eq_zero (or_and_eq_zero (or_and_eq_zero
    (or_and_eq_zero (or_and_eq_zero ?_ ?_) ?_) ?_) ?_) ?_) hpat) (by decide)
  all_goals exact ite_and_eq_zero (by decide) (by decide)

/-- **The address reads back.** -/
theorem ptePaddr_make (pa : Paddr) (prot : VmProt) (cache : VmCache) :
    ptePaddr (pteMake 0 pa prot cache) = ptePaddr pa := by
  rw [pteMake_eq, ptePaddr, BitVec.and_or_distrib_right, pteFlags_and_address]
  exact BitVec.zero_or

/-- **The flags are exact** when the offset in the page has no bit of its own. -/
theorem flags_make_iff {frame off : ℕ} (halign : frame % 4096 = 0) (hoff : off < 4096)
    (hlt : frame < 2 ^ 52) (prot : VmProt) (cache : VmCache) :
    pteMake 0 (BitVec.ofNat 64 (frame + off)) prot cache &&& ~~~pteAddress
        = pteFlags 0 prot cache ↔
      pteFlags 0 prot cache ||| BitVec.ofNat 64 off = pteFlags 0 prot cache := by
  have hsum : BitVec.ofNat 64 (frame + off) = BitVec.ofNat 64 frame ||| BitVec.ofNat 64 off := by
    have hframe : frame = 2 ^ 12 * (frame / 4096) := by omega
    have hor : frame + off = frame ||| off := by
      rw [hframe]
      exact Nat.two_pow_add_eq_or_of_lt hoff (frame / 4096)
    rw [hor, BitVec.ofNat_or]
  have hf : BitVec.ofNat 64 frame &&& ~~~pteAddress = 0 :=
    and_not_of_and_eq_self (@ptePaddr_ofNat _ 0 halign (by omega) hlt)
  have ho : BitVec.ofNat 64 off &&& ~~~pteAddress = BitVec.ofNat 64 off := by
    have hzero := @ptePaddr_ofNat 0 off rfl hoff (by omega)
    rw [Nat.zero_add] at hzero
    exact and_not_of_and_eq_zero hzero
  rw [pteMake_eq, BitVec.and_or_distrib_right, hsum, BitVec.and_or_distrib_right, hf, ho,
    and_not_of_and_eq_zero (pteFlags_and_address prot cache)]
  rw [show (0 : Pte) ||| BitVec.ofNat 64 off = BitVec.ofNat 64 off from BitVec.zero_or]

end Pmap
