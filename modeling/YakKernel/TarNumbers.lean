/-
# Numeric fields of a tar header

A numeric field has spaces, octal digits, and a terminator if there is room for one.  `decode_octal`
looks for the end of the digits from behind and keeps the first `NUL` or space of the field, so a
space in front hides the digits; and without a terminator the byte after the field decides.
-/
import YakKernel.TarReading

namespace TarArchive

open Initrd

/-- A legal numeric field. -/
structure NumericField where
  spaces : ℕ
  digits : List Byte
  rest : List Byte
  octal : ∀ d ∈ digits, 48 ≤ d.toNat ∧ d.toNat < 56
  terminated : ∀ t, rest.head? = some t → t = 0 ∨ t = 0x20

/-- The number that some digits denote. -/
def octalValue (digits : List Byte) : ℕ := digits.foldl (fun v d => 8 * v + (d.toNat - 48)) 0

namespace NumericField

def bytes (f : NumericField) : List Byte := List.replicate f.spaces 0x20 ++ (f.digits ++ f.rest)

def value (f : NumericField) : ℕ := octalValue f.digits

/-- The field is decoded, whatever is behind it. -/
def Decodes (f : NumericField) : Prop :=
  ∀ outside, decodeOctal (f.bytes ++ outside) f.bytes.length = f.value

end NumericField

variable {digits rest : List Byte} {sum multiplier : ℕ} {b : Byte}

theorem octalValue_append (digits : List Byte) (d : Byte) :
    octalValue (digits ++ [d]) = 8 * octalValue digits + (d.toNat - 48) := by
  rw [octalValue, List.foldl_append]
  rfl

theorem sumDigits_append (digits rest : List Byte) (b : Byte) (sum multiplier : ℕ) :
    sumDigits (digits ++ b :: rest) (digits.length + 1) sum multiplier =
      sumDigits (digits ++ b :: rest) digits.length
        ((sum + (b.toNat + 2 ^ 64 - 48) * multiplier) % 2 ^ 64) (multiplier * 8 % 2 ^ 64) := by
  have hget : (digits ++ b :: rest).getD digits.length 0 = b := by
    rw [List.getD_append_right _ _ _ _ le_rfl, Nat.sub_self]
    rfl
  rw [sumDigits, hget]

/-- **The digits are summed up**, modulo `2 ^ 64`. -/
theorem sumDigits_octal (hoctal : ∀ d ∈ digits, 48 ≤ d.toNat ∧ d.toNat < 56)
    (hsum : sum < 2 ^ 64) :
    sumDigits (digits ++ rest) digits.length sum multiplier =
      (sum + octalValue digits * multiplier) % 2 ^ 64 := by
  induction digits using List.reverseRecOn generalizing rest sum multiplier with
  | nil =>
    show sum = (sum + 0 * multiplier) % 2 ^ 64
    rw [Nat.zero_mul, Nat.add_zero, Nat.mod_eq_of_lt hsum]
  | append_singleton digits d ih =>
    have hd := hoctal d (by simp)
    have hmem : ∀ d ∈ digits, 48 ≤ d.toNat ∧ d.toNat < 56 :=
      fun d hd => hoctal d (List.mem_append_left _ hd)
    have hdigit : (d.toNat + 2 ^ 64 - 48) * multiplier =
        (d.toNat - 48) * multiplier + 2 ^ 64 * multiplier := by
      rw [show d.toNat + 2 ^ 64 - 48 = (d.toNat - 48) + 2 ^ 64 by omega, Nat.add_mul]
    rw [List.append_assoc, List.length_append, List.length_singleton, List.singleton_append,
      sumDigits_append, ih hmem (Nat.mod_lt _ (by norm_num)), octalValue_append, hdigit,
      ← Nat.add_assoc, Nat.add_mul_mod_self_left]
    calc ((sum + (d.toNat - 48) * multiplier) % 2 ^ 64 +
          octalValue digits * (multiplier * 8 % 2 ^ 64)) % 2 ^ 64
        = (sum + (d.toNat - 48) * multiplier + octalValue digits * (multiplier * 8)) % 2 ^ 64 := by
          rw [Nat.add_mod, Nat.mod_mod, Nat.mul_mod, Nat.mod_mod, ← Nat.mul_mod, ← Nat.add_mod]
      _ = (sum + (8 * octalValue digits + (d.toNat - 48)) * multiplier) % 2 ^ 64 := by
          congr 1
          ring

theorem digit_ne_terminator (hb : 48 ≤ b.toNat ∧ b.toNat < 56) : b ≠ 0 ∧ b ≠ 0x20 := by
  constructor
  · rintro rfl
    exact absurd hb.1 (by decide)
  · rintro rfl
    exact absurd hb.1 (by decide)

theorem digits_ne_terminator (hoctal : ∀ d ∈ digits, 48 ≤ d.toNat ∧ d.toNat < 56) {i : ℕ}
    (hi : i < digits.length) :
    (digits ++ rest).getD i 0 ≠ 0 ∧ (digits ++ rest).getD i 0 ≠ 0x20 := by
  rw [List.getD_append _ _ _ _ hi, List.getD_eq_getElem _ _ hi]
  exact digit_ne_terminator (hoctal _ (List.getElem_mem hi))

/-! ## The three kinds of fields -/

theorem decodeOctal_space (data : List Byte) (size : ℕ) : decodeOctal (0x20 :: data) size = 0 := by
  have hend : findEnd (0x20 :: data) (size + 1) (size + 1) = 0 :=
    findEnd_eq (Nat.succ_pos size) (fun i hi => absurd hi (Nat.not_lt_zero i)) (Or.inr rfl)
  rw [decodeOctal, hend, sumDigits]

theorem decodeOctal_terminated (hoctal : ∀ d ∈ digits, 48 ≤ d.toNat ∧ d.toNat < 56)
    (hb : b = 0 ∨ b = 0x20) (n : ℕ) :
    decodeOctal (digits ++ b :: rest) (digits.length + n) = octalValue digits % 2 ^ 64 := by
  have hget : (digits ++ b :: rest).getD digits.length 0 = b := by
    rw [List.getD_append_right _ _ _ _ le_rfl, Nat.sub_self]
    rfl
  have hend : findEnd (digits ++ b :: rest) (digits.length + n + 1) (digits.length + n + 1) =
      digits.length :=
    findEnd_eq (by omega) (fun i hi => digits_ne_terminator hoctal hi) (by rwa [hget])
  rw [decodeOctal, hend, sumDigits_octal hoctal (by norm_num), Nat.zero_add, Nat.mul_one]

theorem decodeOctal_unterminated (hoctal : ∀ d ∈ digits, 48 ≤ d.toNat ∧ d.toNat < 56)
    (hb : b ≠ 0 ∧ b ≠ 0x20) :
    decodeOctal (digits ++ b :: rest) digits.length =
      (b.toNat + 2 ^ 64 - 48 + 8 * octalValue digits) % 2 ^ 64 := by
  have hget : (digits ++ b :: rest).getD digits.length 0 = b := by
    rw [List.getD_append_right _ _ _ _ le_rfl, Nat.sub_self]
    rfl
  have hend : findEnd (digits ++ b :: rest) (digits.length + 1) (digits.length + 1) =
      digits.length + 1 := by
    refine findEnd_none _ fun i hi => ?_
    rcases Nat.lt_succ_iff_lt_or_eq.mp hi with hlt | rfl
    · exact digits_ne_terminator hoctal hlt
    · rwa [hget]
  have hsum : (0 + (b.toNat + 2 ^ 64 - 48) * 1) % 2 ^ 64 < 2 ^ 64 := Nat.mod_lt _ (by norm_num)
  rw [decodeOctal, hend, sumDigits_append, sumDigits_octal hoctal hsum]
  omega

/-! ## The theorem -/

namespace NumericField

/-- **Which fields are decoded**: those without a space in front, with a terminator, and with a
number that fits; and zeros behind a space. -/
theorem decodes_iff (f : NumericField) :
    f.Decodes ↔ if 0 < f.spaces then f.value = 0 else f.rest ≠ [] ∧ f.value < 2 ^ 64 := by
  obtain ⟨spaces, digits, rest, hoctal, hterm⟩ := f
  cases spaces with
  | succ n =>
    rw [if_pos (Nat.succ_pos n)]
    have hzero : ∀ outside, decodeOctal ((NumericField.mk (n + 1) digits rest hoctal hterm).bytes ++
        outside) (NumericField.mk (n + 1) digits rest hoctal hterm).bytes.length = 0 :=
      fun outside => decodeOctal_space _ _
    constructor
    · exact fun h => (h []).symm.trans (hzero [])
    · exact fun h outside => (hzero outside).trans h.symm
  | zero =>
    rw [if_neg (lt_irrefl 0)]
    have hbytes : (NumericField.mk 0 digits rest hoctal hterm).bytes = digits ++ rest := rfl
    have hvalue : (NumericField.mk 0 digits rest hoctal hterm).value = octalValue digits := rfl
    rw [Decodes, hbytes, hvalue]
    cases rest with
    | nil =>
      -- the digits `0` and `1` behind the field lead to different numbers
      refine ⟨fun h => ?_, fun h => absurd rfl h.1⟩
      have hbyte : ∀ b : Byte, b ≠ 0 ∧ b ≠ 0x20 →
          (b.toNat + 2 ^ 64 - 48 + 8 * octalValue digits) % 2 ^ 64 = octalValue digits := by
        intro b hb
        have hb' := h [b]
        rw [List.append_nil] at hb'
        rw [← decodeOctal_unterminated hoctal hb]
        exact hb'
      have h0 := hbyte 0x30 (by decide)
      have h1 := hbyte 0x31 (by decide)
      have hmod : 48 + 2 ^ 64 - 48 ≡ 49 + 2 ^ 64 - 48 [MOD 2 ^ 64] :=
        Nat.ModEq.add_right_cancel' _ (h0.trans h1.symm)
      exact absurd hmod (by decide)
    | cons t rest =>
      have hdecode : ∀ outside, decodeOctal (digits ++ t :: rest ++ outside)
          (digits ++ t :: rest).length = octalValue digits % 2 ^ 64 := by
        intro outside
        rw [List.append_assoc, List.cons_append, List.length_append]
        exact decodeOctal_terminated hoctal (hterm t rfl) _
      constructor
      · intro h
        have heq := (hdecode []).symm.trans (h [])
        exact ⟨List.cons_ne_nil _ _, heq ▸ Nat.mod_lt _ (by norm_num)⟩
      · intro h outside
        rw [hdecode, Nat.mod_eq_of_lt h.2]

theorem octal_ten : ∀ d ∈ ([0x31, 0x30] : List Byte), 48 ≤ d.toNat ∧ d.toNat < 56 := by
  intro d hd
  rcases List.mem_cons.mp hd with rfl | hd
  · decide
  · obtain rfl := List.mem_singleton.mp hd
    decide

theorem terminated_nul (t : Byte) (h : ([0] : List Byte).head? = some t) : t = 0 ∨ t = 0x20 :=
  Or.inl (Option.some.inj h).symm

theorem terminated_nil (t : Byte) (h : ([] : List Byte).head? = some t) : t = 0 ∨ t = 0x20 :=
  absurd h (by simp)

/-- The digits `10` behind a space. -/
def spaceField : NumericField := ⟨1, [0x31, 0x30], [0], octal_ten, terminated_nul⟩

/-- The digits `10` fill the field. -/
def fullField : NumericField := ⟨0, [0x31, 0x30], [], octal_ten, terminated_nil⟩

/-- Both are not decoded: the one reads as 0, and the other as 64 if another digit follows. -/
theorem not_decodes : ¬ spaceField.Decodes ∧ ¬ fullField.Decodes := by
  constructor
  · exact fun h => absurd (h []) (by decide)
  · exact fun h => absurd (h [0x30]) (by decide)

end NumericField

end TarArchive
