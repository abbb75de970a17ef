/-
# Reading what is written in a header

The numbers and texts that the code reads from a header are those that are written there, but
for texts that fill their field: there the text goes on with the field that follows.
-/
import Mathlib.Data.List.GetD
import YakKernel.TarArchive

namespace TarArchive

open Initrd

/-! ## Numbers -/

@[simp] theorem length_octalDigits (width n : ℕ) : (octalDigits width n).length = width := by
  induction width generalizing n with
  | zero => rfl
  | succ width ih => rw [octalDigits, List.length_append, ih, List.length_singleton]

theorem toNat_digit (n : ℕ) : (UInt8.ofNat (48 + n % 8)).toNat = 48 + n % 8 := by
  rw [UInt8.toNat_ofNat']
  omega

theorem mem_octalDigits {width n : ℕ} {b : Byte} (h : b ∈ octalDigits width n) :
    48 ≤ b.toNat := by
  induction width generalizing n with
  | zero => simp [octalDigits] at h
  | succ width ih =>
    rw [octalDigits, List.mem_append, List.mem_singleton] at h
    rcases h with h | rfl
    · exact ih h
    · rw [toNat_digit]
      omega

theorem notMem_octalDigits {width n : ℕ} {b : Byte} (hb : b.toNat < 48) :
    b ∉ octalDigits width n := fun h => absurd (mem_octalDigits h) (by omega)

theorem findEnd_none {data : List Byte} {n : ℕ} (count : ℕ)
    (hdigits : ∀ i < n, data.getD i 0 ≠ 0 ∧ data.getD i 0 ≠ 0x20) :
    findEnd data n count = count := by
  induction n generalizing count with
  | zero => rfl
  | succ n ih =>
    obtain ⟨h1, h2⟩ := hdigits n (by omega)
    rw [findEnd, if_neg (by rintro (h | h); exacts [h1 h, h2 h])]
    exact ih count fun i hi => hdigits i (by omega)

theorem findEnd_eq {data : List Byte} {k n count : ℕ} (hk : k < n)
    (hdigits : ∀ i < k, data.getD i 0 ≠ 0 ∧ data.getD i 0 ≠ 0x20)
    (hend : data.getD k 0 = 0 ∨ data.getD k 0 = 0x20) :
    findEnd data n count = k := by
  induction n generalizing count with
  | zero => omega
  | succ n ih =>
    rw [findEnd]
    by_cases hn : k = n
    · rw [← hn, if_pos hend]
      exact findEnd_none k hdigits
    · exact ih (by omega)

theorem sumDigits_eq {width n sum multiplier : ℕ} {rest : List Byte} (hn : n < 8 ^ width)
    (hsum : sum < multiplier) (hlt : multiplier * 8 ^ width < 2 ^ 64) :
    sumDigits (octalDigits width n ++ rest) width sum multiplier = sum + n * multiplier := by
  induction width generalizing n sum multiplier rest with
  | zero =>
    have hzero : n = 0 := by simpa using hn
    rw [sumDigits, hzero, Nat.zero_mul, Nat.add_zero]
  | succ width ih =>
    have hdigit : (octalDigits (width + 1) n ++ rest).getD width 0 = UInt8.ofNat (48 + n % 8) := by
      rw [octalDigits, List.append_assoc, List.getD_eq_getElem?_getD,
        List.getElem?_append_right (by rw [length_octalDigits]), length_octalDigits, Nat.sub_self]
      rfl
    have hpow : 8 ^ (width + 1) = 8 * 8 ^ width := by rw [Nat.pow_succ, Nat.mul_comm]
    have hdiv : n / 8 < 8 ^ width := by
      rw [hpow] at hn
      omega
    have hmul : multiplier * 8 * 8 ^ width < 2 ^ 64 := by
      rw [Nat.mul_assoc, ← hpow]
      exact hlt
    have hmul8 : multiplier * 8 < 2 ^ 64 :=
      (Nat.le_mul_of_pos_right _ (Nat.pow_pos (by decide))).trans_lt hmul
    have hnew : sum + n % 8 * multiplier < multiplier * 8 := by
      have hle : n % 8 * multiplier ≤ 7 * multiplier := Nat.mul_le_mul_right _ (by omega)
      omega
    have hstep : (sum + (48 + n % 8 + 2 ^ 64 - 48) * multiplier) % 2 ^ 64
        = sum + n % 8 * multiplier := by
      have hsplit : sum + (48 + n % 8 + 2 ^ 64 - 48) * multiplier
          = sum + n % 8 * multiplier + 2 ^ 64 * multiplier := by
        rw [show 48 + n % 8 + 2 ^ 64 - 48 = n % 8 + 2 ^ 64 by omega, Nat.add_mul, Nat.add_assoc]
      rw [hsplit, Nat.add_mul_mod_self_left, Nat.mod_eq_of_lt (hnew.trans hmul8)]
    rw [sumDigits, hdigit, toNat_digit, hstep, Nat.mod_eq_of_lt hmul8, octalDigits,
      List.append_assoc, ih hdiv hnew hmul]
    have hn8 : n = n % 8 + 8 * (n / 8) := (Nat.mod_add_div n 8).symm
    calc sum + n % 8 * multiplier + n / 8 * (multiplier * 8)
        = sum + (n % 8 + 8 * (n / 8)) * multiplier := by ring
      _ = sum + n * multiplier := by rw [← hn8]

/-- **A number reads back.** -/
theorem decodeOctal_field {width n : ℕ} {rest : List Byte} (hwidth : width < 20)
    (hn : n < 8 ^ width) : decodeOctal (octalField (width + 1) n ++ rest) (width + 1) = n := by
  have hdata : octalField (width + 1) n ++ rest = octalDigits width n ++ (0 :: rest) := by
    rw [octalField, Nat.add_sub_cancel, List.append_assoc]
    rfl
  have hend : findEnd (octalDigits width n ++ (0 :: rest)) (width + 1 + 1) (width + 1 + 1)
      = width := by
    apply findEnd_eq (by omega)
    · intro i hi
      have hmem : (octalDigits width n ++ (0 :: rest)).getD i 0 ∈ octalDigits width n := by
        rw [List.getD_append _ _ _ _ (by rwa [length_octalDigits]),
          List.getD_eq_getElem _ _ (by rwa [length_octalDigits])]
        exact List.getElem_mem _
      constructor
      · exact ne_of_mem_of_not_mem hmem (notMem_octalDigits (by decide))
      · exact ne_of_mem_of_not_mem hmem (notMem_octalDigits (by decide))
    · rw [List.getD_append_right _ _ _ _ (by rw [length_octalDigits]), length_octalDigits,
        Nat.sub_self]
      exact Or.inl rfl
  have hpow : 1 * 8 ^ width < 2 ^ 64 := by
    rw [Nat.one_mul]
    calc 8 ^ width < 8 ^ 20 := Nat.pow_lt_pow_right (by decide) hwidth
      _ < 2 ^ 64 := by decide
  rw [decodeOctal, hdata, hend, sumDigits_eq hn (by decide) hpow, Nat.zero_add, Nat.mul_one]

/-! ## Texts -/

variable {width : ℕ} {text rest : List Byte}

theorem length_pad (h : text.length ≤ width) : (pad width text).length = width := by
  rw [pad, List.length_append, List.length_replicate]
  omega

theorem cstr_append (h : 0 ∉ text) : cstr (text ++ rest) = text ++ cstr rest := by
  rw [cstr, List.takeWhile_append_of_pos]
  · rfl
  · intro b hb
    rw [decide_eq_true_eq]
    rintro rfl
    exact h hb

theorem cstr_zero : cstr (0 :: rest) = [] := by
  rw [cstr, List.takeWhile_cons_of_neg (by simp)]

theorem cstr_pad (h : 0 ∉ text) (hlt : text.length < width) :
    cstr (pad width text ++ rest) = text := by
  obtain ⟨k, hk⟩ : ∃ k, width - text.length = k + 1 := ⟨width - text.length - 1, by omega⟩
  rw [pad, hk, List.replicate_succ, List.append_assoc, List.cons_append, cstr_append h, cstr_zero,
    List.append_nil]

theorem cstr_pad_full (h : 0 ∉ text) (heq : text.length = width) :
    cstr (pad width text ++ rest) = text ++ cstr rest := by
  rw [pad, heq, Nat.sub_self, List.replicate_zero, List.append_nil, cstr_append h]

/-! ## Headers -/

theorem length_octalField (hwidth : 0 < width) (n : ℕ) : (octalField width n).length = width := by
  rw [octalField, List.length_append, length_octalDigits, List.length_singleton]
  omega

theorem length_magicField (gnu : Bool) : (magicField gnu).length = 8 := by
  cases gnu
  · rfl
  · rfl

variable {h : Header} {body : List Byte}

/-- The widths of the fields. -/
def fieldWidths : List ℕ := [100, 8, 8, 8, 12, 12, 8, 1, 100, 8, 80, 155, 12]

theorem Header.Valid.widths (hv : h.Valid) : h.fields.map List.length = fieldWidths := by
  simp only [Header.fields, List.map_cons, List.map_nil, length_pad hv.name_le,
    length_pad hv.link_le, length_pad hv.pfx_le, length_octalField (show 0 < 8 by decide),
    length_octalField (show 0 < 12 by decide), length_magicField, h.info.length_chksum,
    h.info.length_owner, List.length_singleton, List.length_replicate, fieldWidths]

theorem drop_flatten {α : Type*} (ls : List (List α)) (k : ℕ) :
    ls.flatten.drop ((ls.map List.length).take k).sum = (ls.drop k).flatten := by
  induction ls generalizing k with
  | nil => simp
  | cons l ls ih =>
    cases k with
    | zero => rfl
    | succ k =>
      rw [List.map_cons, List.take_succ_cons, List.sum_cons, List.flatten_cons, List.drop_append,
        List.drop_eq_nil_of_le (by omega), Nat.add_sub_cancel_left, ih, List.drop_succ_cons]
      rfl

theorem Header.Valid.length_bytes (hv : h.Valid) : h.bytes.length = 512 := by
  rw [Header.bytes, List.length_flatten, hv.widths]
  rfl

theorem Header.Valid.drop_field (hv : h.Valid) (k : ℕ) :
    (h.bytes ++ body).drop (fieldWidths.take k).sum = (h.fields.drop k).flatten ++ body := by
  have hdrop := drop_flatten h.fields k
  rw [hv.widths] at hdrop
  have hle : (fieldWidths.take k).sum ≤ h.bytes.length := by
    rw [hv.length_bytes]
    have hsum := List.sum_take_add_sum_drop fieldWidths k
    have hall : fieldWidths.sum = 512 := rfl
    omega
  rw [List.drop_append_of_le_length hle, Header.bytes, hdrop]

/-- The name as the code reads it: one that fills its field goes on with the mode. -/
def Header.readName (h : Header) : List Byte :=
  if h.name.length < 100 then h.name else h.name ++ octalDigits 7 h.info.mode

/-- The link target as the code reads it: one that fills its field goes on with the magic. -/
def Header.readLink (h : Header) : List Byte :=
  if h.link.length < 100 then h.link else h.link ++ magicText h.info.gnu

theorem Header.Valid.read_name (hv : h.Valid) : cstr (h.bytes ++ body) = h.readName := by
  have hbytes : h.bytes ++ body = pad 100 h.name ++ (octalField 8 h.info.mode ++
      ((h.fields.drop 2).flatten ++ body)) := by
    simp [Header.bytes, Header.fields]
  rw [hbytes, Header.readName]
  split
  · rename_i hlt
    exact cstr_pad hv.name_text hlt
  · have hdigits : (0 : Byte) ∉ octalDigits 7 h.info.mode := notMem_octalDigits (by decide)
    rw [cstr_pad_full hv.name_text (by have := hv.name_le; omega), octalField, List.append_assoc,
      cstr_append hdigits, List.singleton_append, cstr_zero, List.append_nil]

theorem Header.Valid.read_link (hv : h.Valid) :
    cstr ((h.bytes ++ body).drop 157) = h.readLink := by
  have hdrop : (h.bytes ++ body).drop 157 = pad 100 h.link ++ (magicField h.info.gnu ++
      ((h.fields.drop 10).flatten ++ body)) := by
    rw [show 157 = (fieldWidths.take 8).sum from rfl, hv.drop_field]
    simp [Header.fields]
  rw [hdrop, Header.readLink]
  split
  · rename_i hlt
    exact cstr_pad hv.link_text hlt
  · rw [cstr_pad_full hv.link_text (by have := hv.link_le; omega)]
    cases h.info.gnu
    · rfl
    · rfl

theorem Header.Valid.read_pfx (hv : h.Valid) : cstr ((h.bytes ++ body).drop 345) = h.pfx := by
  have hdrop : (h.bytes ++ body).drop 345
      = pad 155 h.pfx ++ (List.replicate 12 0 ++ body) := by
    rw [show 345 = (fieldWidths.take 11).sum from rfl, hv.drop_field]
    simp [Header.fields]
  rw [hdrop]
  by_cases hlt : h.pfx.length < 155
  · exact cstr_pad hv.pfx_text hlt
  · rw [cstr_pad_full hv.pfx_text (by have := hv.pfx_le; omega), List.replicate_succ,
      List.cons_append, cstr_zero, List.append_nil]

theorem Header.Valid.read_attr (hv : h.Valid) :
    (⟨decodeOctal ((h.bytes ++ body).drop 100) 8, decodeOctal ((h.bytes ++ body).drop 108) 8,
      decodeOctal ((h.bytes ++ body).drop 116) 8, decodeOctal ((h.bytes ++ body).drop 136) 12⟩ :
        Vattr) = h.info.attr := by
  have h1 := @Header.Valid.drop_field _ body hv 1
  have h2 := @Header.Valid.drop_field _ body hv 2
  have h3 := @Header.Valid.drop_field _ body hv 3
  have h5 := @Header.Valid.drop_field _ body hv 5
  rw [show (fieldWidths.take 1).sum = 100 from rfl] at h1
  rw [show (fieldWidths.take 2).sum = 108 from rfl] at h2
  rw [show (fieldWidths.take 3).sum = 116 from rfl] at h3
  rw [show (fieldWidths.take 5).sum = 136 from rfl] at h5
  simp only [Header.fields, List.drop_succ_cons, List.drop_zero, List.flatten_cons,
    List.append_assoc] at h1 h2 h3 h5
  rw [h1, h2, h3, h5, decodeOctal_field (by decide) h.info.mode_lt,
    decodeOctal_field (by decide) h.info.uid_lt, decodeOctal_field (by decide) h.info.gid_lt,
    decodeOctal_field (by decide) h.info.mtime_lt]
  rfl

theorem Header.Valid.read_size (hv : h.Valid) :
    decodeOctal ((h.bytes ++ body).drop 124) 12 = h.size := by
  have h4 := @Header.Valid.drop_field _ body hv 4
  rw [show (fieldWidths.take 4).sum = 124 from rfl] at h4
  simp only [Header.fields, List.drop_succ_cons, List.drop_zero, List.flatten_cons,
    List.append_assoc] at h4
  rw [h4, decodeOctal_field (by decide) hv.size_lt]

theorem Header.Valid.read_type (hv : h.Valid) : (h.bytes ++ body).getD 156 0 = h.filetype := by
  have h7 := @Header.Valid.drop_field _ body hv 7
  rw [show (fieldWidths.take 7).sum = 156 from rfl] at h7
  have hget : ((h.bytes ++ body).drop 156).getD 0 0 = (h.bytes ++ body).getD 156 0 := by
    rw [List.getD_eq_getElem?_getD, List.getElem?_drop, List.getD_eq_getElem?_getD]
  rw [← hget, h7]
  rfl

theorem Header.Valid.drop_bytes (hv : h.Valid) : (h.bytes ++ body).drop 512 = body := by
  rw [← hv.length_bytes, List.drop_left]

theorem Header.Valid.not_zero (hv : h.Valid) : isZeroBlock (h.bytes ++ body) = false := by
  obtain ⟨b, name, hname⟩ := List.exists_cons_of_ne_nil hv.name_ne
  have hb : b ≠ 0 := by
    rintro rfl
    exact hv.name_text (by rw [hname]; exact List.mem_cons_self)
  have hfirst : h.bytes ++ body = b :: (h.bytes ++ body).tail := by
    simp [Header.bytes, Header.fields, pad, hname]
  rw [isZeroBlock, hfirst, List.take_succ_cons, List.all_cons, decide_eq_false hb, Bool.false_and]

end TarArchive
