/-
# Buddy tilings

A block of order `k` is the `2^k` consecutive pages from its first page on; it is
aligned when that page is a multiple of `2^k`.  The buddy of an aligned block is the
other half of its parent, the block of the next order that holds it.

`Tiling I B` says that the blocks `B` cut the blocks `I` up: every page lies in as
many blocks of `B` as of `I`, which is at most one.  Splitting a block and merging
buddies keep a tiling, and a tiling with no mergeable buddies is `I` itself.
-/
import Mathlib.Data.Multiset.Count
import Mathlib.Data.Nat.Bitwise
import Mathlib.Tactic

namespace Buddy

/-- The `2^order` pages from `page` on. -/
structure Block where
  page : ℕ
  order : ℕ
  deriving DecidableEq, Repr

namespace Block

/-- The page `x` lies in the block. -/
def Covers (b : Block) (x : ℕ) : Prop := b.page ≤ x ∧ x < b.page + 2 ^ b.order

instance (b : Block) (x : ℕ) : Decidable (b.Covers x) := by
  unfold Covers
  infer_instance

def Aligned (b : Block) : Prop := 2 ^ b.order ∣ b.page

/-- All of `b` lies in `i`. -/
def Within (b i : Block) : Prop :=
  i.page ≤ b.page ∧ b.page + 2 ^ b.order ≤ i.page + 2 ^ i.order

/-- The other half of the parent. -/
def buddy (b : Block) : Block := ⟨b.page ^^^ 2 ^ b.order, b.order⟩

/-- The block of the next order that holds an aligned block and its buddy. -/
def parent (b : Block) : Block := ⟨min b.page (b.page ^^^ 2 ^ b.order), b.order + 1⟩

/-! ## Blocks of powers of two -/

variable {b c i : Block} {x : ℕ}

@[simp] theorem buddy_order : b.buddy.order = b.order := rfl

@[simp] theorem parent_order : b.parent.order = b.order + 1 := rfl

@[simp] theorem buddy_buddy : b.buddy.buddy = b := by
  simp [buddy]

theorem parent_buddy : b.buddy.parent = b.parent := by
  simp [buddy, parent, min_comm]

theorem covers_page (b : Block) : b.Covers b.page :=
  ⟨le_rfl, Nat.lt_add_of_pos_right (Nat.two_pow_pos _)⟩

theorem Within.refl (b : Block) : b.Within b := ⟨le_rfl, le_rfl⟩

theorem Within.trans (h : b.Within c) (h' : c.Within i) : b.Within i :=
  ⟨h'.1.trans h.1, h.2.trans h'.2⟩

theorem Within.covers (h : b.Within i) (hx : b.Covers x) : i.Covers x :=
  ⟨h.1.trans hx.1, hx.2.trans_le h.2⟩

theorem Within.order_le (h : b.Within i) : b.order ≤ i.order := by
  have hlen : 2 ^ b.order ≤ 2 ^ i.order := by
    obtain ⟨h1, h2⟩ := h
    omega
  exact (Nat.pow_le_pow_iff_right Nat.one_lt_two).mp hlen

theorem Within.eq_of_order (h : b.Within i) (ho : b.order = i.order) : b = i := by
  obtain ⟨h1, h2⟩ := h
  rw [ho] at h2
  have hp : b.page = i.page := by omega
  cases b
  cases i
  simp_all

theorem xor_two_pow {p k : ℕ} (h : 2 ^ k ∣ p) :
    p ^^^ 2 ^ k = if 2 ^ (k + 1) ∣ p then p + 2 ^ k else p - 2 ^ k := by
  obtain ⟨m, rfl⟩ := h
  have hxor : 2 ^ k * m ^^^ 2 ^ k = 2 ^ k * (m ^^^ 1) := by
    have hshift := Nat.shiftLeft_xor_distrib (i := k) (a := m) (b := 1)
    simp only [Nat.shiftLeft_eq, one_mul] at hshift
    rw [Nat.mul_comm (2 ^ k) (m ^^^ 1), hshift, Nat.mul_comm]
  have hdvd : 2 ^ (k + 1) ∣ 2 ^ k * m ↔ 2 ∣ m := by
    rw [pow_succ]
    exact Nat.mul_dvd_mul_iff_left (Nat.two_pow_pos k)
  rw [hxor]
  split_ifs with hm
  · rw [Nat.xor_one_of_even (even_iff_two_dvd.mpr (hdvd.mp hm)), Nat.mul_add, Nat.mul_one]
  · have hodd : Odd m := Nat.not_even_iff_odd.mp (fun he => hm (hdvd.mpr he.two_dvd))
    rw [Nat.xor_one_of_odd hodd, Nat.mul_sub, Nat.mul_one]

theorem Aligned.parent_cases (h : b.Aligned) :
    (2 ^ (b.order + 1) ∣ b.page ∧ b.parent.page = b.page ∧
      b.buddy.page = b.page + 2 ^ b.order) ∨
    (2 ^ (b.order + 1) ∣ b.buddy.page ∧ b.parent.page = b.buddy.page ∧
      b.page = b.buddy.page + 2 ^ b.order) := by
  have hxor := xor_two_pow h
  split_ifs at hxor with hdvd
  · refine Or.inl ⟨hdvd, ?_, hxor⟩
    simp only [parent, hxor]
    omega
  · right
    obtain ⟨m, hm⟩ := h
    have hpos := Nat.two_pow_pos b.order
    have hodd : ¬ 2 ∣ m := by
      rintro ⟨n, rfl⟩
      exact hdvd ⟨n, by rw [hm, pow_succ]; ring⟩
    obtain ⟨n, rfl⟩ : ∃ n, m = 2 * n + 1 := ⟨m / 2, by omega⟩
    have hpage : b.page = 2 ^ (b.order + 1) * n + 2 ^ b.order := by
      rw [hm, pow_succ]
      ring
    have hbud : b.buddy.page = 2 ^ (b.order + 1) * n := by
      simp only [buddy, hxor]
      omega
    refine ⟨⟨n, hbud⟩, ?_, by omega⟩
    simp only [parent, buddy] at *
    omega

theorem Aligned.buddy (h : b.Aligned) : b.buddy.Aligned := by
  have hdvd : 2 ^ b.order ∣ 2 ^ (b.order + 1) := ⟨2, pow_succ 2 _⟩
  rcases h.parent_cases with ⟨h1, -, h3⟩ | ⟨h1, -, -⟩
  · rw [Aligned, buddy_order, h3]
    exact Nat.dvd_add (hdvd.trans h1) dvd_rfl
  · exact hdvd.trans h1

theorem Aligned.parent (h : b.Aligned) : b.parent.Aligned := by
  rcases h.parent_cases with ⟨h1, h2, -⟩ | ⟨h1, h2, -⟩
  · rwa [Aligned, parent_order, h2]
  · rwa [Aligned, parent_order, h2]

theorem Aligned.within_parent (h : b.Aligned) : b.Within b.parent := by
  have hpos := Nat.two_pow_pos b.order
  rcases h.parent_cases with ⟨-, h2, h3⟩ | ⟨-, h2, h3⟩ <;>
    simp only [Within, parent_order, h2, pow_succ] <;> omega

/-- A page of the parent is in the block or in its buddy, and not in both. -/
theorem Aligned.covers_parent (h : b.Aligned) (x : ℕ) :
    (b.parent.Covers x ↔ b.Covers x ∨ b.buddy.Covers x) ∧ ¬ (b.Covers x ∧ b.buddy.Covers x) := by
  have hpos := Nat.two_pow_pos b.order
  rcases h.parent_cases with ⟨-, h2, h3⟩ | ⟨-, h2, h3⟩ <;>
    simp only [Covers, parent_order, buddy_order, h2, h3, pow_succ] <;> omega

theorem add_le_of_dvd_of_lt {d a c : ℕ} (ha : d ∣ a) (hc : d ∣ c) (h : a < c) : a + d ≤ c := by
  obtain ⟨m, rfl⟩ := ha
  obtain ⟨n, rfl⟩ := hc
  have hmn : m + 1 ≤ n := Nat.lt_of_mul_lt_mul_left h
  calc d * m + d = d * (m + 1) := by ring
    _ ≤ d * n := Nat.mul_le_mul_left d hmn

/-- **Nesting.**  Aligned blocks that share a page are nested. -/
theorem Aligned.within_of_covers (hb : b.Aligned) (hc : c.Aligned) (ho : b.order ≤ c.order)
    (hbx : b.Covers x) (hcx : c.Covers x) : b.Within c := by
  have hdvd : 2 ^ b.order ∣ 2 ^ c.order := Nat.pow_dvd_pow 2 ho
  have hend : 2 ^ b.order ∣ b.page + 2 ^ b.order := Nat.dvd_add hb dvd_rfl
  have hend' : 2 ^ b.order ∣ c.page + 2 ^ c.order := Nat.dvd_add (hdvd.trans hc) hdvd
  have h1 := add_le_of_dvd_of_lt (hdvd.trans hc) hend (hcx.1.trans_lt hbx.2)
  have h2 := add_le_of_dvd_of_lt hb hend' (hbx.1.trans_lt hcx.2)
  exact ⟨by omega, h2⟩

theorem lower_half {p k : ℕ} (h : 2 ^ (k + 1) ∣ p) :
    Aligned ⟨p, k⟩ ∧ parent ⟨p, k⟩ = ⟨p, k + 1⟩ ∧ buddy ⟨p, k⟩ = ⟨p + 2 ^ k, k⟩ := by
  have hal : 2 ^ k ∣ p := (Nat.pow_dvd_pow 2 (Nat.le_succ k)).trans h
  have hxor := xor_two_pow hal
  rw [if_pos h] at hxor
  simp [Aligned, hal, parent, buddy, hxor]

theorem Aligned.parent_within (hb : b.Aligned) (hi : i.Aligned) (h : b.Within i)
    (ho : b.order < i.order) : b.parent.Within i :=
  hb.parent.within_of_covers hi ho (hb.within_parent.covers b.covers_page)
    (h.covers b.covers_page)

theorem Aligned.buddy_within (hb : b.Aligned) (hi : i.Aligned) (h : b.Within i)
    (ho : b.order < i.order) : b.buddy.Within i := by
  have hp := hb.parent_within hi h ho
  rw [← parent_buddy] at hp
  exact hb.buddy.within_parent.trans hp

/-- The aligned block of order `k` that holds the page `x`. -/
def ofPage (x k : ℕ) : Block := ⟨2 ^ k * (x / 2 ^ k), k⟩

theorem ofPage_aligned (x k : ℕ) : (ofPage x k).Aligned := Nat.dvd_mul_right _ _

theorem ofPage_covers (x k : ℕ) : (ofPage x k).Covers x := by
  have hdiv := Nat.div_add_mod x (2 ^ k)
  have hmod := Nat.mod_lt x (Nat.two_pow_pos k)
  simp only [Covers, ofPage]
  omega

theorem Aligned.eq_ofPage (h : b.Aligned) (hx : b.Covers x) : b = ofPage x b.order :=
  (h.within_of_covers (ofPage_aligned x b.order) le_rfl hx (ofPage_covers x b.order)).eq_of_order
    rfl

theorem Aligned.ofPage_eq (h : b.Aligned) {y : ℕ} (hx : b.Covers x) (hy : b.Covers y) {k : ℕ}
    (hk : b.order ≤ k) : ofPage y k = ofPage x k := by
  have hw := h.within_of_covers (ofPage_aligned x k) hk hx (ofPage_covers x k)
  exact ((ofPage_aligned x k).eq_ofPage (hw.covers hy)).symm

end Block

/-! ## How often a page is covered -/

/-- The number of blocks that hold the page `x`. -/
def cover (B : Multiset Block) (x : ℕ) : ℕ := B.countP (fun b => b.Covers x)

variable {I J B C : Multiset Block} {b c i : Block} {x : ℕ}

@[simp] theorem cover_zero : cover 0 x = 0 := rfl

@[simp] theorem cover_add : cover (B + C) x = cover B x + cover C x := Multiset.countP_add _ _ _

@[simp] theorem cover_cons :
    cover (b ::ₘ B) x = cover B x + if b.Covers x then 1 else 0 := Multiset.countP_cons _ _ _

@[simp] theorem cover_singleton : cover {b} x = if b.Covers x then 1 else 0 := by
  rw [← Multiset.cons_zero, cover_cons, cover_zero, Nat.zero_add]

theorem cover_pos_iff : 0 < cover B x ↔ ∃ b ∈ B, b.Covers x := Multiset.countP_pos

theorem cover_eq_zero_iff : cover B x = 0 ↔ ∀ b ∈ B, ¬ b.Covers x := Multiset.countP_eq_zero

/-! ## Tilings -/

/-- The blocks `B` cut up the disjoint aligned blocks `I`. -/
structure Tiling (I B : Multiset Block) : Prop where
  cover_eq : ∀ x, cover B x = cover I x
  cover_le : ∀ x, cover I x ≤ 1
  initial_aligned : ∀ i ∈ I, i.Aligned
  aligned : ∀ b ∈ B, b.Aligned
  within : ∀ b ∈ B, ∃ i ∈ I, b.Within i

namespace Tiling

theorem refl (hle : ∀ x, cover I x ≤ 1) (hal : ∀ i ∈ I, i.Aligned) : Tiling I I where
  cover_eq := fun _ => rfl
  cover_le := hle
  initial_aligned := hal
  aligned := hal
  within := fun b hb => ⟨b, hb, .refl b⟩

theorem initial (h : Tiling I B) : Tiling I I := refl h.cover_le h.initial_aligned

theorem not_covers_of_mem_erase (h : Tiling I B) (hb : b ∈ B) (hc : c ∈ B.erase b)
    (hx : b.Covers x) : ¬ c.Covers x := by
  intro hcx
  have hle := h.cover_le x
  rw [← h.cover_eq, ← Multiset.cons_erase hb, cover_cons, if_pos hx] at hle
  have hpos := cover_pos_iff.mpr ⟨c, hc, hcx⟩
  omega

theorem eq_of_covers (h : Tiling I B) (hb : b ∈ B) (hc : c ∈ B) (hbx : b.Covers x)
    (hcx : c.Covers x) : b = c := by
  by_contra hne
  exact h.not_covers_of_mem_erase hb ((Multiset.mem_erase_of_ne (Ne.symm hne)).mpr hc) hbx hcx

theorem nodup (h : Tiling I B) : B.Nodup := by
  rw [Multiset.nodup_iff_count_le_one]
  intro b
  by_contra hcount
  have hmem : b ∈ B.erase b := by
    rw [← Multiset.one_le_count_iff_mem, Multiset.count_erase_self]
    omega
  exact h.not_covers_of_mem_erase (Multiset.mem_of_mem_erase hmem) hmem b.covers_page b.covers_page

theorem exists_covers (h : Tiling I B) (hi : i ∈ I) (hx : i.Covers x) : ∃ b ∈ B, b.Covers x := by
  rw [← cover_pos_iff, h.cover_eq, cover_pos_iff]
  exact ⟨i, hi, hx⟩

theorem within_of_covers (h : Tiling I B) (hb : b ∈ B) (hi : i ∈ I) (hbx : b.Covers x)
    (hix : i.Covers x) : b.Within i := by
  obtain ⟨j, hj, hbj⟩ := h.within b hb
  rwa [h.initial.eq_of_covers hi hj hix (hbj.covers hbx)]

/-- **Split.**  Cutting a block into its two halves keeps a tiling. -/
theorem split (h : Tiling I (b.parent ::ₘ B)) (hal : b.Aligned) :
    Tiling I (b ::ₘ b.buddy ::ₘ B) := by
  obtain ⟨i, hi, hpi⟩ := h.within _ (Multiset.mem_cons_self _ _)
  have hbud : b.buddy.Within b.parent := Block.parent_buddy ▸ hal.buddy.within_parent
  refine ⟨fun x => ?_, h.cover_le, h.initial_aligned, ?_, ?_⟩
  · have hx := hal.covers_parent x
    rw [← h.cover_eq]
    simp only [cover_cons, hx.1]
    split_ifs <;> simp_all
  · intro c hc
    rcases Multiset.mem_cons.mp hc with rfl | hc
    · exact hal
    · rcases Multiset.mem_cons.mp hc with rfl | hc
      · exact hal.buddy
      · exact h.aligned c (Multiset.mem_cons_of_mem hc)
  · intro c hc
    rcases Multiset.mem_cons.mp hc with rfl | hc
    · exact ⟨i, hi, hal.within_parent.trans hpi⟩
    · rcases Multiset.mem_cons.mp hc with rfl | hc
      · exact ⟨i, hi, hbud.trans hpi⟩
      · exact h.within c (Multiset.mem_cons_of_mem hc)

/-- **Merge.**  Joining a block and its buddy inside a larger initial block keeps a
tiling. -/
theorem merge (h : Tiling I (b ::ₘ b.buddy ::ₘ B)) (hi : i ∈ I) (hbi : b.Within i)
    (ho : b.order < i.order) : Tiling I (b.parent ::ₘ B) := by
  have hal := h.aligned b (Multiset.mem_cons_self _ _)
  refine ⟨fun x => ?_, h.cover_le, h.initial_aligned, ?_, ?_⟩
  · have hx := hal.covers_parent x
    rw [← h.cover_eq]
    simp only [cover_cons, hx.1]
    split_ifs <;> simp_all
  · intro c hc
    rcases Multiset.mem_cons.mp hc with rfl | hc
    · exact hal.parent
    · exact h.aligned c (Multiset.mem_cons_of_mem (Multiset.mem_cons_of_mem hc))
  · intro c hc
    rcases Multiset.mem_cons.mp hc with rfl | hc
    · exact ⟨i, hi, hal.parent_within (h.initial_aligned i hi) hbi ho⟩
    · exact h.within c (Multiset.mem_cons_of_mem (Multiset.mem_cons_of_mem hc))

/-- **New ground.**  Fresh disjoint aligned blocks join both sides. -/
theorem add (h : Tiling I B) (hJ : Tiling J J) (hdisj : ∀ x, cover I x = 0 ∨ cover J x = 0) :
    Tiling (I + J) (B + J) where
  cover_eq := fun x => by rw [cover_add, cover_add, h.cover_eq]
  cover_le := fun x => by
    have h1 := h.cover_le x
    have h2 := hJ.cover_le x
    rw [cover_add]
    rcases hdisj x with h0 | h0 <;> omega
  initial_aligned := fun i hi => (Multiset.mem_add.mp hi).elim (h.initial_aligned i) (hJ.aligned i)
  aligned := fun b hb => (Multiset.mem_add.mp hb).elim (h.aligned b) (hJ.aligned b)
  within := by
    intro b hb
    rcases Multiset.mem_add.mp hb with hb | hb
    · obtain ⟨i, hi, hbi⟩ := h.within b hb
      exact ⟨i, Multiset.mem_add.mpr (Or.inl hi), hbi⟩
    · exact ⟨b, Multiset.mem_add.mpr (Or.inr hb), .refl b⟩

/-- **The page of a buddy.**  Below the order of its initial block, the first page of
a block's buddy is the first page of some block of at most the same order. -/
theorem exists_at_buddy (h : Tiling I B) (hb : b ∈ B) (hi : i ∈ I) (hbi : b.Within i)
    (ho : b.order < i.order) : ∃ c ∈ B, c.page = b.buddy.page ∧ c.order ≤ b.order := by
  have hbal := h.aligned b hb
  have hbud := hbal.buddy_within (h.initial_aligned i hi) hbi ho
  obtain ⟨c, hc, hcx⟩ := h.exists_covers hi (hbud.covers b.buddy.covers_page)
  have hcal := h.aligned c hc
  have hle : c.order ≤ b.order := by
    by_contra hgt
    have hpc : b.parent.Within c := by
      rw [← Block.parent_buddy]
      exact hbal.buddy.parent.within_of_covers hcal (by simpa using Nat.lt_of_not_le hgt)
        (hbal.buddy.within_parent.covers b.buddy.covers_page) hcx
    have heq := h.eq_of_covers hb hc b.covers_page
      (hpc.covers (hbal.within_parent.covers b.covers_page))
    rw [heq] at hgt
    exact hgt le_rfl
  have hwithin : c.Within b.buddy :=
    hcal.within_of_covers hbal.buddy hle hcx b.buddy.covers_page
  exact ⟨c, hc, le_antisymm hcx.1 hwithin.1, hle⟩

/-- **Everything merged.**  A tiling in which no block could be merged with its buddy
is the initial one. -/
theorem eq_initial (h : Tiling I B)
    (hno : ∀ b ∈ B, ∀ i ∈ I, b.Within i → b.order < i.order → b.buddy ∉ B) : B = I := by
  -- a block below the order of its initial block has a smallest one beside it
  have hnone : ∀ k, ∀ b ∈ B, b.order = k → ∀ i ∈ I, b.Within i → ¬ k < i.order := by
    intro k
    induction k using Nat.strong_induction_on with
    | _ k ih =>
      intro b hb hk i hi hbi ho
      subst hk
      obtain ⟨c, hc, hpage, hle⟩ := h.exists_at_buddy hb hi hbi ho
      rcases Nat.lt_or_eq_of_le hle with hlt | heq
      · have hbud := (h.aligned b hb).buddy_within (h.initial_aligned i hi) hbi ho
        have hci : c.Within i := h.within_of_covers hc hi c.covers_page
          (hpage ▸ hbud.covers b.buddy.covers_page)
        exact ih c.order hlt c hc rfl i hi hci (hlt.trans ho)
      · have hcb : c = b.buddy := by
          cases c
          simp_all [Block.buddy]
        exact hno b hb i hi hbi ho (hcb ▸ hc)
  have hsub : ∀ b ∈ B, b ∈ I := by
    intro b hb
    obtain ⟨i, hi, hbi⟩ := h.within b hb
    have hord : b.order = i.order :=
      le_antisymm hbi.order_le (Nat.le_of_not_lt (hnone _ b hb rfl i hi hbi))
    rwa [hbi.eq_of_order hord]
  refine (Multiset.Nodup.ext h.nodup h.initial.nodup).mpr (fun i => ⟨hsub i, fun hi => ?_⟩)
  obtain ⟨b, hb, hbx⟩ := h.exists_covers hi i.covers_page
  rwa [h.initial.eq_of_covers hi (hsub b hb) i.covers_page hbx]

end Tiling

/-! ## Counting pages -/

/-- The number of pages in the blocks `B`. -/
def size (B : Multiset Block) : ℕ := (B.map (fun b => 2 ^ b.order)).sum

@[simp] theorem size_add : size (B + C) = size B + size C := by simp [size]

@[simp] theorem size_cons : size (b ::ₘ B) = 2 ^ b.order + size B := by simp [size]

theorem size_bind {ι : Type*} (l : Multiset ι) (f : ι → Multiset Block) :
    size (l.bind f) = (l.map (fun a => size (f a))).sum := by
  induction l using Multiset.induction with
  | empty => rfl
  | cons a l ih => rw [Multiset.cons_bind, size_add, ih, Multiset.map_cons, Multiset.sum_cons]

theorem size_eq_sum_cover {n : ℕ} (h : ∀ b ∈ B, b.page + 2 ^ b.order ≤ n) :
    size B = ∑ x ∈ Finset.range n, cover B x := by
  induction B using Multiset.induction with
  | empty => simp [size]
  | cons b B ih =>
    have hb := h b (Multiset.mem_cons_self b B)
    have hblock : (Finset.range n).filter (fun x => b.Covers x) =
        Finset.Ico b.page (b.page + 2 ^ b.order) := by
      ext x
      rw [Finset.mem_filter, Finset.mem_range, Finset.mem_Ico]
      exact ⟨fun hx => hx.2, fun hx => ⟨hx.2.trans_le hb, hx⟩⟩
    have hcard : ∑ x ∈ Finset.range n, (if b.Covers x then 1 else 0) = 2 ^ b.order := by
      rw [Finset.sum_boole, hblock, Nat.card_Ico, Nat.add_sub_cancel_left, Nat.cast_id]
    rw [size_cons, ih (fun c hc => h c (Multiset.mem_cons_of_mem hc))]
    simp only [cover_cons, Finset.sum_add_distrib, hcard]
    omega

theorem Tiling.size_eq (h : Tiling I B) : size B = size I := by
  have hle : ∀ b ∈ B + I, b.page + 2 ^ b.order ≤
      ((B + I).map (fun b => b.page + 2 ^ b.order)).sum := fun b hb =>
    Multiset.single_le_sum (fun _ _ => Nat.zero_le _) _ (Multiset.mem_map_of_mem _ hb)
  rw [size_eq_sum_cover (fun b hb => hle b (Multiset.mem_add.mpr (Or.inl hb))),
    size_eq_sum_cover (fun b hb => hle b (Multiset.mem_add.mpr (Or.inr hb)))]
  exact Finset.sum_congr rfl (fun x _ => h.cover_eq x)

/-! ## Changing one member of a family -/

/-- Changing the family `f` at `z` changes the union of its members by that member. -/
theorem bind_change {ι α : Type*} {l : Multiset ι} (hnd : l.Nodup) {z : ι} (hz : z ∈ l)
    {f g : ι → Multiset α} (h : ∀ a ∈ l, a ≠ z → g a = f a) :
    l.bind g + f z = l.bind f + g z := by
  obtain ⟨l', rfl⟩ := Multiset.exists_cons_of_mem hz
  have hz' : z ∉ l' := (Multiset.nodup_cons.mp hnd).1
  have hcongr : l'.bind g = l'.bind f := by
    refine Multiset.bind_congr (fun a ha => h a (Multiset.mem_cons_of_mem ha) ?_)
    rintro rfl
    exact hz' ha
  rw [Multiset.cons_bind, Multiset.cons_bind, hcongr]
  abel

end Buddy
