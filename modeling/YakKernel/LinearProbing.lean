/-
# Open addressing with linear probing

A table of `n` slots, each empty, a tombstone or live.  A key is looked for from the slot of its
hash on, around the end, until an empty slot.  A table is well placed when this finds every
live key; storing a key where its probe ends, and burying one, keep it so.
-/
import Mathlib.Logic.Function.Basic
import Mathlib.Tactic

namespace LinearProbing

/-! ## Positions -/

variable {n h i j : ℕ}

/-- The slot that the probe from `h` looks at in round `j`. -/
def position (n h j : ℕ) : ℕ := (h + j) % n

theorem position_lt (hn : 0 < n) (h j : ℕ) : position n h j < n := Nat.mod_lt _ hn

theorem position_succ (n h j : ℕ) : (position n h j + 1) % n = position n h (j + 1) := by
  simp only [position, Nat.mod_add_mod, Nat.add_assoc]

theorem exists_position (hi : i < n) (h : ℕ) : ∃ j, j < n ∧ position n h j = i := by
  have hn : 0 < n := by omega
  have hlt := Nat.mod_lt h hn
  refine ⟨(i + (n - h % n)) % n, Nat.mod_lt _ hn, ?_⟩
  have hsum : h + (i + (n - h % n)) = i + n * (h / n + 1) := by
    have hdiv := Nat.div_add_mod h n
    rw [Nat.mul_add]
    omega
  rw [position, Nat.add_mod_mod, hsum, Nat.add_mul_mod_self_left, Nat.mod_eq_of_lt hi]

/-! ## Tables -/

/-- A slot of a table. -/
inductive Slot (K V : Type*) where
  | empty
  | tomb
  | live (k : K) (v : V)

/-- A hash function, and the equality of keys that it respects. -/
structure Hashing (K : Type*) where
  hash : K → ℕ
  same : K → K → Prop
  equivalence : Equivalence same
  hash_eq : ∀ k k', same k k' → hash k = hash k'

variable {K V : Type*} {H : Hashing K} {slot : ℕ → Slot K V} {k k' : K} {v w : V}

/-- None of the slots that the probe from `h` looks at before round `j` is empty. -/
def Path (n : ℕ) (slot : ℕ → Slot K V) (h j : ℕ) : Prop :=
  ∀ j', j' < j → slot (position n h j') ≠ .empty

/-- The slot is live, with the key. -/
def Holds (H : Hashing K) (slot : ℕ → Slot K V) (k : K) (i : ℕ) : Prop :=
  ∃ k' v, slot i = .live k' v ∧ H.same k k'

/-- The table has the value for the key. -/
def Maps (n : ℕ) (H : Hashing K) (slot : ℕ → Slot K V) (k : K) (v : V) : Prop :=
  ∃ i k', i < n ∧ slot i = .live k' v ∧ H.same k k'

/-- **A well-placed table.**  The probe for a live key does not meet an empty slot before it, and
no key is live twice. -/
structure WellPlaced (n : ℕ) (H : Hashing K) (slot : ℕ → Slot K V) : Prop where
  path : ∀ i k v, i < n → slot i = .live k v →
    ∃ j, j < n ∧ position n (H.hash k) j = i ∧ Path n slot (H.hash k) j
  unique : ∀ i i' k, i < n → i' < n → Holds H slot k i → Holds H slot k i' → i = i'

/-- A probe for `k` ends at slot `i`: the key is live there, or it is nowhere and `i` is free. -/
structure EndsAt (n : ℕ) (H : Hashing K) (slot : ℕ → Slot K V) (k : K) (i : ℕ) : Prop where
  reach : ∃ j, j < n ∧ position n (H.hash k) j = i ∧ Path n slot (H.hash k) j
  found : Holds H slot k i ∨
    (slot i = .empty ∨ slot i = .tomb) ∧ ∀ i', i' < n → ¬ Holds H slot k i'

theorem EndsAt.lt (he : EndsAt n H slot k i) : i < n := by
  obtain ⟨j, hj, rfl, _⟩ := he.reach
  exact position_lt (by omega) _ _

theorem Holds.live (hi : slot i = .live k' v) : Holds H slot k i ↔ H.same k k' := by
  constructor
  · rintro ⟨k₁, v₁, hk₁, hsame⟩
    rw [hi] at hk₁
    cases hk₁
    exact hsame
  · intro hsame
    exact ⟨k', v, hi, hsame⟩

/-! ## A probe finds what is there -/

/-- The probe stops. -/
def Stops (H : Hashing K) (slot : ℕ → Slot K V) (k : K) (i : ℕ) : Prop :=
  slot i = .empty ∨ Holds H slot k i

theorem exists_first_stop (hi : i < n) (hempty : slot i = .empty) (k : K) :
    ∃ j, j < n ∧ Stops H slot k (position n (H.hash k) j) ∧
      ∀ j', j' < j → ¬ Stops H slot k (position n (H.hash k) j') := by
  classical
  obtain ⟨j, hj, hpos⟩ := exists_position hi (H.hash k)
  have hex : ∃ j, Stops H slot k (position n (H.hash k) j) := ⟨j, Or.inl (hpos.symm ▸ hempty)⟩
  refine ⟨Nat.find hex, ?_, Nat.find_spec hex, fun j' hj' => Nat.find_min hex hj'⟩
  exact lt_of_le_of_lt (Nat.find_min' hex (Or.inl (hpos.symm ▸ hempty))) hj

theorem WellPlaced.holds_of_stop (hw : WellPlaced n H slot)
    (hstop : Stops H slot k (position n (H.hash k) j))
    (hfirst : ∀ j', j' < j → ¬ Stops H slot k (position n (H.hash k) j')) (hi : i < n)
    (hk : Holds H slot k i) : Holds H slot k (position n (H.hash k) j) := by
  obtain ⟨k', v, hslot, hsame⟩ := hk
  obtain ⟨j₀, _, hpos, hpath⟩ := hw.path i k' v hi hslot
  rw [← H.hash_eq k k' hsame] at hpos hpath
  rcases hstop with hempty | hholds
  · exfalso
    have hstop₀ : Stops H slot k (position n (H.hash k) j₀) :=
      Or.inr (hpos.symm ▸ ⟨k', v, hslot, hsame⟩)
    have hle : j ≤ j₀ := by
      by_contra hlt
      exact hfirst j₀ (by omega) hstop₀
    rcases Nat.lt_or_eq_of_le hle with hlt | heq
    · exact hpath j hlt hempty
    · rw [heq, hpos, hslot] at hempty
      cases hempty
  · exact hholds

/-- **Where a probe ends.**  At the live key; or, when the first stop is an empty slot, there or at
any tombstone on the way. -/
theorem WellPlaced.endsAt (hw : WellPlaced n H slot) {j₁ : ℕ} (hj : j < n)
    (hstop : Stops H slot k (position n (H.hash k) j))
    (hfirst : ∀ j', j' < j → ¬ Stops H slot k (position n (H.hash k) j')) (hle : j₁ ≤ j)
    (hend : Holds H slot k (position n (H.hash k) j) ∧ j₁ = j ∨
      slot (position n (H.hash k) j) = .empty ∧
        (j₁ = j ∨ slot (position n (H.hash k) j₁) = .tomb)) :
    EndsAt n H slot k (position n (H.hash k) j₁) where
  reach := by
    refine ⟨j₁, by omega, rfl, ?_⟩
    intro j' hj' hempty
    exact hfirst j' (by omega) (Or.inl hempty)
  found := by
    rcases hend with ⟨hholds, rfl⟩ | ⟨hempty, hfree⟩
    · exact Or.inl hholds
    · refine Or.inr ⟨?_, ?_⟩
      · rcases hfree with rfl | htomb
        · exact Or.inl hempty
        · exact Or.inr htomb
      · intro i' hi' hk
        obtain ⟨k', v, hlive, _⟩ := hw.holds_of_stop hstop hfirst hi' hk
        rw [hempty] at hlive
        cases hlive

/-! ## Storing and burying -/

theorem Path.update (hp : Path n slot h j) {s : Slot K V} (hs : s ≠ .empty) (i : ℕ) :
    Path n (Function.update slot i s) h j := by
  intro j' hj'
  by_cases hi : position n h j' = i
  · rw [hi, Function.update_self]
    exact hs
  · rw [Function.update_of_ne hi]
    exact hp j' hj'

theorem Holds.update_of_ne {s : Slot K V} {i' : ℕ} (hne : i' ≠ i) :
    Holds H (Function.update slot i s) k i' ↔ Holds H slot k i' := by
  simp only [Holds, Function.update_of_ne hne]

theorem Holds.store : Holds H (Function.update slot i (.live k v)) k' i ↔ H.same k' k :=
  Holds.live (Function.update_self i _ slot)

theorem Holds.bury : ¬ Holds H (Function.update slot i .tomb) k i := by
  rintro ⟨k', v, hlive, _⟩
  rw [Function.update_self] at hlive
  cases hlive

/-- Where the probe for a key ends is the only place where the key may be live. -/
theorem EndsAt.eq_of_holds (he : EndsAt n H slot k i) (hw : WellPlaced n H slot) {i' : ℕ}
    (hi' : i' < n) (hk : Holds H slot k i') : i' = i := by
  rcases he.found with hholds | ⟨_, hnone⟩
  · exact hw.unique i' i k hi' he.lt hk hholds
  · exact absurd hk (hnone i' hi')

theorem Holds.congr (hsame : H.same k k') : Holds H slot k i ↔ Holds H slot k' i := by
  constructor
  · rintro ⟨k₁, v₁, hslot, h₁⟩
    exact ⟨k₁, v₁, hslot, H.equivalence.trans (H.equivalence.symm hsame) h₁⟩
  · rintro ⟨k₁, v₁, hslot, h₁⟩
    exact ⟨k₁, v₁, hslot, H.equivalence.trans hsame h₁⟩

theorem WellPlaced.store (hw : WellPlaced n H slot) (he : EndsAt n H slot k i) (v : V) :
    WellPlaced n H (Function.update slot i (.live k v)) where
  path := by
    intro i' k' v' hi' hslot
    by_cases hii : i' = i
    · subst hii
      rw [Function.update_self] at hslot
      cases hslot
      obtain ⟨j, hj, hpos, hpath⟩ := he.reach
      exact ⟨j, hj, hpos, hpath.update (by simp) i'⟩
    · rw [Function.update_of_ne hii] at hslot
      obtain ⟨j, hj, hpos, hpath⟩ := hw.path i' k' v' hi' hslot
      exact ⟨j, hj, hpos, hpath.update (by simp) i⟩
  unique := by
    -- a key that is equal to the stored one is live nowhere else
    have hother : ∀ i' k', i' < n → i' ≠ i → H.same k' k →
        ¬ Holds H (Function.update slot i (.live k v)) k' i' := by
      intro i' k' hi' hne hsame hk
      rw [Holds.update_of_ne hne, Holds.congr hsame] at hk
      exact hne (he.eq_of_holds hw hi' hk)
    intro i₁ i₂ k' hi₁ hi₂ h₁ h₂
    by_cases h₁i : i₁ = i
    · rw [h₁i, Holds.store] at h₁
      by_contra hne
      exact hother i₂ k' hi₂ (fun h => hne (h₁i.trans h.symm)) h₁ h₂
    · by_cases h₂i : i₂ = i
      · rw [h₂i, Holds.store] at h₂
        exact absurd h₁ (hother i₁ k' hi₁ h₁i h₂)
      · rw [Holds.update_of_ne h₁i] at h₁
        rw [Holds.update_of_ne h₂i] at h₂
        exact hw.unique i₁ i₂ k' hi₁ hi₂ h₁ h₂

theorem WellPlaced.maps_store (hw : WellPlaced n H slot) (he : EndsAt n H slot k i) :
    Maps n H (Function.update slot i (.live k v)) k' w ↔
      (H.same k' k ∧ w = v) ∨ (¬ H.same k' k ∧ Maps n H slot k' w) := by
  constructor
  · rintro ⟨i', k₁, hi', hslot, hsame⟩
    by_cases hii : i' = i
    · rw [hii, Function.update_self] at hslot
      cases hslot
      exact Or.inl ⟨hsame, rfl⟩
    · rw [Function.update_of_ne hii] at hslot
      refine Or.inr ⟨?_, i', k₁, hi', hslot, hsame⟩
      intro hk
      have hholds : Holds H slot k' i' := ⟨k₁, w, hslot, hsame⟩
      rw [Holds.congr hk] at hholds
      exact hii (he.eq_of_holds hw hi' hholds)
  · rintro (⟨hsame, rfl⟩ | ⟨hne, i', k₁, hi', hslot, hsame⟩)
    · exact ⟨i, k, he.lt, Function.update_self i _ slot, hsame⟩
    · refine ⟨i', k₁, hi', ?_, hsame⟩
      by_cases hii : i' = i
      · subst hii
        rcases he.found with hholds | ⟨hfree, _⟩
        · -- the slot held an equal key
          have hkk := (Holds.live hslot).mp hholds
          exact absurd (H.equivalence.trans hsame (H.equivalence.symm hkk)) hne
        · rw [hslot] at hfree
          rcases hfree with hfree | hfree
          · cases hfree
          · cases hfree
      · rw [Function.update_of_ne hii]
        exact hslot

theorem WellPlaced.bury (hw : WellPlaced n H slot) (i : ℕ) :
    WellPlaced n H (Function.update slot i .tomb) where
  path := by
    intro i' k' v' hi' hslot
    by_cases hii : i' = i
    · rw [hii, Function.update_self] at hslot
      cases hslot
    · rw [Function.update_of_ne hii] at hslot
      obtain ⟨j, hj, hpos, hpath⟩ := hw.path i' k' v' hi' hslot
      exact ⟨j, hj, hpos, hpath.update (by simp) i⟩
  unique := by
    intro i₁ i₂ k' hi₁ hi₂ h₁ h₂
    have hne : ∀ i', Holds H (Function.update slot i .tomb) k' i' → i' ≠ i := by
      rintro i' hk rfl
      exact Holds.bury hk
    have h₁' := (Holds.update_of_ne (hne i₁ h₁)).mp h₁
    have h₂' := (Holds.update_of_ne (hne i₂ h₂)).mp h₂
    exact hw.unique i₁ i₂ k' hi₁ hi₂ h₁' h₂'

theorem WellPlaced.maps_bury (hw : WellPlaced n H slot) (hi : i < n) (hk : Holds H slot k i) :
    Maps n H (Function.update slot i .tomb) k' w ↔ ¬ H.same k' k ∧ Maps n H slot k' w := by
  constructor
  · rintro ⟨i', k₁, hi', hslot, hsame⟩
    by_cases hii : i' = i
    · rw [hii, Function.update_self] at hslot
      cases hslot
    · rw [Function.update_of_ne hii] at hslot
      refine ⟨?_, i', k₁, hi', hslot, hsame⟩
      intro hkk
      have hholds : Holds H slot k' i' := ⟨k₁, w, hslot, hsame⟩
      rw [Holds.congr hkk] at hholds
      exact hii (hw.unique i' i k hi' hi hholds hk)
  · rintro ⟨hne, i', k₁, hi', hslot, hsame⟩
    have hii : i' ≠ i := by
      rintro rfl
      have hkk := (Holds.live hslot).mp hk
      exact hne (H.equivalence.trans hsame (H.equivalence.symm hkk))
    exact ⟨i', k₁, hi', (Function.update_of_ne hii _ _).trans hslot, hsame⟩

theorem WellPlaced.maps_iff (hw : WellPlaced n H slot) (hi : i < n) (hslot : slot i = .live k' v)
    (hsame : H.same k k') : Maps n H slot k w ↔ w = v := by
  constructor
  · rintro ⟨i', k₁, hi', hslot', hsame'⟩
    have heq := hw.unique i' i k hi' hi ⟨k₁, w, hslot', hsame'⟩ ⟨k', v, hslot, hsame⟩
    rw [heq, hslot] at hslot'
    cases hslot'
    rfl
  · rintro rfl
    exact ⟨i, k', hi, hslot, hsame⟩

theorem maps_holds : (∃ v, Maps n H slot k v) ↔ ∃ i, i < n ∧ Holds H slot k i := by
  constructor
  · rintro ⟨v, i, k', hi, hslot, hsame⟩
    exact ⟨i, hi, k', v, hslot, hsame⟩
  · rintro ⟨i, hi, k', v, hslot, hsame⟩
    exact ⟨v, i, k', hi, hslot, hsame⟩

theorem wellPlaced_empty (hempty : ∀ i, i < n → slot i = .empty) : WellPlaced n H slot where
  path := by
    intro i k v hi hslot
    rw [hempty i hi] at hslot
    cases hslot
  unique := by
    rintro i i' k hi _ ⟨k', v, hslot, _⟩
    rw [hempty i hi] at hslot
    cases hslot

end LinearProbing
