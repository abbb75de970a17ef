/-
# The hash table is a finite map

For any hash function and an equality that it respects: every probe ends, the load keeps a free
entry, and the table answers as the map of the values set last, through growth, tombstones and
collisions.
-/
import YakKernel.HashTable
import YakKernel.LinearProbing
import YakKernel.TransitionSystem

namespace HashTable

open Prog LinearProbing

/-! ## Keys and slots -/

/-- Two keys are equal for a table: it compares their lengths first. -/
def Functions.Same (f : Functions) (a b : Key) : Prop := a.length = b.length ∧ f.eq a b = true

instance (f : Functions) (a b : Key) : Decidable (f.Same a b) :=
  inferInstanceAs (Decidable (a.length = b.length ∧ f.eq a b = true))

/-- The equality is one, and the hash function respects it. -/
structure Functions.Consistent (f : Functions) : Prop where
  equivalence : Equivalence f.Same
  hash_eq : ∀ a b, f.Same a b → f.hash a = f.hash b

/-- The functions of a table, as a hashing of its keys. -/
def Functions.Consistent.hashing {f : Functions} (hf : f.Consistent) : Hashing Key where
  hash := fun key => (f.hash key).toNat
  same := f.Same
  equivalence := hf.equivalence
  hash_eq := fun a b h => congrArg UInt64.toNat (hf.hash_eq a b h)

/-- An entry as a slot. -/
def Entry.slot (entry : Entry) : Slot Key ℕ :=
  match entry.key with
  | some key => .live key entry.value
  | none => if entry.value = tomb then .tomb else .empty

/-- The entries as slots. -/
def slots (entries : List Entry) (i : ℕ) : Slot Key ℕ := (entries[i]?.getD Entry.blank).slot

variable {f : Functions} {hf : f.Consistent} {entries : List Entry} {entry : Entry} {i n : ℕ}
  {key : Key} {value : ℕ} {t : Table}

theorem slots_of_get (h : entries[i]? = some entry) : slots entries i = entry.slot := by
  rw [slots, h]
  rfl

theorem slots_set (hi : i < entries.length) (entry : Entry) :
    slots (entries.set i entry) = Function.update (slots entries) i entry.slot := by
  funext j
  by_cases hj : j = i
  · subst hj
    rw [Function.update_self]
    refine slots_of_get ?_
    rw [List.getElem?_set_self hi]
  · rw [Function.update_of_ne hj, slots, slots, List.getElem?_set_ne (Ne.symm hj)]

theorem Entry.slot_live {key : Key} : entry.slot = .live key value ↔
    entry.key = some key ∧ entry.value = value := by
  rw [Entry.slot]
  cases entry.key with
  | some k => simp
  | none =>
    by_cases hv : entry.value = tomb
    · simp [hv]
    · simp [hv]

theorem Entry.slot_empty : entry.slot = .empty ↔ entry.used = false := by
  rw [Entry.slot, Entry.used]
  cases entry.key with
  | some k => simp
  | none =>
    by_cases hv : entry.value = tomb
    · simp [hv]
    · simp [hv]

theorem Entry.slot_tomb : entry.slot = .tomb ↔ entry.key = none ∧ entry.value = tomb := by
  rw [Entry.slot]
  cases entry.key with
  | some k => simp
  | none =>
    by_cases hv : entry.value = tomb
    · simp [hv]
    · simp [hv]

theorem exists_empty (h : entries.countP Entry.used < entries.length) :
    ∃ i, i < entries.length ∧ slots entries i = .empty := by
  obtain ⟨entry, hmem, hnot⟩ := List.countP_lt_length_iff.mp h
  obtain ⟨i, hi⟩ := List.getElem?_of_mem hmem
  obtain ⟨hlt, _⟩ := List.getElem?_eq_some_iff.mp hi
  refine ⟨i, hlt, ?_⟩
  rw [slots_of_get hi, Entry.slot_empty]
  exact hnot

/-! ## Probes -/

@[simp] theorem ends_entryAt {Q : Entry → Table → Prop} {R : Failure → Prop}
    (h : entries[i]? = some entry) : (entryAt entries i).Ends f t Q R ↔ Q entry t := by
  rw [entryAt, h]
  exact ends_pure

theorem throughInt_eq (h : n < 2 ^ 31) : throughInt n = n := by
  have hmod : n % 2 ^ 32 = n := Nat.mod_eq_of_lt (by omega)
  rw [throughInt, hmod, if_pos h]

/-- The first tombstone on the way, before round `j`. -/
def FirstTomb (n h : ℕ) (slot : ℕ → Slot Key ℕ) (j : ℕ) : Option ℕ → Prop
  | none => True
  | some i => ∃ j', j' < j ∧ position n h j' = i ∧ slot i = .tomb

/-- **Probes terminate.**  Given a round for every entry and an empty one, `find_entry` ends where
the key is, or at a free slot on its path. -/
theorem findEntryWithin_ends (hw : WellPlaced entries.length hf.hashing (slots entries))
    (hempty : ∃ i, i < entries.length ∧ slots entries i = .empty)
    (hcap : entries.length < 2 ^ 31) (hn : entries.length ≤ n) (key : Key) :
    (findEntryWithin n entries entries.length key).Ends f t
      (fun i t' => t' = t ∧ EndsAt entries.length hf.hashing (slots entries) key i)
      (fun _ => False) := by
  obtain ⟨i, hi, hslot⟩ := hempty
  obtain ⟨j, hj, hstop, hfirst⟩ := exists_first_stop (H := hf.hashing) hi hslot key
  have hpos : 0 < entries.length := by omega
  have hstart : FirstTomb entries.length (hf.hashing.hash key) (slots entries) 0 none := trivial
  rw [findEntryWithin, ends_bind, ends_getEnv, throughInt_eq hcap, ends_bind, ends_check]
  refine ⟨fun _ => ?_, fun h => h (by omega)⟩
  -- the rounds left, and how far the probe is
  refine Ends.loop (I := fun m st t' => t' = t ∧ ∃ l, l + m = n ∧ l ≤ j ∧
    st.1 = position entries.length (hf.hashing.hash key) l ∧
    FirstTomb entries.length (hf.hashing.hash key) (slots entries) l st.2) n
    ⟨rfl, 0, by omega, by omega, rfl, hstart⟩ ?_ ?_
  · rintro st t' ⟨_, l, hl, hlj, _⟩
    omega
  · rintro m ⟨index, tombstone⟩ t' ⟨rfl, l, hl, hlj, rfl, htomb⟩
    have hlt := position_lt hpos (hf.hashing.hash key) l
    obtain ⟨entry, hget⟩ : ∃ entry, entries[position entries.length (hf.hashing.hash key) l]? =
        some entry := ⟨_, List.getElem?_eq_getElem hlt⟩
    have hsl := slots_of_get hget
    rw [probeRound, ends_bind, ends_getEnv, ends_bind, ends_entryAt hget]
    -- a round that goes on
    have hnext : ∀ tombstone', FirstTomb entries.length (hf.hashing.hash key) (slots entries)
        (l + 1) tombstone' → l < j → t' = t' ∧ ∃ l', l' + m = n ∧ l' ≤ j ∧
        (position entries.length (hf.hashing.hash key) l + 1) % entries.length =
          position entries.length (hf.hashing.hash key) l' ∧
        FirstTomb entries.length (hf.hashing.hash key) (slots entries) l' tombstone' :=
      fun tombstone' ht hlj' => ⟨rfl, l + 1, by omega, by omega, position_succ _ _ _, ht⟩
    have hweak : FirstTomb entries.length (hf.hashing.hash key) (slots entries) (l + 1)
        tombstone := by
      cases tombstone with
      | none => exact trivial
      | some i' =>
        obtain ⟨j', hj', hrest⟩ := htomb
        exact ⟨j', by omega, hrest⟩
    have hlast : ¬ l < j → l = j := fun h => by omega
    cases hkey : entry.key with
    | none =>
      dsimp only
      rw [ends_ite]
      refine ⟨fun hv => ?_, fun hv => ?_⟩
      · -- a tombstone
        have hslot' := hsl.trans (Entry.slot_tomb.mpr ⟨hkey, hv⟩)
        have hlj' : l < j := by
          by_contra hno
          rw [← hlast hno] at hstop
          rcases hstop with hstop | ⟨k', v, hstop, _⟩
          · rw [hslot'] at hstop
            cases hstop
          · rw [hslot'] at hstop
            cases hstop
        refine hnext _ ?_ hlj'
        cases tombstone with
        | none => exact ⟨l, by omega, rfl, hslot'⟩
        | some i' => exact hweak
      · -- an empty entry
        have hslot' : slots entries (position entries.length (hf.hashing.hash key) l) = .empty := by
          rw [hsl, Entry.slot_empty, Entry.used, hkey]
          simp [hv]
        have hlj' : l = j := by
          by_contra hne
          exact hfirst l (by omega) (Or.inl hslot')
        subst hlj'
        rw [ends_pure]
        refine ⟨rfl, ?_⟩
        cases tombstone with
        | none => exact hw.endsAt hj hstop hfirst (le_refl l) (Or.inr ⟨hslot', Or.inl rfl⟩)
        | some i' =>
          obtain ⟨j', hj', rfl, ht⟩ := htomb
          exact hw.endsAt hj hstop hfirst hj'.le (Or.inr ⟨hslot', Or.inr ht⟩)
    | some k =>
      have hslot' : slots entries (position entries.length (hf.hashing.hash key) l) =
          .live k entry.value := hsl.trans (Entry.slot_live.mpr ⟨hkey, rfl⟩)
      dsimp only
      rw [ends_ite]
      refine ⟨fun hsame => ?_, fun hdiff => ?_⟩
      · have hholds : Holds hf.hashing (slots entries) key
            (position entries.length (hf.hashing.hash key) l) := ⟨k, entry.value, hslot', hsame⟩
        have hlj' : l = j := by
          by_contra hne
          exact hfirst l (by omega) (Or.inr hholds)
        subst hlj'
        rw [ends_pure]
        exact ⟨rfl, hw.endsAt hj hstop hfirst (le_refl l) (Or.inl ⟨hholds, rfl⟩)⟩
      · have hlj' : l < j := by
          by_contra hno
          rw [← hlast hno] at hstop
          rcases hstop with hstop | hstop
          · rw [hslot'] at hstop
            cases hstop
          · exact hdiff ((Holds.live hslot').mp hstop)
        exact hnext _ hweak hlj'

/-! ## Counting -/

theorem countP_set_used (hi : i < entries.length) (entry : Entry) :
    (entries.set i entry).countP Entry.used + (if entries[i].used then 1 else 0) =
      entries.countP Entry.used + (if entry.used then 1 else 0) := by
  have hle : (if entries[i].used then 1 else 0) ≤ entries.countP Entry.used := by
    by_cases hu : entries[i].used = true
    · rw [if_pos hu]
      exact List.countP_pos_iff.mpr ⟨entries[i], List.getElem_mem hi, hu⟩
    · rw [if_neg hu]
      exact Nat.zero_le _
  rw [List.countP_set hi]
  omega

theorem countP_store (hi : i < entries.length) (hget : entries[i]? = some entry) (key : Key)
    (value : ℕ) : (entries.set i ⟨some key, value⟩).countP Entry.used =
      entries.countP Entry.used + (if entry.used then 0 else 1) := by
  have hset := countP_set_used hi ⟨some key, value⟩
  have hat : entries[i] = entry := (List.getElem?_eq_some_iff.mp hget).2
  have hused : Entry.used ⟨some key, value⟩ = true := rfl
  rw [hat, hused] at hset
  cases hu : entry.used with
  | true =>
    rw [hu] at hset
    simp only [if_true] at hset ⊢
    omega
  | false =>
    rw [hu] at hset
    simp only [if_true, Bool.false_eq_true, if_false] at hset ⊢
    omega

/-! ## Growing -/

/-- **The invariant of a table.** -/
structure Table.Sound (hf : f.Consistent) (t : Table) : Prop where
  placed : WellPlaced t.capacity hf.hashing (slots t.entries)
  count_eq : t.count = t.entries.countP Entry.used
  load : t.count * 4 ≤ t.capacity * 3
  capacity_lt : t.capacity < 2 ^ 31

/-- What the table has for a key. -/
def Table.Has (hf : f.Consistent) (t : Table) (key : Key) (value : ℕ) : Prop :=
  Maps t.capacity hf.hashing (slots t.entries) key value

theorem Table.Sound.exists_empty (h : t.Sound hf) (hcap : 0 < t.capacity) :
    ∃ i, i < t.capacity ∧ slots t.entries i = .empty := by
  have hcount := h.count_eq
  have hload := h.load
  refine HashTable.exists_empty ?_
  rw [Table.capacity] at hcap hload
  omega

/-- The entries that are still to be put into the new table: their keys differ, and none is
there. -/
structure Pending (hf : f.Consistent) (rest entries : List Entry) : Prop where
  distinct : rest.Pairwise (fun e e' => ∀ k k', e.key = some k → e'.key = some k' →
    ¬ f.Same k k')
  absent : ∀ e ∈ rest, ∀ k, e.key = some k →
    ∀ i, i < entries.length → ¬ Holds hf.hashing (slots entries) k i

/-- The live entries of a list. -/
def Entry.isLive (entry : Entry) : Bool := entry.key.isSome

/-- A list of entries has the value for the key. -/
def Listed (f : Functions) (rest : List Entry) (key : Key) (value : ℕ) : Prop :=
  ∃ e ∈ rest, ∃ k, e.key = some k ∧ e.value = value ∧ f.Same key k

theorem Listed.cons_none {rest : List Entry} (hkey : entry.key = none) (k : Key) (v : ℕ) :
    Listed f (entry :: rest) k v ↔ Listed f rest k v := by
  constructor
  · rintro ⟨e, he, k', hk', hrest⟩
    rcases List.mem_cons.mp he with rfl | he
    · rw [hkey] at hk'
      cases hk'
    · exact ⟨e, he, k', hk', hrest⟩
  · rintro ⟨e, he, hrest⟩
    exact ⟨e, List.mem_cons_of_mem _ he, hrest⟩

theorem Listed.cons_some {rest : List Entry} (hkey : entry.key = some key) (k : Key) (v : ℕ) :
    Listed f (entry :: rest) k v ↔ (f.Same k key ∧ v = entry.value) ∨ Listed f rest k v := by
  constructor
  · rintro ⟨e, he, k', hk', hv, hsame⟩
    rcases List.mem_cons.mp he with rfl | he
    · rw [hkey] at hk'
      cases hk'
      exact Or.inl ⟨hsame, hv.symm⟩
    · exact Or.inr ⟨e, he, k', hk', hv, hsame⟩
  · rintro (⟨hsame, rfl⟩ | ⟨e, he, hrest⟩)
    · exact ⟨entry, List.mem_cons_self, key, hkey, rfl, hsame⟩
    · exact ⟨e, List.mem_cons_of_mem _ he, hrest⟩

/-- **The loop of `ht_resize`** puts every live entry into the new table, and no tombstone. -/
theorem reinsert_ends {newCap : ℕ} (hcap : newCap < 2 ^ 31) :
    ∀ (rest entries : List Entry) (t : Table), entries.length = newCap →
      WellPlaced newCap hf.hashing (slots entries) →
      (∀ i, i < newCap → slots entries i ≠ .tomb) →
      t.count = entries.countP Entry.used →
      t.count + rest.countP Entry.isLive < newCap → Pending hf rest entries →
      (reinsert newCap rest entries).Ends f t
        (fun new t' => new.length = newCap ∧ WellPlaced newCap hf.hashing (slots new) ∧
          t'.count = new.countP Entry.used ∧ t'.count = t.count + rest.countP Entry.isLive ∧
          t'.entries = t.entries ∧
          ∀ k v, Maps newCap hf.hashing (slots new) k v ↔
            Listed f rest k v ∨ Maps newCap hf.hashing (slots entries) k v)
        (fun _ => False) := by
  intro rest
  induction rest with
  | nil =>
    intro entries t hlen hw _ hcount _ _
    refine ⟨hlen, hw, hcount, rfl, rfl, ?_⟩
    intro k v
    refine ⟨Or.inr, ?_⟩
    rintro (⟨e, he, _⟩ | h)
    · cases he
    · exact h
  | cons entry rest ih =>
    intro entries t hlen hw htombs hcount hroom hpend
    obtain ⟨hhead, hdistinct⟩ := List.pairwise_cons.mp hpend.distinct
    have habsent : ∀ e ∈ rest, ∀ k, e.key = some k →
        ∀ i, i < entries.length → ¬ Holds hf.hashing (slots entries) k i :=
      fun e he => hpend.absent e (List.mem_cons_of_mem _ he)
    rw [reinsert]
    cases hkey : entry.key with
    | none =>
      have hlive : (entry :: rest).countP Entry.isLive = rest.countP Entry.isLive := by
        rw [List.countP_cons_of_neg]
        simp [Entry.isLive, hkey]
      rw [hlive] at hroom ⊢
      refine (ih entries t hlen hw htombs hcount hroom ⟨hdistinct, habsent⟩).imp ?_
      rintro new t' ⟨hlen', hw', hcount', hlive', hentries', hmaps⟩
      refine ⟨hlen', hw', hcount', hlive', hentries', ?_⟩
      intro k v
      rw [hmaps, Listed.cons_none hkey]
    | some key =>
      have hlive : (entry :: rest).countP Entry.isLive = rest.countP Entry.isLive + 1 := by
        rw [List.countP_cons_of_pos]
        simp [Entry.isLive, hkey]
      rw [hlive] at hroom ⊢
      have hempty : ∃ i, i < entries.length ∧ slots entries i = .empty :=
        HashTable.exists_empty (by omega)
      dsimp only
      rw [ends_bind]
      subst hlen
      refine (findEntryWithin_ends hw hempty hcap (le_refl _) key).imp ?_
      rintro i t₁ ⟨rfl, hends⟩
      have hi := hends.lt
      obtain ⟨old, hget⟩ : ∃ old, entries[i]? = some old := ⟨_, List.getElem?_eq_getElem hi⟩
      -- the key is not in the new table yet
      have hnot := hpend.absent entry List.mem_cons_self key hkey
      have hold : old.used = false := by
        rw [← Entry.slot_empty, ← slots_of_get hget]
        rcases hends.found with hholds | ⟨hfree | hfree, _⟩
        · exact absurd hholds (hnot i hi)
        · exact hfree
        · exact absurd hfree (htombs i hi)
      have hentry : entry = ⟨some key, entry.value⟩ := by
        rw [← hkey]
      have hslots : slots (entries.set i entry) =
          Function.update (slots entries) i (.live key entry.value) := by
        rw [slots_set hi]
        exact congrArg _ (Entry.slot_live.mpr ⟨hkey, rfl⟩)
      have hcount' : (entries.set i entry).countP Entry.used = entries.countP Entry.used + 1 := by
        rw [hentry, countP_store hi hget, hold]
        rfl
      rw [ends_bind, ends_change]
      refine (ih (entries.set i entry) t₁.counted (by rw [List.length_set]) ?_ ?_ ?_ ?_ ?_).imp ?_
      · rw [hslots]
        exact hw.store hends entry.value
      · intro i' hi' htomb
        rw [hslots] at htomb
        by_cases hii : i' = i
        · rw [hii, Function.update_self] at htomb
          cases htomb
        · rw [Function.update_of_ne hii] at htomb
          exact htombs i' hi' htomb
      · rw [hcount', Table.counted_count, hcount]
      · rw [Table.counted_count]
        omega
      · refine ⟨hdistinct, ?_⟩
        intro e he k hk i' hi' hholds
        rw [List.length_set] at hi'
        rw [hslots] at hholds
        by_cases hii : i' = i
        · rw [hii, Holds.store] at hholds
          exact hhead e he key k hkey hk (hf.equivalence.symm hholds)
        · rw [Holds.update_of_ne hii] at hholds
          exact habsent e he k hk i' hi' hholds
      · rintro new t' ⟨hlen', hw', hcountnew, hlive', hentries', hmaps⟩
        refine ⟨hlen', hw', hcountnew, ?_, hentries', ?_⟩
        · rw [hlive', Table.counted_count]
          omega
        · intro k v
          rw [hmaps, hslots, hw.maps_store hends, Listed.cons_some hkey]
          -- a key that is equal to the stored one was not there
          have hnone : f.Same k key → ¬ Maps entries.length hf.hashing (slots entries) k v := by
            rintro hsame ⟨i', k', hi', hslot, hsame'⟩
            have hholds : Holds hf.hashing (slots entries) k i' := ⟨k', v, hslot, hsame'⟩
            rw [Holds.congr (show hf.hashing.same k key from hsame)] at hholds
            exact hnot i' hi' hholds
          show (_ ∨ f.Same k key ∧ _ ∨ ¬ f.Same k key ∧ _) ↔ _
          by_cases hsame : f.Same k key
          · have := hnone hsame
            tauto
          · tauto

theorem Table.has_iff_listed (t : Table) (key : Key) (value : ℕ) :
    t.Has hf key value ↔ Listed f t.entries key value := by
  constructor
  · rintro ⟨i, k, hi, hslot, hsame⟩
    have hget := List.getElem?_eq_getElem (show i < t.entries.length from hi)
    rw [slots_of_get hget] at hslot
    obtain ⟨hkey, hvalue⟩ := Entry.slot_live.mp hslot
    exact ⟨_, List.getElem_mem _, k, hkey, hvalue, hsame⟩
  · rintro ⟨e, he, k, hkey, hvalue, hsame⟩
    obtain ⟨i, hi⟩ := List.getElem?_of_mem he
    obtain ⟨hlt, _⟩ := List.getElem?_eq_some_iff.mp hi
    refine ⟨i, k, hlt, ?_, hsame⟩
    rw [slots_of_get hi]
    exact Entry.slot_live.mpr ⟨hkey, hvalue⟩

theorem slots_blank (n i : ℕ) : slots (List.replicate n Entry.blank) i = .empty := by
  rw [slots, List.getElem?_replicate]
  by_cases hi : i < n
  · rw [if_pos hi]
    rfl
  · rw [if_neg hi]
    rfl

theorem Table.Sound.pending (h : t.Sound hf) (n : ℕ) :
    Pending hf t.entries (List.replicate n Entry.blank) where
  distinct := by
    rw [List.pairwise_iff_getElem]
    intro i j hi hj hij k k' hk hk' hsame
    have hi' := slots_of_get (List.getElem?_eq_getElem hi)
    have hj' := slots_of_get (List.getElem?_eq_getElem hj)
    rw [Entry.slot_live.mpr ⟨hk, rfl⟩] at hi'
    rw [Entry.slot_live.mpr ⟨hk', rfl⟩] at hj'
    have := h.placed.unique i j k hi hj ⟨k, _, hi', hf.equivalence.refl k⟩ ⟨k', _, hj', hsame⟩
    omega
  absent := by
    rintro e _ k _ i _ ⟨k', v, hslot, _⟩
    rw [slots_blank] at hslot
    cases hslot

theorem countP_isLive_le (entries : List Entry) :
    entries.countP Entry.isLive ≤ entries.countP Entry.used := by
  refine List.countP_mono_left ?_
  intro e _ hlive
  rw [Entry.used, show e.key.isSome = true from hlive]
  rfl

theorem lt_of_kmalloc {newCap : ℕ} (h : newCap * entrySize ≤ kernelHeapLength) :
    newCap < 2 ^ 31 := by
  rw [entrySize, kernelHeapLength] at h
  omega

/-- **`ht_resize`** preserves the mapping. -/
theorem htResize_ends (h : t.Sound hf) {newCap : ℕ} (hroom : t.count < newCap) :
    (htResize newCap).Ends f t
      (fun rv t' => rv = .oom ∨ (rv = .success ∧ t'.capacity = newCap ∧ newCap < 2 ^ 31 ∧
        WellPlaced newCap hf.hashing (slots t'.entries) ∧
        t'.count = t'.entries.countP Entry.used ∧ t'.count ≤ t.count ∧
        ∀ key value, t'.Has hf key value ↔ t.Has hf key value))
      (fun _ => False) := by
  have hcount := h.count_eq
  have hlive := countP_isLive_le t.entries
  have hblank : (List.replicate newCap Entry.blank).countP Entry.used = 0 := by
    rw [List.countP_replicate, if_neg (by decide)]
  rw [htResize, ends_bind, kmalloc]
  simp only [ends_bind, ends_getState, ends_change, ends_pure]
  rw [ends_ite]
  refine ⟨fun hm => ?_, fun _ => Or.inl rfl⟩
  rw [Bool.and_eq_true, decide_eq_true_eq] at hm
  have hcap := lt_of_kmalloc hm.2
  rw [ends_bind, ends_getState, ends_bind, ends_change, ends_bind]
  refine (reinsert_ends hcap t.entries (List.replicate newCap Entry.blank) _
    List.length_replicate (wellPlaced_empty (fun i _ => slots_blank newCap i))
    (fun i _ => by rw [slots_blank]; simp) hblank.symm ?_ (h.pending newCap)).imp ?_
  · show 0 + _ < newCap
    omega
  · rintro new t' ⟨hlen, hw, hcount', hlive', hentries, hmaps⟩
    refine Or.inr ⟨rfl, hlen, hcap, hw, hcount', ?_, ?_⟩
    · have hle : t'.count = 0 + t.entries.countP Entry.isLive := hlive'
      show t'.count ≤ t.count
      omega
    · intro key value
      rw [Table.has_iff_listed t]
      show Maps new.length hf.hashing (slots new) key value ↔ _
      rw [hlen, hmaps]
      refine ⟨?_, Or.inl⟩
      rintro (hl | ⟨i, k, _, hslot, _⟩)
      · exact hl
      · rw [slots_blank] at hslot
        cases hslot

/-- **Growing** leaves the mapping as it was, and room for one more key. -/
theorem growIfLoaded_ends (h : t.Sound hf) :
    growIfLoaded.Ends f t
      (fun rv t' => rv = .oom ∨ (rv = .success ∧ t'.Sound hf ∧
        (t'.count + 1) * 4 ≤ t'.capacity * 3 ∧
        ∀ key value, t'.Has hf key value ↔ t.Has hf key value))
      (fun _ => False) := by
  have hload := h.load
  rw [growIfLoaded, ends_bind, ends_getState, ends_ite]
  refine ⟨fun hfull => ?_, fun hfull => Or.inr ⟨rfl, h, by omega, fun _ _ => Iff.rfl⟩⟩
  have hnew : t.count < (if t.capacity = 0 then 16 else t.capacity * 2) ∧
      (t.count + 1) * 4 ≤ (if t.capacity = 0 then 16 else t.capacity * 2) * 3 := by
    by_cases hzero : t.capacity = 0
    · rw [if_pos hzero]
      omega
    · rw [if_neg hzero]
      omega
  refine (htResize_ends h hnew.1).imp ?_
  rintro rv t' (rfl | ⟨rfl, hcap, hlt, hw, hcount, hle, hmaps⟩)
  · exact Or.inl rfl
  · refine Or.inr ⟨rfl, ⟨?_, hcount, ?_, ?_⟩, ?_, hmaps⟩
    · rw [hcap]
      exact hw
    · rw [hcap]
      omega
    · rw [hcap]
      exact hlt
    · rw [hcap]
      omega

/-! ## The abstract map -/

/-- A finite map from keys to values. -/
abbrev Dict := Key → Option ℕ

/-- The operations. -/
inductive Op where
  | set (key : Key) (value : ℕ) (overwrite : Bool)
  | get (key : Key)
  | del (key : Key)

/-- What an operation returns. -/
inductive Reply where
  | status (rv : Status)
  | pointer (value : ℕ)
  | deleted (found : Bool)
  deriving DecidableEq

/-- What a map returns: `get` the last value or `NULL`, `set` without `overwrite` an error for the
keys that are present. -/
def Dict.reply (m : Dict) : Op → Reply
  | .set key _ overwrite =>
    if (m key).isSome ∧ overwrite = false then .status .exists else .status .success
  | .get key => .pointer ((m key).getD 0)
  | .del key => .deleted (m key).isSome

/-- The map after an operation. -/
def Dict.apply (f : Functions) (m : Dict) : Op → Dict
  | .set key value overwrite =>
    if (m key).isSome ∧ overwrite = false then m
    else fun k => if f.Same k key then some value else m k
  | .get _ => m
  | .del key => fun k => if f.Same k key then none else m k

/-- The operations of the table. -/
def Op.run : Op → HtM Reply
  | .set key value overwrite => Reply.status <$> htSet key value overwrite
  | .get key => Reply.pointer <$> htGet key
  | .del key => Reply.deleted <$> htDel key

/-- The table has what the map has. -/
def Represents (hf : f.Consistent) (t : Table) (m : Dict) : Prop :=
  ∀ key value, t.Has hf key value ↔ m key = some value

theorem Represents.find {m : Dict} (hr : Represents hf t m) (h : t.Sound hf)
    (hends : EndsAt t.capacity hf.hashing (slots t.entries) key i)
    (hget : t.entries[i]? = some entry) :
    (entry.key = none ∧ m key = none) ∨
      ((∃ k, entry.key = some k) ∧ m key = some entry.value ∧
        Holds hf.hashing (slots t.entries) key i) := by
  have hslot := slots_of_get hget
  rcases hends.found with hholds | ⟨hfree, hnone⟩
  · obtain ⟨k, v, hlive, hsame⟩ := hholds
    have hv := Entry.slot_live.mp (hslot.symm.trans hlive)
    refine Or.inr ⟨⟨k, hv.1⟩, ?_, k, v, hlive, hsame⟩
    rw [← hr, Table.Has, h.placed.maps_iff hends.lt hlive hsame]
    exact hv.2
  · refine Or.inl ⟨?_, ?_⟩
    · cases hkey : entry.key with
      | none => rfl
      | some k =>
        rw [hslot, Entry.slot_live.mpr ⟨hkey, rfl⟩] at hfree
        rcases hfree with hfree | hfree
        · cases hfree
        · cases hfree
    · cases hm : m key with
      | none => rfl
      | some v =>
        obtain ⟨i', hi', hk⟩ := maps_holds.mp ⟨v, (hr key v).mpr hm⟩
        exact absurd hk (hnone i' hi')

theorem findEntry_ends (h : t.Sound hf) (hcap : 0 < t.capacity) (key : Key) :
    (findEntry t.entries t.capacity key).Ends f t
      (fun i t' => t' = t ∧ EndsAt t.capacity hf.hashing (slots t.entries) key i ∧
        ∃ entry, t.entries[i]? = some entry)
      (fun _ => False) := by
  refine (findEntryWithin_ends h.placed (h.exists_empty hcap) h.capacity_lt (le_refl _) key).imp ?_
  rintro i t' ⟨rfl, hends⟩
  exact ⟨rfl, hends, _, List.getElem?_eq_getElem hends.lt⟩

theorem Represents.eq_none {m : Dict} (hr : Represents hf t m) (h : t.Sound hf)
    (hcount : t.count = 0) (key : Key) : m key = none := by
  cases hm : m key with
  | none => rfl
  | some v =>
    have hhas := (hr key v).mpr hm
    rw [Table.has_iff_listed] at hhas
    obtain ⟨e, he, k, hkey, _⟩ := hhas
    have hpos : 0 < t.entries.countP Entry.used := by
      refine List.countP_pos_iff.mpr ⟨e, he, ?_⟩
      rw [Entry.used, hkey]
      rfl
    have := h.count_eq
    omega

theorem Table.Sound.capacity_pos (h : t.Sound hf) (hcount : t.count ≠ 0) : 0 < t.capacity := by
  have := h.load
  omega

/-! ## The operations -/

/-- **`ht_get`.** -/
theorem htGet_ends {m : Dict} (hr : Represents hf t m) (h : t.Sound hf) (key : Key) :
    (htGet key).Ends f t (fun value t' => t' = t ∧ value = (m key).getD 0) (fun _ => False) := by
  rw [htGet, ends_bind, ends_getState, ends_ite]
  refine ⟨fun hcount => ⟨rfl, ?_⟩, fun hcount => ?_⟩
  · rw [hr.eq_none h hcount]
    rfl
  · rw [ends_bind]
    refine (findEntry_ends h (h.capacity_pos hcount) key).imp ?_
    rintro i t' ⟨rfl, hends, entry, hget⟩
    rw [ends_bind, ends_entryAt hget, ends_ite]
    rcases hr.find h hends hget with ⟨hkey, hm⟩ | ⟨⟨k, hkey⟩, hm, _⟩
    · rw [hkey, hm]
      exact ⟨fun _ => ⟨rfl, rfl⟩, fun hno => absurd rfl hno⟩
    · rw [hkey, hm]
      exact ⟨fun hno => absurd hno Bool.false_ne_true, fun _ => ⟨rfl, rfl⟩⟩

/-- **`ht_del`.** -/
theorem htDel_ends {m : Dict} (hr : Represents hf t m) (h : t.Sound hf) (key : Key) :
    (htDel key).Ends f t
      (fun found t' => found = (m key).isSome ∧ t'.Sound hf ∧
        Represents hf t' (m.apply f (.del key)))
      (fun _ => False) := by
  have hsame : m key = none → ∀ k, f.Same k key → m k = none := by
    intro hm k hk
    cases hmk : m k with
    | none => rfl
    | some v =>
      obtain ⟨i, k', hi, hslot, hsame'⟩ := (hr k v).mpr hmk
      have hhas : t.Has hf key v := ⟨i, k', hi, hslot,
        hf.equivalence.trans (hf.equivalence.symm hk) hsame'⟩
      rw [hr, hm] at hhas
      cases hhas
  have hgone : m key = none → m.apply f (.del key) = m := by
    intro hm
    funext k
    show (if f.Same k key then none else m k) = m k
    by_cases hk : f.Same k key
    · rw [if_pos hk, hsame hm k hk]
    · rw [if_neg hk]
  rw [htDel, ends_bind, ends_getState, ends_ite]
  refine ⟨fun hcount => ?_, fun hcount => ?_⟩
  · have hm := hr.eq_none h hcount key
    rw [hgone hm, hm]
    exact ⟨rfl, h, hr⟩
  · rw [ends_bind]
    refine (findEntry_ends h (h.capacity_pos hcount) key).imp ?_
    rintro i t' ⟨rfl, hends, entry, hget⟩
    rw [ends_bind, ends_entryAt hget, ends_ite]
    rcases hr.find h hends hget with ⟨hkey, hm⟩ | ⟨⟨k, hkey⟩, hm, hholds⟩
    · rw [hkey, hgone hm, hm]
      exact ⟨fun _ => ⟨rfl, h, hr⟩, fun hno => absurd rfl hno⟩
    · rw [hkey]
      refine ⟨fun hno => absurd hno Bool.false_ne_true, fun _ => ?_⟩
      rw [ends_bind, ends_change, ends_pure]
      have hi : i < t'.entries.length := hends.lt
      have hslots : slots (t'.entries.set i ⟨none, tomb⟩) =
          Function.update (slots t'.entries) i .tomb := slots_set hi _
      have hat : t'.entries[i] = entry := (List.getElem?_eq_some_iff.mp hget).2
      have hused : entry.used = true := by
        rw [Entry.used, hkey]
        rfl
      have hcount' := countP_set_used hi ⟨none, tomb⟩
      rw [hat, hused, show Entry.used ⟨none, tomb⟩ = true from rfl] at hcount'
      have hlen : (t'.entries.set i ⟨none, tomb⟩).length = t'.entries.length := List.length_set
      refine ⟨?_, ⟨?_, ?_, ?_, ?_⟩, ?_⟩
      · rw [hm]
        rfl
      · show WellPlaced (t'.entries.set i ⟨none, tomb⟩).length hf.hashing _
        rw [hlen, hslots]
        exact h.placed.bury i
      · show t'.count = (t'.entries.set i ⟨none, tomb⟩).countP Entry.used
        exact h.count_eq.trans (Nat.add_right_cancel hcount').symm
      · show t'.count * 4 ≤ (t'.entries.set i ⟨none, tomb⟩).length * 3
        rw [hlen]
        exact h.load
      · show (t'.entries.set i ⟨none, tomb⟩).length < 2 ^ 31
        rw [hlen]
        exact h.capacity_lt
      · intro k' v
        show Maps (t'.entries.set i ⟨none, tomb⟩).length hf.hashing _ k' v ↔
          (if f.Same k' key then none else m k') = some v
        rw [hlen, hslots]
        refine (h.placed.maps_bury hends.lt hholds).trans ?_
        show (¬ f.Same k' key ∧ t'.Has hf k' v) ↔ _
        by_cases hk' : f.Same k' key
        · rw [if_pos hk']
          simp [hk']
        · rw [if_neg hk', hr k' v]
          simp [hk']

/-- A value is set for a key that the map does not have, or that is overwritten. -/
theorem Represents.store {m : Dict} (hr : Represents hf t m) (h : t.Sound hf)
    (hends : EndsAt t.capacity hf.hashing (slots t.entries) key i) {t' : Table}
    (hentries : t'.entries = t.entries.set i ⟨some key, value⟩) :
    Represents hf t' (fun k => if f.Same k key then some value else m k) := by
  intro k v
  have hi : i < t.entries.length := hends.lt
  have hslots : slots t'.entries = Function.update (slots t.entries) i (.live key value) := by
    rw [hentries]
    exact slots_set hi _
  have hcap : t'.capacity = t.capacity := by
    rw [Table.capacity, hentries, List.length_set]
    rfl
  rw [Table.Has, hcap, hslots, h.placed.maps_store hends]
  show (f.Same k key ∧ v = value ∨ ¬ f.Same k key ∧ t.Has hf k v) ↔
    (if f.Same k key then some value else m k) = some v
  rw [hr k v]
  by_cases hk : f.Same k key
  · rw [if_pos hk, Option.some.injEq]
    constructor
    · rintro (⟨_, hv⟩ | ⟨hno, _⟩)
      · exact hv.symm
      · exact absurd hk hno
    · intro hv
      exact Or.inl ⟨hk, hv.symm⟩
  · rw [if_neg hk]
    constructor
    · rintro (⟨hyes, _⟩ | ⟨_, hm⟩)
      · exact absurd hyes hk
      · exact hm
    · intro hm
      exact Or.inr ⟨hk, hm⟩

/-- **`ht_set`.** -/
theorem htSet_ends {m : Dict} (hr : Represents hf t m) (h : t.Sound hf) (key : Key) (value : ℕ)
    (overwrite : Bool) :
    (htSet key value overwrite).Ends f t
      (fun rv t' => rv = .oom ∨ (Reply.status rv = m.reply (.set key value overwrite) ∧
        t'.Sound hf ∧ Represents hf t' (m.apply f (.set key value overwrite))))
      (fun _ => False) := by
  rw [htSet, ends_bind]
  refine (growIfLoaded_ends h).imp ?_
  rintro rv t₁ (rfl | ⟨rfl, h₁, hroom, hmaps⟩)
  · rw [ends_ite]
    exact ⟨fun _ => Or.inl rfl, fun hno => absurd (by decide) hno⟩
  have hr₁ : Represents hf t₁ m := fun k v => (hmaps k v).trans (hr k v)
  have hpos : 0 < t₁.capacity := by omega
  rw [ends_ite]
  refine ⟨fun herr => absurd herr Bool.false_ne_true, fun _ => ?_⟩
  rw [ends_bind, ends_getState, ends_bind]
  refine (findEntry_ends h₁ hpos key).imp ?_
  rintro i t₂ ⟨rfl, hends, entry, hget⟩
  rw [ends_bind, ends_entryAt hget, ends_ite]
  have hfind := hr₁.find h₁ hends hget
  have hsome : entry.key.isSome = (m key).isSome := by
    rcases hfind with ⟨hkey, hm⟩ | ⟨⟨k, hkey⟩, hm, _⟩
    · rw [hkey, hm]
      rfl
    · rw [hkey, hm]
      rfl
  rw [hsome]
  refine ⟨fun hex => Or.inr ⟨?_, h₁, ?_⟩, fun hex => ?_⟩
  · rw [Dict.reply, if_pos hex]
  · rw [Dict.apply, if_pos hex]
    exact hr₁
  rw [Dict.reply, Dict.apply, if_neg hex, if_neg hex]
  -- the entry is counted if it was neither live nor a tombstone
  have hcounted : (countNew entry).Ends f t₂
      (fun _ t₃ => t₃.entries = t₂.entries ∧
        t₃.count = t₂.count + if entry.used then 0 else 1) (fun _ => False) := by
    rw [countNew, ends_ite]
    refine ⟨fun hnew => ⟨rfl, ?_⟩, fun hold => ⟨rfl, ?_⟩⟩
    · rw [Entry.used, hnew.1]
      simp [hnew.2, Table.counted]
    · have hused : entry.used = true := by
        rw [Entry.used, Bool.or_eq_true, decide_eq_true_eq]
        by_contra hno
        rw [not_or, Bool.not_eq_true, Option.isSome_eq_false_iff,
          Option.isNone_iff_eq_none] at hno
        exact hold hno
      rw [hused]
      rfl
  rw [ends_bind]
  refine hcounted.imp ?_
  rintro _ t₃ ⟨hentries, hcount⟩
  rw [store, ends_bind, kmalloc]
  simp only [ends_bind, ends_getState, ends_change, ends_pure]
  rw [ends_ite]
  refine ⟨fun _ => ?_, fun _ => Or.inl rfl⟩
  rw [ends_bind, ends_change, ends_pure, hentries]
  have hi : i < t₂.entries.length := hends.lt
  have hlen : (t₂.entries.set i ⟨some key, value⟩).length = t₂.entries.length := List.length_set
  have hslots : slots (t₂.entries.set i ⟨some key, value⟩) =
      Function.update (slots t₂.entries) i (.live key value) := slots_set hi _
  have hstored := countP_store hi hget key value
  have hload := h₁.load
  have hold := h₁.count_eq
  have hnew : t₃.count ≤ t₂.count + 1 := by
    rw [hcount]
    split
    · omega
    · omega
  refine Or.inr ⟨rfl, ⟨?_, ?_, ?_, ?_⟩, ?_⟩
  · show WellPlaced (t₂.entries.set i ⟨some key, value⟩).length hf.hashing _
    rw [hlen, hslots]
    exact h₁.placed.store hends value
  · show t₃.count = _
    rw [hcount, hold]
    exact hstored.symm
  · show t₃.count * 4 ≤ (t₂.entries.set i ⟨some key, value⟩).length * 3
    rw [hlen]
    rw [Table.capacity] at hroom
    omega
  · show (t₂.entries.set i ⟨some key, value⟩).length < 2 ^ 31
    rw [hlen]
    exact h₁.capacity_lt
  · exact hr₁.store h₁ hends rfl

/-- An operation of the table answers as the map does, unless there is no memory. -/
theorem Op.run_ends {m : Dict} (hr : Represents hf t m) (h : t.Sound hf) (op : Op) :
    op.run.Ends f t
      (fun reply t' => reply = .status .oom ∨ (reply = m.reply op ∧ t'.Sound hf ∧
        Represents hf t' (m.apply f op)))
      (fun _ => False) := by
  cases op with
  | set key value overwrite =>
    rw [Op.run, ends_map]
    refine (htSet_ends hr h key value overwrite).imp ?_
    rintro rv t' (rfl | ⟨hrv, hrest⟩)
    · exact Or.inl rfl
    · exact Or.inr ⟨hrv, hrest⟩
  | get key =>
    rw [Op.run, ends_map]
    refine (htGet_ends hr h key).imp ?_
    rintro value t' ⟨rfl, rfl⟩
    exact Or.inr ⟨rfl, h, hr⟩
  | del key =>
    rw [Op.run, ends_map]
    refine (htDel_ends hr h key).imp ?_
    rintro found t' ⟨rfl, h', hr'⟩
    exact Or.inr ⟨rfl, h', hr'⟩

/-! ## Every run -/

/-- A table, and the map of the values set last. -/
structure State where
  table : Table
  map : Dict

/-- An operation, and what the allocator answers meanwhile. -/
structure Event where
  op : Op
  allocs : List Bool

/-- The table at the start of an event. -/
def State.begin (s : State) (e : Event) : Table := { s.table with allocs := e.allocs }

/-- What the event returns, and the table afterwards. -/
def State.result (f : Functions) (s : State) (e : Event) : Option (Reply × Table) :=
  (e.op.run f (s.begin e)).toOption

/-- A table from `ht_init` on. -/
def system (f : Functions) : TransitionSystem State Event where
  init := fun s => s = ⟨Table.init, fun _ => none⟩
  step := fun s e => (s.result f e).map (fun r => ⟨r.2, s.map.apply f e.op⟩)

/-- The allocations of an event succeed. -/
def Allocates (f : Functions) (s : State) (e : Event) : Prop :=
  (s.result f e).map Prod.fst ≠ some (.status .oom)

instance (f : Functions) (s : State) (e : Event) : Decidable (Allocates f s e) :=
  inferInstanceAs (Decidable (¬ _ = _))

/-- The probe for any key ends. -/
def Table.Terminates (f : Functions) (t : Table) : Prop :=
  ∀ key, ∃ i, findEntry t.entries t.capacity key f t = .ok (i, t) ∧ i < t.capacity

/-- The next operation, whatever the allocator answers, answers as the map does. -/
def State.Answers (f : Functions) (s : State) : Prop :=
  ∀ e : Event, e.op.run.Ends f (s.begin e)
    (fun reply _ => reply = .status .oom ∨ reply = s.map.reply e.op) (fun _ => False)

/-- `ht_resize`, for whatever capacity above the number of keys, keeps what the table has. -/
def State.Resizes (hf : f.Consistent) (s : State) : Prop :=
  ∀ (e : Event) (newCap : ℕ), s.table.count < newCap → (htResize newCap).Ends f (s.begin e)
    (fun rv t' => rv = .oom ∨ Represents hf t' s.map) (fun _ => False)

/-- What holds in every state. -/
structure State.Inv (hf : f.Consistent) (s : State) : Prop where
  sound : s.table.Sound hf
  represents : Represents hf s.table s.map

theorem State.Inv.begin {s : State} (h : s.Inv hf) (e : Event) : (s.begin e).Sound hf :=
  ⟨h.sound.placed, h.sound.count_eq, h.sound.load, h.sound.capacity_lt⟩

/-- **Step lemma.**  An operation whose allocations succeed keeps the invariant. -/
theorem State.Inv.step {s s' : State} {e : Event} (h : s.Inv hf) (hC : Allocates f s e)
    (hs : (system f).step s e = some s') : s'.Inv hf := by
  obtain ⟨r, hr, rfl⟩ := Option.map_eq_some_iff.mp hs
  have hrun : e.op.run f (s.begin e) = .ok (r.1, r.2) := by
    rw [State.result] at hr
    cases hres : e.op.run f (s.begin e) with
    | error err =>
      rw [hres] at hr
      cases hr
    | ok r' =>
      rw [hres] at hr
      rw [← Option.some.inj hr]
  rcases (Op.run_ends (t := s.begin e) h.represents (h.begin e) e.op).of_ok hrun with hoom | ⟨_, h'⟩
  · refine absurd ?_ hC
    rw [hr]
    exact congrArg some hoom
  · exact ⟨h'.1, h'.2⟩

theorem State.Inv.init : State.Inv hf ⟨Table.init, fun _ => none⟩ where
  sound := by
    refine ⟨wellPlaced_empty (fun i hi => absurd hi (Nat.not_lt_zero i)), rfl, ?_, ?_⟩
    · exact Nat.zero_le _
    · show 0 < 2 ^ 31
      decide
  represents := by
    intro key value
    rw [Table.has_iff_listed]
    constructor
    · rintro ⟨e, he, _⟩
      cases he
    · intro hno
      cases hno

/-- **The hash table is a finite map.**  In every run whose allocations succeed: every probe ends,
a table with entries has a free one, `count` is the number of live entries and tombstones, the
table has the values set last, resizing keeps them, and the next operation answers accordingly. -/
theorem hashtable_is_map (hf : f.Consistent) {s : State}
    (h : (system f).ReachableUnder (Allocates f) s) :
    (0 < s.table.capacity →
      s.table.Terminates f ∧ ∃ entry ∈ s.table.entries, entry.used = false) ∧
    s.table.count = s.table.entries.countP Entry.used ∧
    Represents hf s.table s.map ∧ s.Resizes hf ∧ s.Answers f := by
  have hinv : s.Inv hf := by
    refine h.invariant ?_ ?_
    · rintro _ rfl
      exact State.Inv.init
    · intro s e s' hs hC hstep
      exact hs.step hC hstep
  have hsound := hinv.sound
  have hrep := hinv.represents
  refine ⟨fun hcap => ⟨?_, ?_⟩, hsound.count_eq, hrep, ?_, ?_⟩
  · intro key
    obtain ⟨i, t', hrun, rfl, hends, _⟩ := (findEntry_ends hsound hcap key).exists_ok
    exact ⟨i, hrun, hends.lt⟩
  · obtain ⟨i, hi, hslot⟩ := hsound.exists_empty hcap
    have hget := List.getElem?_eq_getElem (show i < s.table.entries.length from hi)
    rw [slots_of_get hget, Entry.slot_empty] at hslot
    exact ⟨_, List.getElem_mem _, hslot⟩
  · intro e newCap hroom
    refine (htResize_ends (hinv.begin e) hroom).imp ?_
    rintro rv t' (rfl | ⟨_, _, _, _, _, _, hmaps⟩)
    · exact Or.inl rfl
    · exact Or.inr (fun k v => (hmaps k v).trans (hrep k v))
  · intro e
    refine (Op.run_ends (t := s.begin e) hrep (hinv.begin e) e.op).imp ?_
    rintro reply t' (hoom | ⟨hreply, _⟩)
    · exact Or.inl hoom
    · exact Or.inr hreply

theorem Functions.str_consistent : Functions.str.Consistent where
  equivalence := by
    have hsame : ∀ a b, Functions.str.Same a b ↔ a = b := by
      intro a b
      constructor
      · rintro ⟨_, heq⟩
        exact eq_of_beq heq
      · rintro rfl
        exact ⟨rfl, beq_self_eq_true a⟩
    refine ⟨fun a => (hsame a a).mpr rfl, fun {a b} hab => ?_, fun {a b c} hab hbc => ?_⟩
    · exact (hsame b a).mpr ((hsame a b).mp hab).symm
    · exact (hsame a c).mpr (((hsame a b).mp hab).trans ((hsame b c).mp hbc))
  hash_eq := by
    rintro a b ⟨_, heq⟩
    rw [eq_of_beq heq]

/-- A key is set, refused, deleted and set again in the place of its tombstone. -/
theorem hashtable_is_map_reused : ∃ s : State,
    (system Functions.str).ReachableUnder (Allocates Functions.str) s ∧
      (s.table.capacity = 16 ∧ s.table.count = 2 ∧ s.map [46] = some 9) ∧
      s.table.count = s.table.entries.countP Entry.used ∧ s.Answers Functions.str := by
  obtain ⟨s, hs, hend⟩ := (system Functions.str).exists_reachableUnder_of_runUnder
    (C := Allocates Functions.str) rfl
    [⟨.set [46] 7 false, []⟩, ⟨.set [46, 46] 8 true, []⟩, ⟨.set [46] 8 false, []⟩,
      ⟨.del [46], []⟩, ⟨.get [46], []⟩, ⟨.set [46] 9 false, []⟩]
    (fun s => decide (s.table.capacity = 16 ∧ s.table.count = 2 ∧ s.map [46] = some 9))
    (by decide +kernel)
  have h := hashtable_is_map Functions.str_consistent hs
  exact ⟨s, hs, of_decide_eq_true hend, h.2.1, h.2.2.2.2⟩

end HashTable
