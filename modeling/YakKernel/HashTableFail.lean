/-
# Failing requests of the hash table

`ht_set` when there is no memory, or when it must not overwrite.  `count` is raised before the copy
of the key is allocated, and the table may have grown before: what a failing request leaves behind
is followed through both allocations, for every table that may count too many entries.
-/
import YakKernel.HashTableMap

namespace HashTable

open Prog LinearProbing

variable {f : Functions} {hf : f.Consistent} {entries : List Entry} {entry : Entry} {i n : ℕ}
  {key : Key} {value : ℕ} {t t' t₁ : Table}

/-! ## Tables that count too much -/

/-- `count` is the number of live entries and tombstones. -/
def Table.Exact (t : Table) : Prop := t.count = t.entries.countP Entry.used

instance (t : Table) : Decidable t.Exact := inferInstanceAs (Decidable (_ = _))

/-- A table whose `count` may be larger than it should be. -/
structure Table.Loose (hf : f.Consistent) (t : Table) : Prop where
  placed : WellPlaced t.capacity hf.hashing (slots t.entries)
  used_le : t.entries.countP Entry.used ≤ t.count
  load : t.count * 4 ≤ t.capacity * 3
  capacity_lt : t.capacity < 2 ^ 31

theorem Table.Sound.loose (h : t.Sound hf) : t.Loose hf :=
  ⟨h.placed, h.count_eq.ge, h.load, h.capacity_lt⟩

/-- The table with the right count. -/
def Table.recounted (t : Table) : Table := { t with count := t.entries.countP Entry.used }

theorem Table.Loose.recounted (h : t.Loose hf) : t.recounted.Sound hf where
  placed := h.placed
  count_eq := rfl
  load := (Nat.mul_le_mul_right 4 h.used_le).trans h.load
  capacity_lt := h.capacity_lt

theorem Table.Loose.withAllocs (h : t.Loose hf) (allocs : List Bool) :
    Table.Loose hf { t with allocs := allocs } :=
  ⟨h.placed, h.used_le, h.load, h.capacity_lt⟩

/-- The key is in the table. -/
def Table.Present (hf : f.Consistent) (t : Table) (key : Key) : Prop :=
  ∃ value, t.Has hf key value

/-- A probe in a table that has entries: it says whether the key is there. -/
theorem Table.Loose.findEntry_ends (h : t.Loose hf) (hcap : 0 < t.capacity) (key : Key) :
    (findEntry t.entries t.capacity key).Ends f t
      (fun i t' => t' = t ∧ EndsAt t.capacity hf.hashing (slots t.entries) key i ∧
        ∃ entry, t.entries[i]? = some entry ∧ (entry.key.isSome = true ↔ t.Present hf key))
      (fun _ => False) := by
  have hempty := h.recounted.exists_empty hcap
  refine (findEntryWithin_ends h.placed hempty h.capacity_lt (le_refl _) key).imp ?_
  rintro i t' ⟨rfl, hends⟩
  have hget := List.getElem?_eq_getElem (show i < t'.entries.length from hends.lt)
  refine ⟨rfl, hends, _, hget, ?_⟩
  have hslot := slots_of_get hget
  rw [show t'.Present hf key ↔ _ from maps_holds]
  constructor
  · intro hsome
    obtain ⟨k, hkey⟩ := Option.isSome_iff_exists.mp hsome
    have hlive := hslot.trans (Entry.slot_live.mpr ⟨hkey, rfl⟩)
    rcases hends.found with hholds | ⟨hfree, _⟩
    · exact ⟨i, hends.lt, hholds⟩
    · rw [hlive] at hfree
      rcases hfree with hfree | hfree
      · cases hfree
      · cases hfree
  · rintro ⟨i', hi', hholds⟩
    obtain ⟨k, v, hlive, _⟩ := hends.eq_of_holds h.placed hi' hholds ▸ hholds
    rw [(Entry.slot_live.mp (hslot.symm.trans hlive)).1]
    rfl

/-! ## The allocator -/

/-- The next request, for so many bytes, gets memory. -/
def Table.Grants (t : Table) (size : ℕ) : Prop :=
  t.allocs.headD true = true ∧ size ≤ kernelHeapLength

instance (t : Table) (size : ℕ) : Decidable (t.Grants size) :=
  inferInstanceAs (Decidable (_ ∧ _))

/-- The table after the allocator answered. -/
@[simps -fullyApplied]
def Table.asked (t : Table) : Table := { t with allocs := t.allocs.tail }

theorem kmalloc_eq (t : Table) (size : ℕ) :
    kmalloc size f t = .ok (decide (t.Grants size), t.asked) := by
  have hbool : (t.allocs.headD true && decide (size ≤ kernelHeapLength)) =
      decide (t.Grants size) := by
    rw [Bool.eq_iff_iff, Bool.and_eq_true, decide_eq_true_eq, decide_eq_true_eq]
    exact Iff.rfl
  rw [← hbool]
  rfl

theorem ends_kmalloc {size : ℕ} {Q : Bool → Table → Prop} {R : Failure → Prop} :
    (kmalloc size).Ends f t Q R ↔ Q (decide (t.Grants size)) t.asked :=
  ends_of_ok (kmalloc_eq t size)

/-! ## Growing -/

/-- The live entries. -/
def Table.live (t : Table) : ℕ := t.entries.countP Entry.isLive

/-- One key more is above the load. -/
def Table.Loaded (t : Table) : Prop := (t.count + 1) * 4 > t.capacity * 3

instance (t : Table) : Decidable t.Loaded := inferInstanceAs (Decidable (_ > _))

/-- The capacity that a loaded table grows to. -/
def Table.nextCap (t : Table) : ℕ := if t.capacity = 0 then 16 else t.capacity * 2

theorem probeRound_keeps (entries : List Entry) (n : ℕ) (key : Key) (st : ℕ × Option ℕ)
    (t : Table) :
    (probeRound entries n key st).Ends f t (fun _ t' => t' = t) (fun _ => True) := by
  rw [probeRound, ends_bind, ends_getEnv, ends_bind]
  cases hget : entries[st.1]? with
  | none =>
    rw [entryAt, hget]
    exact trivial
  | some entry =>
    rw [ends_entryAt hget]
    cases entry.key with
    | none =>
      dsimp only
      rw [ends_ite]
      exact ⟨fun _ => rfl, fun _ => rfl⟩
    | some k =>
      dsimp only
      rw [ends_ite]
      exact ⟨fun _ => rfl, fun _ => rfl⟩

theorem findEntry_keeps (entries : List Entry) (n : ℕ) (key : Key) (t : Table) :
    (findEntry entries n key).Ends f t (fun _ t' => t' = t) (fun _ => True) := by
  rw [findEntry, findEntryWithin, ends_bind, ends_getEnv, ends_bind, ends_check]
  refine ⟨fun _ => ?_, fun _ => trivial⟩
  refine Ends.loop (I := fun _ _ t' => t' = t) n rfl (fun _ _ _ => trivial) ?_
  rintro m st t' rfl
  refine (probeRound_keeps entries _ key st t').imp ?_
  rintro r t'' rfl
  cases r with
  | inl st' => rfl
  | inr i => rfl

/-- No tombstone is among the entries. -/
def NoTombs (entries : List Entry) : Prop := ∀ e ∈ entries, e.slot ≠ .tomb

theorem reinsert_keeps (n : ℕ) (rest entries : List Entry) (t : Table)
    (hno : NoTombs entries) :
    (reinsert n rest entries).Ends f t
      (fun new t' => NoTombs new ∧ t'.allocs = t.allocs) (fun _ => True) := by
  induction rest generalizing entries t with
  | nil => exact ⟨hno, rfl⟩
  | cons entry rest ih =>
    rw [reinsert]
    cases hkey : entry.key with
    | none => exact ih entries t hno
    | some k =>
      dsimp only
      rw [ends_bind]
      refine (findEntry_keeps entries n k t).imp ?_
      rintro i t' rfl
      rw [ends_bind, ends_change]
      refine ih (entries.set i entry) t'.counted ?_
      intro e he htomb
      rcases List.mem_or_eq_of_mem_set he with he | rfl
      · exact hno e he htomb
      · rw [(Entry.slot_tomb.mp htomb).1] at hkey
        cases hkey

/-- **`ht_resize` with memory**: the keys stay, the tombstones go, and the count is right. -/
theorem Table.Loose.htResize_ends (h : t.Loose hf) (hroom : t.count < n)
    (hmem : t.Grants (n * entrySize)) :
    (htResize n).Ends f t
      (fun rv t' => rv = .success ∧ t'.capacity = n ∧ n < 2 ^ 31 ∧
        WellPlaced n hf.hashing (slots t'.entries) ∧ t'.Exact ∧ t'.count = t.live ∧
        NoTombs t'.entries ∧ t'.allocs = t.allocs.tail ∧
        ∀ key value, t'.Has hf key value ↔ t.Has hf key value)
      (fun _ => False) := by
  have hcap := lt_of_kmalloc hmem.2
  have hlive := (countP_isLive_le t.entries).trans h.used_le
  have hblank : (List.replicate n Entry.blank).countP Entry.used = 0 := by
    rw [List.countP_replicate, if_neg (by decide)]
  have hnoTombs : NoTombs (List.replicate n Entry.blank) := by
    intro e he htomb
    rw [List.eq_of_mem_replicate he] at htomb
    cases htomb
  rw [htResize, ends_bind, ends_kmalloc, ends_ite]
  refine ⟨fun _ => ?_, fun hno => absurd (decide_eq_true hmem) hno⟩
  rw [ends_bind, ends_getState, ends_bind, ends_change, ends_bind]
  have hkeeps := reinsert_keeps (f := f) n t.entries (List.replicate n Entry.blank)
    { t.asked with count := 0 } hnoTombs
  refine ((reinsert_ends hcap t.entries (List.replicate n Entry.blank) { t.asked with count := 0 }
    List.length_replicate (wellPlaced_empty (fun i _ => slots_blank n i))
    (fun i _ => by rw [slots_blank]; simp) hblank.symm ?_
    (h.recounted.pending n)).and hkeeps).mono ?_ (fun _ hno => hno.1)
  · show 0 + _ < n
    omega
  · rintro new t' ⟨⟨hlen, hw, hcount', hlive', _, hmaps⟩, hno, hallocs⟩
    refine ⟨rfl, hlen, hcap, hw, hcount', hlive'.trans (Nat.zero_add _), hno, hallocs, ?_⟩
    intro key value
    rw [Table.has_iff_listed t]
    show Maps new.length hf.hashing (slots new) key value ↔ _
    rw [hlen, hmaps]
    refine ⟨?_, Or.inl⟩
    rintro (hl | ⟨i, k, _, hslot, _⟩)
    · exact hl
    · rw [slots_blank] at hslot
      cases hslot

theorem growIfLoaded_of_not_loaded (h : ¬ t.Loaded) : growIfLoaded f t = .ok (.success, t) := by
  show (if t.Loaded then htResize t.nextCap else pure .success : HtM Status) f t = _
  rw [if_neg h]
  rfl

theorem growIfLoaded_of_loaded (h : t.Loaded) : growIfLoaded f t = htResize t.nextCap f t := by
  show (if t.Loaded then htResize t.nextCap else pure .success : HtM Status) f t = _
  rw [if_pos h]

theorem growIfLoaded_of_no_memory (h : t.Loaded) (hmem : ¬ t.Grants (t.nextCap * entrySize)) :
    growIfLoaded f t = .ok (.oom, t.asked) := by
  rw [growIfLoaded_of_loaded h]
  rw [htResize, bind_of_ok (kmalloc_eq t _), decide_eq_false hmem]
  rfl

/-- A table that grew. -/
structure Grown (hf : f.Consistent) (t t₁ : Table) : Prop where
  loose : t₁.Loose hf
  not_loaded : ¬ t₁.Loaded
  exact : t₁.Exact
  count_eq : t₁.count = t.live
  noTombs : NoTombs t₁.entries
  allocs_eq : t₁.allocs = t.allocs.tail
  has_iff : ∀ key value, t₁.Has hf key value ↔ t.Has hf key value

/-- **A loaded table grows**, if there is memory for the entries. -/
theorem Table.Loose.growIfLoaded (h : t.Loose hf) (hload : t.Loaded)
    (hmem : t.Grants (t.nextCap * entrySize)) :
    ∃ t₁, growIfLoaded f t = .ok (.success, t₁) ∧ Grown hf t t₁ := by
  have hcount := h.load
  have hnew : t.count < t.nextCap ∧ (t.count + 1) * 4 ≤ t.nextCap * 3 := by
    rw [Table.nextCap]
    by_cases hzero : t.capacity = 0
    · rw [if_pos hzero]
      omega
    · rw [if_neg hzero]
      omega
  obtain ⟨rv, t₁, hrun, rfl, hcap, hlt, hw, hexact, hlive, hno, hallocs, hhas⟩ :=
    (h.htResize_ends hnew.1 hmem).exists_ok
  have hle : t₁.count ≤ t.count := by
    rw [hlive]
    exact (countP_isLive_le t.entries).trans h.used_le
  refine ⟨t₁, (growIfLoaded_of_loaded hload).trans hrun, ⟨?_, hexact.ge, ?_, ?_⟩, ?_, hexact,
    hlive, hno, hallocs, hhas⟩
  · rw [hcap]
    exact hw
  · rw [hcap]
    omega
  · rw [hcap]
    exact hlt
  · rw [Table.Loaded, hcap]
    omega

/-! ## The rest of `ht_set` -/

/-- What `ht_set` does after the table grew is what it does with the grown table. -/
theorem htSet_of_grown (hgrow : growIfLoaded f t = .ok (.success, t₁)) (hroom : ¬ t₁.Loaded)
    (overwrite : Bool) : htSet key value overwrite f t = htSet key value overwrite f t₁ := by
  rw [htSet, bind_of_ok hgrow, bind_of_ok (growIfLoaded_of_not_loaded hroom)]

/-- Whether the probe for the key ends at a tombstone. -/
def Table.Reuses (f : Functions) (t : Table) (key : Key) : Prop :=
  ∃ i, findEntry t.entries t.capacity key f t = .ok (i, t) ∧
    ∃ entry, t.entries[i]? = some entry ∧ entry.slot = .tomb

theorem Table.reuses_iff (hrun : findEntry t.entries t.capacity key f t = .ok (i, t))
    (hget : t.entries[i]? = some entry) : t.Reuses f key ↔ entry.slot = .tomb := by
  constructor
  · rintro ⟨i', hrun', entry', hget', htomb⟩
    rw [hrun] at hrun'
    cases hrun'
    rw [hget] at hget'
    cases hget'
    exact htomb
  · intro htomb
    exact ⟨i, hrun, entry, hget, htomb⟩

theorem countNew_eq (entry : Entry) (t : Table) :
    countNew entry f t = .ok ((), if entry.used then t else t.counted) := by
  rw [countNew]
  by_cases hused : entry.used = true
  · rw [if_pos hused, if_neg]
    · rfl
    · rintro ⟨hkey, hvalue⟩
      rw [Entry.used, hkey, decide_eq_false hvalue] at hused
      cases hused
  · rw [if_neg hused, if_pos]
    · rfl
    · rw [Entry.used, Bool.or_eq_true, not_or, decide_eq_true_eq, Bool.not_eq_true,
        Option.isSome_eq_false_iff, Option.isNone_iff_eq_none] at hused
      exact hused

theorem Table.Loose.stored (h : t.Loose hf) (hroom : ¬ t.Loaded)
    (hends : EndsAt t.capacity hf.hashing (slots t.entries) key i)
    (hget : t.entries[i]? = some entry)
    (hcount : t₁.count = if entry.used then t.count else t.count + 1)
    (hentries : t₁.entries = t.entries.set i ⟨some key, value⟩) : t₁.Loose hf := by
  have hi : i < t.entries.length := hends.lt
  have hcap : t₁.capacity = t.capacity := by
    rw [Table.capacity, hentries, List.length_set]
    rfl
  have hstored := countP_store hi hget key value
  have hle := h.used_le
  have hload := h.load
  rw [Table.Loaded] at hroom
  refine ⟨?_, ?_, ?_, ?_⟩
  · rw [hcap, hentries, slots_set hi]
    exact h.placed.store hends value
  · rw [hentries, hstored, hcount]
    by_cases hused : entry.used = true
    · rw [if_pos hused, if_pos hused]
      exact hle
    · rw [if_neg hused, if_neg hused]
      omega
  · rw [hcap, hcount]
    by_cases hused : entry.used = true
    · rw [if_pos hused]
      exact hload
    · rw [if_neg hused]
      omega
  · rw [hcap]
    exact h.capacity_lt

/-- **`ht_set` without growing.**  It sets the key; or refuses, with the table as it is; or has no
memory for the copy, with a key too many counted if the entry was empty. -/
theorem Table.Loose.htSet_ends (h : t.Loose hf) (hroom : ¬ t.Loaded) (key : Key) (value : ℕ)
    (overwrite : Bool) :
    (htSet key value overwrite).Ends f t
      (fun rv t' =>
        (rv = .success ∧ (t.Present hf key → overwrite = true) ∧ t.Grants key.length ∧
          t'.Loose hf) ∨
        (rv = .exists ∧ t.Present hf key ∧ overwrite = false ∧ t' = t) ∨
        (rv = .oom ∧ (t.Present hf key → overwrite = true) ∧ ¬ t.Grants key.length ∧
          ((t.Present hf key ∨ t.Reuses f key) ∧ t' = t.asked ∨
            ¬ (t.Present hf key ∨ t.Reuses f key) ∧ t' = t.counted.asked)))
      (fun _ => False) := by
  have hpos : 0 < t.capacity := by
    rw [Table.Loaded] at hroom
    omega
  obtain ⟨i, t₁, hrun, rfl, hends, entry, hget, hpresent⟩ := (h.findEntry_ends hpos key).exists_ok
  have hreuses := Table.reuses_iff hrun hget
  have hused : entry.used = true ↔ t₁.Present hf key ∨ t₁.Reuses f key := by
    rw [hreuses, Entry.slot_tomb, ← hpresent, Entry.used, Bool.or_eq_true, decide_eq_true_eq]
    cases entry.key with
    | none => simp
    | some k => simp
  rw [htSet, Ends, bind_of_ok (growIfLoaded_of_not_loaded hroom), ← Ends, ends_ite]
  refine ⟨fun herr => absurd herr Bool.false_ne_true, fun _ => ?_⟩
  rw [ends_bind, ends_getState, ends_bind, ends_of_ok hrun, ends_bind, ends_entryAt hget, ends_ite,
    hpresent]
  refine ⟨fun hex => Or.inr (Or.inl ⟨rfl, hex.1, hex.2, rfl⟩), fun hset => ?_⟩
  have hover : t₁.Present hf key → overwrite = true := by
    intro hpres
    by_contra hno
    exact hset ⟨hpres, Bool.eq_false_iff.mpr hno⟩
  rw [ends_bind, ends_of_ok (countNew_eq entry t₁), store, ends_bind, ends_kmalloc, ends_ite,
    decide_eq_true_eq]
  have hallocs : (if entry.used then t₁ else t₁.counted).allocs = t₁.allocs := by
    by_cases hu : entry.used = true
    · rw [if_pos hu]
    · rw [if_neg hu]
      rfl
  have hgrants : (if entry.used then t₁ else t₁.counted).Grants key.length ↔
      t₁.Grants key.length := by
    rw [Table.Grants, hallocs]
    exact Iff.rfl
  rw [hgrants]
  refine ⟨fun hmem => Or.inl ⟨rfl, hover, hmem, ?_⟩, fun hmem => Or.inr (Or.inr ⟨rfl, hover, hmem,
    ?_⟩)⟩
  · refine h.stored hroom hends hget ?_ (?_ : _ = t₁.entries.set i ⟨some key, value⟩)
    · by_cases hu : entry.used = true
      · rw [if_pos hu, if_pos hu]
        rfl
      · rw [if_neg hu, if_neg hu]
        rfl
    · by_cases hu : entry.used = true
      · rw [if_pos hu]
        rfl
      · rw [if_neg hu]
        rfl
  · rw [← hused]
    by_cases hu : entry.used = true
    · rw [if_pos hu]
      exact Or.inl ⟨hu, rfl⟩
    · rw [if_neg hu]
      exact Or.inr ⟨hu, rfl⟩

/-! ## Every run -/

theorem Table.Loose.htSet (h : t.Loose hf) (key : Key) (value : ℕ) (overwrite : Bool) :
    (HashTable.htSet key value overwrite).Ends f t (fun _ t' => t'.Loose hf) (fun _ => False) := by
  have hroom : ∀ t : Table, t.Loose hf → ¬ t.Loaded →
      (HashTable.htSet key value overwrite).Ends f t (fun _ t' => t'.Loose hf)
        (fun _ => False) := by
    intro t h hload
    refine (h.htSet_ends hload key value overwrite).imp ?_
    rintro rv t' (⟨_, _, _, h'⟩ | ⟨_, _, _, rfl⟩ | ⟨_, _, _, ⟨_, rfl⟩ | ⟨_, rfl⟩⟩)
    · exact h'
    · exact h
    · exact h.withAllocs _
    · refine ⟨h.placed, Nat.le_succ_of_le h.used_le, ?_, h.capacity_lt⟩
      rw [Table.Loaded] at hload
      show (t.count + 1) * 4 ≤ t.capacity * 3
      omega
  by_cases hload : t.Loaded
  · by_cases hmem : t.Grants (t.nextCap * entrySize)
    · obtain ⟨t₁, hgrow, hg⟩ := h.growIfLoaded hload hmem
      obtain ⟨rv, t', hrun, h'⟩ := (hroom t₁ hg.loose hg.not_loaded).exists_ok
      exact (ends_of_ok ((htSet_of_grown hgrow hg.not_loaded overwrite).trans hrun)).mpr h'
    · have hrun : HashTable.htSet key value overwrite f t = .ok (.oom, t.asked) := by
        rw [HashTable.htSet, bind_of_ok (growIfLoaded_of_no_memory hload hmem)]
        rfl
      exact (ends_of_ok hrun).mpr (h.withAllocs _)
  · exact hroom t h hload

theorem Table.Loose.htDel (h : t.Loose hf) (key : Key) :
    (HashTable.htDel key).Ends f t (fun _ t' => t'.Loose hf) (fun _ => False) := by
  rw [HashTable.htDel, ends_bind, ends_getState, ends_ite]
  refine ⟨fun _ => h, fun hcount => ?_⟩
  have hload := h.load
  rw [ends_bind]
  refine (h.findEntry_ends (by omega) key).imp ?_
  rintro i t' ⟨rfl, hends, entry, hget, _⟩
  rw [ends_bind, ends_entryAt hget, ends_ite]
  refine ⟨fun _ => h, fun hlive => ?_⟩
  rw [ends_bind, ends_change, ends_pure]
  have hi : i < t'.entries.length := hends.lt
  have hlen : (t'.entries.set i ⟨none, tomb⟩).length = t'.entries.length := List.length_set
  have hcount' := countP_set_used hi ⟨none, tomb⟩
  have hused : t'.entries[i].used = true := by
    rw [(List.getElem?_eq_some_iff.mp hget).2, Entry.used]
    cases hkey : entry.key with
    | none =>
      rw [hkey] at hlive
      exact absurd rfl hlive
    | some k => rfl
  rw [hused, show Entry.used ⟨none, tomb⟩ = true from rfl] at hcount'
  refine ⟨?_, ?_, ?_, ?_⟩
  · show WellPlaced (t'.entries.set i ⟨none, tomb⟩).length hf.hashing
      (slots (t'.entries.set i ⟨none, tomb⟩))
    rw [hlen, slots_set hi]
    exact h.placed.bury i
  · exact (Nat.add_right_cancel hcount').le.trans h.used_le
  · show t'.count * 4 ≤ (t'.entries.set i ⟨none, tomb⟩).length * 3
    rw [hlen]
    exact h.load
  · show (t'.entries.set i ⟨none, tomb⟩).length < 2 ^ 31
    rw [hlen]
    exact h.capacity_lt

theorem Table.Loose.htGet (h : t.Loose hf) (key : Key) :
    (HashTable.htGet key).Ends f t (fun _ t' => t' = t) (fun _ => False) := by
  rw [HashTable.htGet, ends_bind, ends_getState, ends_ite]
  refine ⟨fun _ => rfl, fun hcount => ?_⟩
  have hload := h.load
  rw [ends_bind]
  refine (h.findEntry_ends (by omega) key).imp ?_
  rintro i t' ⟨rfl, _, entry, hget, _⟩
  rw [ends_bind, ends_entryAt hget, ends_ite]
  exact ⟨fun _ => rfl, fun _ => rfl⟩

theorem Table.Loose.run (h : t.Loose hf) (op : Op) :
    op.run.Ends f t (fun _ t' => t'.Loose hf) (fun _ => False) := by
  cases op with
  | set key value overwrite =>
    rw [Op.run, ends_map]
    exact h.htSet key value overwrite
  | get key =>
    rw [Op.run, ends_map]
    refine (h.htGet key).imp ?_
    rintro _ t' rfl
    exact h
  | del key =>
    rw [Op.run, ends_map]
    exact h.htDel key

/-- The table of a state is loose. -/
def State.Loose (hf : f.Consistent) (s : State) : Prop := s.table.Loose hf

/-- **Every table is loose**, whatever the allocator answered so far. -/
theorem loose_of_reachable (hf : f.Consistent) {s : State} (h : (system f).Reachable s) :
    s.Loose hf := by
  refine h.invariant ?_ ?_
  · rintro _ rfl
    exact State.Inv.init.sound.loose
  · intro s e s' hs hstep
    obtain ⟨r, hr, rfl⟩ := Option.map_eq_some_iff.mp hstep
    obtain ⟨reply, t', hrun, hloose⟩ := (Table.Loose.run (hs.withAllocs e.allocs) e.op).exists_ok
    rw [State.result, State.begin, hrun] at hr
    cases hr
    exact hloose

/-! ## What a failing request leaves -/

/-- `count`, what the table has, and whether `count` is right are as before. -/
structure Table.Kept (hf : f.Consistent) (t t' : Table) : Prop where
  count_eq : t'.count = t.count
  has_iff : ∀ key value, t'.Has hf key value ↔ t.Has hf key value
  exact_iff : t'.Exact ↔ t.Exact

/-- When a failing `ht_set` keeps the table.  Without growing: the key is there, or its copy gets
memory, or the probe finds a tombstone for it.  With growing: there is no memory for the entries,
or the whole request succeeds, or `count` was already what it is afterwards. -/
def Table.FailsCleanly (hf : f.Consistent) (t : Table) (key : Key) (overwrite : Bool) : Prop :=
  (¬ t.Loaded ∧ (t.Present hf key ∨ t.Grants key.length ∨ t.Reuses f key)) ∨
    (t.Loaded ∧ (¬ t.Grants (t.nextCap * entrySize) ∨
      (t.Present hf key ∧ (overwrite = true ∧ t.asked.Grants key.length ∨ t.count = t.live)) ∨
      (¬ t.Present hf key ∧ (t.asked.Grants key.length ∨ t.count = t.live + 1 ∧ ¬ t.Exact))))

theorem Table.Kept.refl (t : Table) : t.Kept hf t :=
  ⟨rfl, fun _ _ => Iff.rfl, Iff.rfl⟩

theorem Table.Kept.asked (h : t.Kept hf t₁) : t.Kept hf t₁.asked :=
  ⟨h.count_eq, h.has_iff, h.exact_iff⟩

theorem Grown.kept_iff (hg : Grown hf t t₁) (h : t.Loose hf) :
    t.Kept hf t₁ ↔ t.count = t.live := by
  constructor
  · intro hk
    rw [← hk.count_eq, hg.count_eq]
  · intro hlive
    have hle := countP_isLive_le t.entries
    have hused := h.used_le
    refine ⟨hg.count_eq.trans hlive.symm, hg.has_iff, ⟨fun _ => ?_, fun _ => hg.exact⟩⟩
    rw [Table.Exact]
    rw [Table.live] at hlive
    omega

/-- A grown table that counts a key too many is kept if the table did so before. -/
theorem Grown.counted_kept_iff (hg : Grown hf t t₁) :
    t.Kept hf t₁.counted ↔ t.count = t.live + 1 ∧ ¬ t.Exact := by
  have hnot : ¬ t₁.counted.Exact := by
    intro hex
    have hright := hg.exact
    rw [Table.Exact] at hright hex
    rw [Table.counted_count, Table.counted_entries] at hex
    omega
  have hcount : t₁.counted.count = t.live + 1 := by
    rw [Table.counted_count, hg.count_eq]
  constructor
  · intro hk
    refine ⟨hk.count_eq.symm.trans hcount, fun hex => hnot (hk.exact_iff.mpr hex)⟩
  · rintro ⟨hlive, hno⟩
    exact ⟨hcount.trans hlive.symm, hg.has_iff, iff_of_false hnot hno⟩

theorem Table.not_kept_counted (t : Table) : ¬ t.Kept hf t.counted.asked := by
  intro hk
  have hcount : t.count + 1 = t.count := hk.count_eq
  omega

theorem Grown.not_reuses (hg : Grown hf t t₁) : ¬ t₁.Reuses f key := by
  rintro ⟨i, _, entry, hget, htomb⟩
  exact hg.noTombs entry (List.mem_of_getElem? hget) htomb

theorem Grown.present_iff (hg : Grown hf t t₁) : t₁.Present hf key ↔ t.Present hf key :=
  exists_congr (fun value => hg.has_iff key value)

theorem Grown.grants_iff (hg : Grown hf t t₁) : t₁.Grants n ↔ t.asked.Grants n := by
  rw [Table.Grants, Table.Grants, hg.allocs_eq, Table.asked_allocs]

theorem Table.failsCleanly_of_grows (hload : t.Loaded) (hmem : t.Grants (t.nextCap * entrySize))
    (overwrite : Bool) : t.FailsCleanly hf key overwrite ↔
      (t.Present hf key → (overwrite = true ∧ t.asked.Grants key.length) ∨ t.count = t.live) ∧
      (¬ t.Present hf key → t.asked.Grants key.length ∨ t.count = t.live + 1 ∧ ¬ t.Exact) := by
  by_cases hpres : t.Present hf key
  · simp [Table.FailsCleanly, hload, hmem, hpres]
  · simp [Table.FailsCleanly, hload, hmem, hpres]

/-- **Failing requests.**  For every table: when `ht_set` fails, whatever the allocator answers,
`count`, every key's mapping and the invariant are as before exactly if `FailsCleanly`. -/
theorem htSet_atomic_iff (hf : f.Consistent) (h : t.Loose hf) (key : Key) (value : ℕ)
    (overwrite : Bool) :
    (htSet key value overwrite).Ends f t (fun rv t' => rv.isErr = true → t.Kept hf t')
      (fun _ => False) ↔ t.FailsCleanly hf key overwrite := by
  by_cases hload : t.Loaded
  · by_cases hmem : t.Grants (t.nextCap * entrySize)
    · obtain ⟨t₁, hgrow, hg⟩ := h.growIfLoaded hload hmem
      have hkept := hg.kept_iff h
      have hcounted := hg.counted_kept_iff
      obtain ⟨rv, t', hrun, hout⟩ :=
        (hg.loose.htSet_ends hg.not_loaded key value overwrite).exists_ok
      have hrun' : htSet key value overwrite f t = .ok (rv, t') :=
        (htSet_of_grown hgrow hg.not_loaded overwrite).trans hrun
      rw [ends_of_ok hrun', Table.failsCleanly_of_grows hload hmem]
      rw [hg.present_iff, hg.grants_iff] at hout
      have hasked : ∀ t₂ : Table, t.Kept hf t₂.asked ↔ t.Kept hf t₂ :=
        fun t₂ => ⟨fun hk => ⟨hk.count_eq, hk.has_iff, hk.exact_iff⟩, Table.Kept.asked⟩
      rcases hout with ⟨rfl, hover, hgrants, _⟩ | ⟨rfl, hpres, hno, rfl⟩ |
        ⟨rfl, hover, hgrants, hleft⟩
      · -- the key is set
        exact iff_of_true (fun herr => absurd herr Bool.false_ne_true)
          ⟨fun hpres => Or.inl ⟨hover hpres, hgrants⟩, fun _ => Or.inl hgrants⟩
      · -- the key is there, and must stay
        rw [← hkept, hno]
        constructor
        · intro hk
          exact ⟨fun _ => Or.inr (hk rfl), fun habs => absurd hpres habs⟩
        · rintro ⟨hcount, _⟩ _
          rcases hcount hpres with ⟨hyes, _⟩ | hk
          · exact absurd hyes Bool.false_ne_true
          · exact hk
      · rcases hleft with ⟨hold, rfl⟩ | ⟨hnew, rfl⟩
        · -- no memory to overwrite
          have hpres : t.Present hf key := hold.resolve_right hg.not_reuses
          rw [hasked, hkept]
          constructor
          · intro hk
            exact ⟨fun _ => Or.inr (hk rfl), fun habs => absurd hpres habs⟩
          · rintro ⟨hcount, _⟩ _
            exact (hcount hpres).resolve_left (fun hyes => hgrants hyes.2)
        · -- no memory for a new key
          have hpres : ¬ t.Present hf key := fun hpres => hnew (Or.inl hpres)
          rw [hasked, hcounted]
          constructor
          · intro hk
            exact ⟨fun hyes => absurd hyes hpres, fun _ => Or.inr (hk rfl)⟩
          · rintro ⟨_, hcount⟩ _
            exact (hcount hpres).resolve_left hgrants
    · have hrun : htSet key value overwrite f t = .ok (.oom, t.asked) := by
        rw [htSet, bind_of_ok (growIfLoaded_of_no_memory hload hmem)]
        rfl
      rw [ends_of_ok hrun]
      exact iff_of_true (fun _ => (Table.Kept.refl t).asked) (Or.inr ⟨hload, Or.inl hmem⟩)
  · obtain ⟨rv, t', hrun, hout⟩ := (h.htSet_ends hload key value overwrite).exists_ok
    rw [ends_of_ok hrun, Table.FailsCleanly]
    rcases hout with ⟨rfl, _, hmem, _⟩ | ⟨rfl, hpres, _, rfl⟩ | ⟨rfl, hover, hmem, hleft⟩
    · exact iff_of_true (fun herr => absurd herr Bool.false_ne_true)
        (Or.inl ⟨hload, Or.inr (Or.inl hmem)⟩)
    · exact iff_of_true (fun _ => Table.Kept.refl t') (Or.inl ⟨hload, Or.inl hpres⟩)
    · rcases hleft with ⟨hold, rfl⟩ | ⟨hnew, rfl⟩
      · refine iff_of_true (fun _ => (Table.Kept.refl t).asked) (Or.inl ⟨hload, ?_⟩)
        exact hold.imp_right Or.inr
      · refine iff_of_false (fun hk => t.not_kept_counted (hk rfl)) ?_
        rintro (⟨_, hpres | hgrants | hre⟩ | ⟨hyes, _⟩)
        · exact hnew (Or.inl hpres)
        · exact hmem hgrants
        · exact hnew (Or.inr hre)
        · exact hload hyes

/-- Without memory for the first entries the table stays empty; without memory for the first key it
counts one. -/
theorem htSet_atomic_iff_init :
    (htSet [46] 7 false).Ends Functions.str { Table.init with allocs := [false] }
      (fun rv t' => rv.isErr = true →
        Table.Kept Functions.str_consistent { Table.init with allocs := [false] } t')
      (fun _ => False) ∧
    ¬ (htSet [46] 7 false).Ends Functions.str { Table.init with allocs := [true, false] }
      (fun rv t' => rv.isErr = true →
        Table.Kept Functions.str_consistent { Table.init with allocs := [true, false] } t')
      (fun _ => False) := by
  have hinit : Table.init.Loose Functions.str_consistent := State.Inv.init.sound.loose
  constructor
  · refine (htSet_atomic_iff _ (hinit.withAllocs [false]) [46] 7 false).mpr ?_
    refine Or.inr ⟨by decide, Or.inl ?_⟩
    rintro ⟨hno, _⟩
    cases hno
  · rw [htSet_atomic_iff _ (hinit.withAllocs [true, false])]
    have hgrants : Table.Grants { Table.init with allocs := [true, false] } (16 * entrySize) := by
      refine ⟨rfl, ?_⟩
      rw [kernelHeapLength]
      decide
    have habsent : ¬ Table.Present Functions.str_consistent
        { Table.init with allocs := [true, false] } [46] := by
      rintro ⟨value, i, k, hi, _⟩
      exact absurd hi (Nat.not_lt_zero i)
    rw [Table.failsCleanly_of_grows (by decide) hgrants]
    rintro ⟨_, hnew⟩
    rcases hnew habsent with ⟨hno, _⟩ | ⟨hcount, _⟩
    · cases hno
    · exact absurd hcount (by decide)

/-- What a run from `ht_init` returns, `count`, and the number of entries in use. -/
def outcome (x : HtM Status) (allocs : List Bool) : Option (Status × ℕ × ℕ) :=
  (x Functions.str { Table.init with allocs := allocs }).toOption.map
    (fun r => (r.1, r.2.count, r.2.entries.countP Entry.used))

/-- A second key without memory for its copy is counted: 2 for a table with one entry in use. -/
theorem htSet_not_atomic :
    outcome (htSet [46] 7 false) [true, true] = some (.success, 1, 1) ∧
      outcome (do
        let _ ← htSet [46] 7 false
        htSet [47] 8 false) [true, true, false] = some (.oom, 2, 1) := by
  decide +kernel

end HashTable
