/-
# The tables of an amap

No two paths, of one amap or of two, lead to one table.  A new table and a store to a slot keep
this; what they change is the slot alone, so that a lookup finds the slot of its offset.
-/
import YakKernel.Amap

namespace Amap

open RadixTree

/-! ## Paths -/

/-- The table that an entry of a table points to; on level 0 the entries are anons. -/
def child (mem : ℕ → ℕ → ℕ) (lvl table i : ℕ) : Option ℕ :=
  if lvl ≠ 0 ∧ mem table i ≠ 0 then some (mem table i) else none

/-- The table at the end of a path of an amap. -/
def Heap.tableAt (h : Heap) (amap : ℕ) (path : List ℕ) : Option ℕ := walk (child h.mem) 3 amap path

/-- The anon in a slot, if there is its table. -/
def Heap.content (h : Heap) (amap : ℕ) (path : List ℕ) (i : ℕ) : ℕ :=
  (h.tableAt amap path).elim 0 (fun table => h.mem table i)

variable {h h' : Heap} {amaps : List ℕ} {a b t i n : ℕ} {path place : List ℕ}

theorem child_leaf (mem : ℕ → ℕ → ℕ) (table i : ℕ) : child mem 0 table i = none :=
  if_neg (fun hand => hand.1 rfl)

theorem child_none {mem : ℕ → ℕ → ℕ} (lvl : ℕ) (hzero : mem t i = 0) : child mem lvl t i = none :=
  if_neg (fun hand => hand.2 hzero)

theorem child_some {mem : ℕ → ℕ → ℕ} {lvl : ℕ} (hlvl : lvl ≠ 0) (hne : mem t i ≠ 0) :
    child mem lvl t i = some (mem t i) := if_pos ⟨hlvl, hne⟩

theorem child_congr {mem mem' : ℕ → ℕ → ℕ} (lvl : ℕ) (hsame : mem' t i = mem t i) :
    child mem' lvl t i = child mem lvl t i := by
  rw [child, child, hsame]

theorem tableAt_concat (ht : h.tableAt a place = some t) (hlen : place.length < 3) (i : ℕ) :
    h.tableAt a (place ++ [i]) = if h.mem t i ≠ 0 then some (h.mem t i) else none := by
  have hw : walk (child h.mem) 3 a place = some t := ht
  have hlvl : 3 - place.length ≠ 0 := by omega
  rw [Heap.tableAt, walk_concat, hw, Option.bind_some]
  by_cases hne : h.mem t i ≠ 0
  · rw [if_pos hne, child_some hlvl hne]
  · rw [if_neg hne, child_none _ (not_not.mp hne)]

theorem descend_false {lvl : ℕ} (hlen : path.length ≤ lvl) :
    descend false path n h = (walk (child h.mem) lvl n path).map (fun table => (table, h)) := by
  induction path generalizing n lvl with
  | nil => rfl
  | cons i path ih =>
    have hlvl : lvl ≠ 0 := by
      rintro rfl
      exact absurd hlen (Nat.not_succ_le_zero _)
    have hrest : path.length ≤ lvl - 1 := by
      rw [List.length_cons] at hlen
      omega
    rw [descend, nextTable, walk_cons]
    by_cases hne : h.mem n i ≠ 0
    · rw [if_pos hne, child_some hlvl hne, Option.bind_some, Option.bind_some, ih hrest]
    · rw [if_neg hne, child_none _ (not_not.mp hne), if_neg Bool.false_ne_true]
      rfl

theorem anonAt_eq (h : Heap) (a offset : ℕ) :
    anonAt h a offset = h.content a (pathOf offset) (l1i offset) := by
  have hlen : (pathOf offset).length ≤ 3 := Nat.le_refl 3
  rw [anonAt, vmAmapLookup, descend_false hlen, Heap.content, Heap.tableAt]
  cases walk (child h.mem) 3 a (pathOf offset) with
  | none => rfl
  | some table => rfl

/-! ## The invariant -/

/-- **The invariant of the amaps**: their tables are allocated, and each is at the end of one path
of one amap. -/
structure Sound (h : Heap) (amaps : List ℕ) : Prop where
  next : 0 < h.next
  lt : ∀ a ∈ amaps, ∀ path t, h.tableAt a path = some t → t < h.next
  separate : ∀ a ∈ amaps, ∀ b ∈ amaps, ∀ path path' t, h.tableAt a path = some t →
    h.tableAt b path' = some t → a = b ∧ path = path'

theorem Sound.of_tableAt (hs : Sound h amaps) (hnext : h.next ≤ h'.next)
    (hsame : ∀ a ∈ amaps, ∀ path, h'.tableAt a path = h.tableAt a path) : Sound h' amaps where
  next := Nat.lt_of_lt_of_le hs.next hnext
  lt := by
    intro a ha path t ht
    rw [hsame a ha] at ht
    exact Nat.lt_of_lt_of_le (hs.lt a ha path t ht) hnext
  separate := by
    intro a ha b hb path path' t ht ht'
    rw [hsame a ha] at ht
    rw [hsame b hb] at ht'
    exact hs.separate a ha b hb path path' t ht ht'

/-! ## A new table -/

theorem Heap.store_apply (h : Heap) (t i pointer n j : ℕ) :
    (h.store t i pointer).mem n j = if n = t ∧ j = i then pointer else h.mem n j := by
  rw [Heap.store_mem]
  by_cases hn : n = t
  · subst hn
    rw [Function.update_self, Function.update_apply]
    by_cases hj : j = i
    · rw [if_pos hj, if_pos ⟨rfl, hj⟩]
    · rw [if_neg hj, if_neg (fun hand => hj hand.2)]
  · rw [Function.update_of_ne hn, if_neg (fun hand => hn hand.1)]

theorem Heap.addTable_mem (h : Heap) (t i n j : ℕ) : (h.addTable t i).mem n j =
    if n = t ∧ j = i then h.next else if n = h.next then 0 else h.mem n j := by
  rw [Heap.addTable, Heap.store_apply, Heap.alloc_mem, Function.update_apply]
  by_cases hn : n = h.next
  · rw [if_pos hn, if_pos hn]
  · rw [if_neg hn, if_neg hn]

section

variable (hs : Sound h amaps) (ha : a ∈ amaps) (ht : h.tableAt a place = some t)

include hs ha ht

/-- **The tables after one was added** at an entry that pointed to none. -/
theorem Sound.tableAt_addTable (hlen : place.length < 3) (hzero : h.mem t i = 0) (hb : b ∈ amaps)
    (path : List ℕ) : (h.addTable t i).tableAt b path =
      if path = place ++ [i] ∧ b = a then some h.next else h.tableAt b path := by
  have hlt := hs.lt a ha place t ht
  have hadd : (h.addTable t i).tableAt b path =
      if path = place ++ [i] ∧ h.tableAt b place = some t then some h.next
      else h.tableAt b path := by
    refine walk_add ?_ ?_ ?_ ?_ ?_ ?_ path
    · intro path' hw
      exact (hs.separate b hb a ha path' place t hw ht).2
    · intro path' hw
      exact absurd (hs.lt b hb path' h.next hw) (Nat.lt_irrefl _)
    · intro k c j hc hother
      apply child_congr
      rw [Heap.addTable_mem, if_neg hother, if_neg hc]
    · intro k j
      apply child_none
      rw [Heap.addTable_mem, if_neg (fun hand => Nat.ne_of_gt hlt hand.1), if_pos rfl]
    · exact child_none _ hzero
    · have hself : (h.addTable t i).mem t i = h.next := by
        rw [Heap.addTable_mem, if_pos ⟨rfl, rfl⟩]
      rw [child_some (by omega) (by rw [hself]; exact Nat.ne_of_gt hs.next), hself]
  have hiff : h.tableAt b place = some t ↔ b = a := by
    refine ⟨fun hw => (hs.separate b hb a ha place place t hw ht).1, ?_⟩
    rintro rfl
    exact ht
  rw [hadd]
  simp only [hiff]

theorem Sound.addTable (hlen : place.length < 3) (hzero : h.mem t i = 0) :
    Sound (h.addTable t i) amaps := by
  have htable := fun b hb path => @Sound.tableAt_addTable _ _ a b t i place hs ha ht hlen hzero hb path
  have hnew : ∀ b ∈ amaps, ∀ path, h.tableAt b path ≠ some h.next := by
    intro b hb path hw
    exact absurd (hs.lt b hb path h.next hw) (Nat.lt_irrefl _)
  refine ⟨Nat.succ_pos _, ?_, ?_⟩
  · intro b hb path c hc
    rw [htable b hb] at hc
    show c < h.next + 1
    by_cases hhere : path = place ++ [i] ∧ b = a
    · rw [if_pos hhere, Option.some.injEq] at hc
      omega
    · rw [if_neg hhere] at hc
      exact Nat.lt_succ_of_lt (hs.lt b hb path c hc)
  · intro b hb b' hb' path path' c hc hc'
    rw [htable b hb] at hc
    rw [htable b' hb'] at hc'
    by_cases hhere : path = place ++ [i] ∧ b = a
    · rw [if_pos hhere, Option.some.injEq] at hc
      by_cases hhere' : path' = place ++ [i] ∧ b' = a
      · exact ⟨hhere.2.trans hhere'.2.symm, hhere.1.trans hhere'.1.symm⟩
      · rw [if_neg hhere', ← hc] at hc'
        exact absurd hc' (hnew b' hb' path')
    · rw [if_neg hhere] at hc
      by_cases hhere' : path' = place ++ [i] ∧ b' = a
      · rw [if_pos hhere', Option.some.injEq] at hc'
        rw [← hc'] at hc
        exact absurd hc (hnew b hb path)
      · rw [if_neg hhere'] at hc'
        exact hs.separate b hb b' hb' path path' c hc hc'

theorem Sound.content_addTable (hlen : place.length < 3) (hzero : h.mem t i = 0) (hb : b ∈ amaps)
    (hpath : path.length = 3) (j : ℕ) :
    (h.addTable t i).content b path j = h.content b path j := by
  rw [Heap.content, hs.tableAt_addTable ha ht hlen hzero hb, Heap.content]
  by_cases hhere : path = place ++ [i] ∧ b = a
  · obtain ⟨rfl, rfl⟩ := hhere
    have hlt := hs.lt b ha place t ht
    rw [if_pos ⟨rfl, rfl⟩, tableAt_concat ht hlen, if_neg (not_not.mpr hzero), Option.elim_some,
      Option.elim_none, Heap.addTable_mem, if_neg (fun hand => Nat.ne_of_gt hlt hand.1), if_pos rfl]
  · rw [if_neg hhere]
    cases hc : h.tableAt b path with
    | none => rfl
    | some c =>
      have hct : c ≠ t := by
        rintro rfl
        have heq := (hs.separate b hb a ha path place c hc ht).2
        rw [heq] at hpath
        omega
      have hcn := hs.lt b hb path c hc
      rw [Option.elim_some, Option.elim_some, Heap.addTable_mem, if_neg (fun hand => hct hand.1),
        if_neg (Nat.ne_of_lt hcn)]

/-! ## A store to a slot -/

theorem Sound.tableAt_store (hlen : place.length = 3) (hb : b ∈ amaps) (i pointer : ℕ)
    (path : List ℕ) : (h.store t i pointer).tableAt b path = h.tableAt b path := by
  refine walk_congr path ?_
  intro path' c j hc
  by_cases hhere : c = t
  · subst hhere
    have hpath := (hs.separate b hb a ha path' place c hc ht).2
    rw [hpath, hlen, Nat.sub_self, child_leaf, child_leaf]
  · apply child_congr
    rw [Heap.store_apply, if_neg (fun hand => hhere hand.1)]

/-- **A store to a slot** changes the slot alone. -/
theorem Sound.content_store (hlen : place.length = 3) (hb : b ∈ amaps) (i pointer j : ℕ)
    (path : List ℕ) : (h.store t i pointer).content b path j =
      if b = a ∧ path = place ∧ j = i then pointer else h.content b path j := by
  rw [Heap.content, hs.tableAt_store ha ht hlen hb, Heap.content]
  by_cases hplace : b = a ∧ path = place
  · obtain ⟨rfl, rfl⟩ := hplace
    rw [ht, Option.elim_some, Option.elim_some, Heap.store_apply]
    simp only [true_and]
  · have hother : ¬ (b = a ∧ path = place ∧ j = i) := fun hand => hplace ⟨hand.1, hand.2.1⟩
    rw [if_neg hother]
    cases hc : h.tableAt b path with
    | none => rfl
    | some c =>
      have hct : c ≠ t := by
        rintro rfl
        exact hplace (hs.separate b hb a ha path place c hc ht)
      rw [Option.elim_some, Option.elim_some, Heap.store_apply, if_neg (fun hand => hct hand.1)]

theorem Sound.store (hlen : place.length = 3) (i pointer : ℕ) :
    Sound (h.store t i pointer) amaps :=
  hs.of_tableAt (Nat.le_refl _) (fun _ hb path => hs.tableAt_store ha ht hlen hb i pointer path)

end

/-! ## Lookups -/

/-- What a lookup with `create` does: tables are added, and no anon is touched. -/
structure Extends (amaps : List ℕ) (h h' : Heap) : Prop where
  sound : Sound h' amaps
  tableAt : ∀ a ∈ amaps, ∀ path t, h.tableAt a path = some t → h'.tableAt a path = some t
  content : ∀ a ∈ amaps, ∀ path i, path.length = 3 → h'.content a path i = h.content a path i

theorem Sound.extends (hs : Sound h amaps) : Extends amaps h h :=
  ⟨hs, fun _ _ _ _ ht => ht, fun _ _ _ _ _ => rfl⟩

/-- **With `create` there is a table** at the end of every path. -/
theorem Sound.descend (hs : Sound h amaps) (ha : a ∈ amaps) (ht : h.tableAt a place = some t)
    (hlen : place.length + path.length ≤ 3) : ∃ t' h', Amap.descend true path t h = some (t', h') ∧
      h'.tableAt a (place ++ path) = some t' ∧ Extends amaps h h' := by
  induction path generalizing h t place with
  | nil => exact ⟨t, h, rfl, by rw [List.append_nil]; exact ht, hs.extends⟩
  | cons i path ih =>
    rw [List.length_cons] at hlen
    have hshort : place.length < 3 := by omega
    have hlong : (place ++ [i]).length + path.length ≤ 3 := by
      rw [List.length_append, List.length_singleton]
      omega
    have hcons : place ++ i :: path = place ++ [i] ++ path := by
      rw [List.append_assoc, List.singleton_append]
    rw [Amap.descend, nextTable, hcons]
    by_cases hne : h.mem t i ≠ 0
    · rw [if_pos hne, Option.bind_some]
      exact ih hs (by rw [tableAt_concat ht hshort, if_pos hne]) hlong
    · have hzero := not_not.mp hne
      rw [if_neg hne, if_pos rfl, Option.bind_some]
      have htable := fun b hb path =>
        @Sound.tableAt_addTable _ _ a b t i place hs ha ht hshort hzero hb path
      obtain ⟨t', h', hdown, ht', hext⟩ := ih (hs.addTable ha ht hshort hzero)
        (by rw [htable a ha, if_pos ⟨rfl, rfl⟩]) hlong
      refine ⟨t', h', hdown, ht', hext.sound, ?_, ?_⟩
      · intro b hb path' c hc
        apply hext.tableAt b hb
        rw [htable b hb, if_neg]
        · exact hc
        · rintro ⟨rfl, rfl⟩
          rw [tableAt_concat ht hshort, if_neg hne] at hc
          cases hc
      · intro b hb path' j hpath'
        rw [hext.content b hb path' j hpath',
          hs.content_addTable ha ht hshort hzero hb hpath']

/-- **The slot of an offset.** -/
theorem Sound.lookup (hs : Sound h amaps) (ha : a ∈ amaps) (offset : ℕ) :
    ∃ t h', vmAmapLookup a offset true h = some (⟨t, l1i offset⟩, h') ∧
      h'.tableAt a (pathOf offset) = some t ∧ Extends amaps h h' := by
  have hroot : h.tableAt a [] = some a := rfl
  have hlen : ([] : List ℕ).length + (pathOf offset).length ≤ 3 := Nat.le_refl 3
  obtain ⟨t, h', hdown, ht, hext⟩ := hs.descend ha hroot hlen
  exact ⟨t, h', by rw [vmAmapLookup, hdown, Option.map_some], ht, hext⟩

/-- **A slot is filled.** -/
theorem Sound.fillSlot (hs : Sound h amaps) (ha : a ∈ amaps) (offset anon : ℕ) :
    ∃ h', Amap.fillSlot a offset anon h = some h' ∧ Sound h' amaps ∧
      ∀ b ∈ amaps, ∀ path i, path.length = 3 → h'.content b path i =
        if b = a ∧ path = pathOf offset ∧ i = l1i offset then anon else h.content b path i := by
  obtain ⟨t, h₁, hlook, ht, hext⟩ := hs.lookup ha offset
  refine ⟨h₁.store t (l1i offset) anon, ?_, hext.sound.store ha ht rfl _ _, ?_⟩
  · rw [Amap.fillSlot, hlook]
    rfl
  · intro b hb path i hpath
    rw [hext.sound.content_store ha ht rfl hb, hext.content b hb path i hpath]

end Amap
