/-
# Copies of an amap

The nested loops of `vm_amap_copy`: after each turn the copy has what the amap has behind the
entries done so far, and nothing else is changed.
-/
import YakKernel.AmapTables

namespace Amap

open RadixTree

variable {h h' h'' : Heap} {amaps : List ℕ} {a b c t src dst i k lvl : ℕ} {path place : List ℕ}

/-! ## Behind an entry -/

theorem entry_on_way {place path : List ℕ} {k i : ℕ} (h : place ++ [k] <+: path ++ [i]) :
    (path = place ∧ i = k) ∨ ∃ rest, path = place ++ k :: rest := by
  obtain ⟨rest, hrest⟩ := h
  by_cases hfull : rest = []
  · subst hfull
    rw [List.append_nil] at hrest
    exact Or.inl ⟨(List.append_inj_left' hrest rfl).symm,
      (List.singleton_inj.mp (List.append_inj_right' hrest rfl)).symm⟩
  · obtain ⟨front, last, rfl⟩ := List.eq_nil_or_concat rest |>.resolve_left hfull
    rw [List.concat_eq_append, ← List.append_assoc] at hrest
    refine Or.inr ⟨front, ?_⟩
    have hfront := List.append_inj_left' hrest rfl
    rw [← hfront, List.append_assoc, List.singleton_append]

theorem content_eq_zero (ht : h.tableAt a place = some t) (hzero : h.mem t k = 0)
    (hpath : path.length = 3) (hway : place ++ [k] <+: path ++ [i]) : h.content a path i = 0 := by
  rcases entry_on_way hway with ⟨rfl, rfl⟩ | ⟨rest, rfl⟩
  · rw [Heap.content, ht, Option.elim_some, hzero]
  · have hshort : place.length < 3 := by
      rw [List.length_append, List.length_cons] at hpath
      omega
    have hw : walk (child h.mem) 3 a place = some t := ht
    have hnone : h.tableAt a (place ++ k :: rest) = none := by
      rw [Heap.tableAt, walk_append, hw, Option.bind_some, walk_cons, child_none _ hzero]
      rfl
    rw [Heap.content, hnone]
    rfl

/-- A slot that the code can reach. -/
structure InBounds (path : List ℕ) (i : ℕ) : Prop where
  length : path.length = 3
  path : ∀ j ∈ path, j < entries
  index : i < entries

/-- **The invariant of a loop**: what is behind the first `k` entries is copied, and the table of
the copy and new tables are all that is changed. -/
structure CopiedUpTo (amaps : List ℕ) (a b : ℕ) (place : List ℕ) (dst k : ℕ) (h h' : Heap) :
    Prop where
  sound : Sound h' amaps
  next : h.next ≤ h'.next
  frame : ∀ n, n < h.next → n ≠ dst → h'.mem n = h.mem n
  rest : ∀ j, k ≤ j → h'.mem dst j = 0
  content : ∀ c ∈ amaps, ∀ path i, InBounds path i → h'.content c path i =
    if c = b ∧ ∃ j, j < k ∧ place ++ [j] <+: path ++ [i] then h.content a path i
    else h.content c path i

/-- What is copied with a table. -/
structure Copied (amaps : List ℕ) (a b : ℕ) (place : List ℕ) (dst : ℕ) (h h' : Heap) : Prop where
  sound : Sound h' amaps
  next : h.next ≤ h'.next
  frame : ∀ n, n < h.next → n ≠ dst → h'.mem n = h.mem n
  content : ∀ c ∈ amaps, ∀ path i, InBounds path i → h'.content c path i =
    if c = b ∧ place <+: path then h.content a path i else h.content c path i

/-- The table that is copied and the table of the copy are at one place of two amaps, and the copy
is empty. -/
structure Copying (amaps : List ℕ) (a b : ℕ) (place : List ℕ) (src dst : ℕ) (h : Heap) : Prop where
  sound : Sound h amaps
  source : a ∈ amaps
  target : b ∈ amaps
  ne : a ≠ b
  table : h.tableAt a place = some src
  copy : h.tableAt b place = some dst
  length : place.length ≤ 3
  empty : ∀ i, h.mem dst i = 0

/-! ## A turn -/

theorem Copying.source_frame (hc : Copying amaps a b place src dst h)
    (hframe : ∀ n, n < h.next → n ≠ dst → h'.mem n = h.mem n) (path : List ℕ) :
    h'.tableAt a path = h.tableAt a path := by
  refine walk_congr path ?_
  intro path' n j hn
  apply child_congr
  rw [hframe n (hc.sound.lt a hc.source path' n hn)]
  rintro rfl
  exact hc.ne (hc.sound.separate a hc.source b hc.target path' place n hn hc.copy).1

theorem Copying.ne_tables (hc : Copying amaps a b place src dst h) : src ≠ dst := by
  rintro rfl
  exact hc.ne (hc.sound.separate a hc.source b hc.target place place src hc.table hc.copy).1

section

variable (hc : Copying amaps a b place src dst h) (hk : CopiedUpTo amaps a b place dst k h h')

include hc hk

theorem CopiedUpTo.tables : h'.tableAt a place = some src ∧ h'.tableAt b place = some dst ∧
    h'.mem src = h.mem src := by
  refine ⟨?_, ?_, ?_⟩
  · rw [hc.source_frame hk.frame]
    exact hc.table
  · refine walk_mono place ?_ hc.copy
    intro path' n j d hn hd
    by_cases hhere : n = dst
    · rw [hhere, child_none _ (hc.empty j)] at hd
      cases hd
    · rw [child_congr _ (congrFun (hk.frame n (hc.sound.lt b hc.target path' n hn) hhere) j)]
      exact hd
  · exact hk.frame src (hc.sound.lt a hc.source place src hc.table) hc.ne_tables

theorem CopiedUpTo.content_source (hb : InBounds path i) :
    h'.content a path i = h.content a path i := by
  rw [hk.content a hc.source path i hb, if_neg (fun hand => hc.ne hand.1)]

theorem CopiedUpTo.turn (hsound : Sound h'' amaps) (hnext : h'.next ≤ h''.next)
    (hframe : ∀ n, n < h'.next → n ≠ dst → h''.mem n = h'.mem n)
    (hrest : ∀ j, k < j → h''.mem dst j = h'.mem dst j)
    (hcontent : ∀ c ∈ amaps, ∀ path i, InBounds path i → h''.content c path i =
      if c = b ∧ place ++ [k] <+: path ++ [i] then h'.content a path i else h'.content c path i) :
    CopiedUpTo amaps a b place dst (k + 1) h h'' where
  sound := hsound
  next := Nat.le_trans hk.next hnext
  frame := by
    intro n hn hne
    rw [hframe n (Nat.lt_of_lt_of_le hn hk.next) hne, hk.frame n hn hne]
  rest := by
    intro j hj
    rw [hrest j hj, hk.rest j (Nat.le_of_succ_le hj)]
  content := by
    intro c hcin path i hb
    rw [hcontent c hcin path i hb, hk.content_source hc hb]
    by_cases hhere : c = b ∧ place ++ [k] <+: path ++ [i]
    · rw [if_pos hhere, if_pos ⟨hhere.1, k, Nat.lt_succ_self k, hhere.2⟩]
    · rw [if_neg hhere, hk.content c hcin path i hb]
      by_cases hold : c = b ∧ ∃ j, j < k ∧ place ++ [j] <+: path ++ [i]
      · obtain ⟨hcb, j, hj, hway⟩ := hold
        rw [if_pos ⟨hcb, j, hj, hway⟩, if_pos ⟨hcb, j, Nat.lt_succ_of_lt hj, hway⟩]
      · rw [if_neg hold, if_neg]
        rintro ⟨hcb, j, hj, hway⟩
        rcases Nat.lt_succ_iff_lt_or_eq.mp hj with hlt | rfl
        · exact hold ⟨hcb, j, hlt, hway⟩
        · exact hhere ⟨hcb, hway⟩

theorem CopiedUpTo.skip (hzero : h'.mem src k = 0) :
    CopiedUpTo amaps a b place dst (k + 1) h h' := by
  obtain ⟨hsrc, hdst, _⟩ := hk.tables hc
  refine hk.turn hc hk.sound (Nat.le_refl _) (fun _ _ _ => rfl) (fun _ _ => rfl) ?_
  intro c hcin path i hb
  by_cases hhere : c = b ∧ place ++ [k] <+: path ++ [i]
  · rw [if_pos hhere, hhere.1, content_eq_zero hsrc hzero hb.length hhere.2,
      content_eq_zero hdst (hk.rest k (Nat.le_refl k)) hb.length hhere.2]
  · rw [if_neg hhere]

theorem CopiedUpTo.share (hfull : place.length = 3) :
    CopiedUpTo amaps a b place dst (k + 1) h
      ((h'.anonRef (h'.mem src k)).store dst k (h'.mem src k)) := by
  obtain ⟨hsrc, hdst, _⟩ := hk.tables hc
  have href : Sound (h'.anonRef (h'.mem src k)) amaps :=
    hk.sound.of_tableAt (Nat.le_refl _) (fun _ _ _ => rfl)
  refine hk.turn hc (href.store hc.target hdst hfull _ _) (Nat.le_refl _) ?_ ?_ ?_
  · intro n _ hne
    exact Function.update_of_ne hne _ _
  · intro j hj
    rw [Heap.store_apply, if_neg (fun hand => Nat.ne_of_gt hj hand.2)]
    rfl
  · intro c hcin path i hb
    rw [href.content_store hc.target hdst hfull hcin]
    have hiff : path = place ∧ i = k ↔ place ++ [k] <+: path ++ [i] := by
      constructor
      · rintro ⟨rfl, rfl⟩
        exact List.prefix_refl _
      · intro hway
        rcases entry_on_way hway with hhere | ⟨rest, hlong⟩
        · exact hhere
        · have hlen := hb.length
          rw [hlong, List.length_append, hfull, List.length_cons] at hlen
          omega
    by_cases hhere : c = b ∧ path = place ∧ i = k
    · rw [if_pos hhere, if_pos ⟨hhere.1, hiff.mp hhere.2⟩, Heap.content, hhere.2.1, hsrc,
        hhere.2.2]
      rfl
    · rw [if_neg hhere, if_neg (fun hand => hhere ⟨hand.1, hiff.mpr hand.2⟩)]
      rfl

/-- A turn above it: a table is added to the copy, and the table is copied to it. -/
theorem CopiedUpTo.deeper (hshort : place.length < 3) (hne : h'.mem src k ≠ 0)
    (hsub : Copying amaps a b (place ++ [k]) (h'.mem src k) h'.next (h'.addTable dst k) →
      Copied amaps a b (place ++ [k]) h'.next (h'.addTable dst k) h'') :
    CopiedUpTo amaps a b place dst (k + 1) h h'' := by
  obtain ⟨hsrc, hdst, _⟩ := hk.tables hc
  have hzero := hk.rest k (Nat.le_refl k)
  have hlt := hk.sound.lt b hc.target place dst hdst
  have htable := fun c hcin path =>
    @Sound.tableAt_addTable _ _ b c dst k place hk.sound hc.target hdst hshort hzero hcin path
  have hcopied := hsub ⟨hk.sound.addTable hc.target hdst hshort hzero, hc.source, hc.target, hc.ne,
    by rw [htable a hc.source, if_neg (fun hand => hc.ne hand.2), tableAt_concat hsrc hshort,
      if_pos hne],
    by rw [htable b hc.target, if_pos ⟨rfl, rfl⟩],
    by rw [List.length_append, List.length_singleton]; omega,
    by intro j; rw [Heap.addTable_mem, if_neg (fun hand => Nat.ne_of_gt hlt hand.1), if_pos rfl]⟩
  refine hk.turn hc hcopied.sound (Nat.le_trans (Nat.le_succ _) hcopied.next) ?_ ?_ ?_
  · intro n hn hnd
    rw [hcopied.frame n (Nat.lt_succ_of_lt hn) (Nat.ne_of_lt hn)]
    funext j
    rw [Heap.addTable_mem, if_neg (fun hand => hnd hand.1), if_neg (Nat.ne_of_lt hn)]
  · intro j hj
    rw [hcopied.frame dst (Nat.lt_succ_of_lt hlt) (Nat.ne_of_lt hlt), Heap.addTable_mem,
      if_neg (fun hand => Nat.ne_of_gt hj hand.2), if_neg (Nat.ne_of_lt hlt)]
  · intro c hcin path i hb
    have hiff : place ++ [k] <+: path ↔ place ++ [k] <+: path ++ [i] := by
      refine ⟨fun hway => hway.trans (List.prefix_append path [i]), fun hway => ?_⟩
      rcases entry_on_way hway with ⟨rfl, _⟩ | ⟨rest, rfl⟩
      · exact absurd hb.length (by omega)
      · exact ⟨rest, by rw [List.append_assoc, List.singleton_append]⟩
    have hold : ∀ c ∈ amaps, (h'.addTable dst k).content c path i = h'.content c path i :=
      fun c hcin => hk.sound.content_addTable hc.target hdst hshort hzero hcin hb.length i
    rw [hcopied.content c hcin path i hb, hold a hc.source, hold c hcin]
    by_cases hhere : c = b ∧ place ++ [k] <+: path
    · rw [if_pos hhere, if_pos ⟨hhere.1, hiff.mp hhere.2⟩]
    · rw [if_neg hhere, if_neg (fun hand => hhere ⟨hand.1, hiff.mpr hand.2⟩)]

end

/-! ## The loops -/

/-- **Rule for the loop over the entries.** -/
theorem Copying.loop {f : Heap → ℕ → Heap} (hc : Copying amaps a b place src dst h)
    (hbody : ∀ k h', CopiedUpTo amaps a b place dst k h h' →
      CopiedUpTo amaps a b place dst (k + 1) h (f h' k)) :
    Copied amaps a b place dst h ((List.range entries).foldl f h) := by
  have hall : ∀ k, CopiedUpTo amaps a b place dst k h ((List.range k).foldl f h) := by
    intro k
    induction k with
    | zero =>
      refine ⟨hc.sound, Nat.le_refl _, fun _ _ _ => rfl, fun j _ => hc.empty j, ?_⟩
      intro c _ path i _
      rw [if_neg]
      · rfl
      · rintro ⟨_, j, hj, _⟩
        exact absurd hj (Nat.not_lt_zero j)
    | succ k ih =>
      rw [List.range_succ, List.foldl_append]
      exact hbody k _ ih
  have hdone := hall entries
  refine ⟨hdone.sound, hdone.next, hdone.frame, ?_⟩
  intro c hcin path i hb
  rw [hdone.content c hcin path i hb]
  have hiff : (∃ j, j < entries ∧ place ++ [j] <+: path ++ [i]) ↔ place <+: path := by
    constructor
    · rintro ⟨j, _, hway⟩
      rcases entry_on_way hway with ⟨rfl, _⟩ | ⟨rest, rfl⟩
      · exact List.prefix_refl _
      · exact List.prefix_append _ _
    · rintro ⟨rest, rfl⟩
      cases rest with
      | nil =>
        rw [List.append_nil]
        exact ⟨i, hb.index, List.prefix_refl _⟩
      | cons j rest =>
        refine ⟨j, hb.path j (by simp), rest ++ [i], ?_⟩
        rw [List.append_assoc, List.append_assoc, List.singleton_append, List.cons_append]
  by_cases hhere : c = b ∧ place <+: path
  · rw [if_pos hhere, if_pos ⟨hhere.1, hiff.mpr hhere.2⟩]
  · rw [if_neg hhere, if_neg (fun hand => hhere ⟨hand.1, hiff.mp hand.2⟩)]

/-- **A table is copied** with all that is below it. -/
theorem Copying.copyTable (hc : Copying amaps a b place src dst h) (hlvl : place.length + lvl = 3) :
    Copied amaps a b place dst h (Amap.copyTable lvl src dst h) := by
  induction lvl generalizing place src dst h with
  | zero =>
    rw [Amap.copyTable]
    refine hc.loop (fun k h' hk => ?_)
    by_cases hzero : h'.mem src k = 0
    · rw [if_pos hzero]
      exact hk.skip hc hzero
    · rw [if_neg hzero]
      exact hk.share hc hlvl
  | succ lvl ih =>
    rw [Amap.copyTable]
    refine hc.loop (fun k h' hk => ?_)
    by_cases hzero : h'.mem src k = 0
    · rw [if_pos hzero]
      exact hk.skip hc hzero
    · rw [if_neg hzero]
      refine hk.deeper hc (by omega) hzero (fun hsub => ih hsub ?_)
      rw [List.length_append, List.length_singleton]
      omega

end Amap
