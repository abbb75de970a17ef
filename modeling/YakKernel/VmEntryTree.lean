/-
# The tree of an address space

`vm/map.c` keeps the entries of a map in a red-black tree, and walks down this tree by itself in
`map_lower_bound` and `vm_map_lookup_entry_locked`.  On a well-formed map each of its operations
does to the entries in key order what the model of `vm/map.c` says, and keeps the tree red-black.
-/
import YakKernel.RbRefine
import YakKernel.VmTree

namespace Vm

open RbTree (Frame RedBlack)

/-- The loop of `map_lower_bound` from an entry on. -/
def lowerBoundLoop (addr : ℕ) : RbTree.Tree MapEntry → Option MapEntry → Option MapEntry
  | .nil, res => res
  | .node _ l cur r, res =>
    if cur.base < addr then lowerBoundLoop addr r res else lowerBoundLoop addr l (some cur)

/-- The loop of `vm_map_lookup_entry_locked` from an entry on. -/
def lookupLoop (address : ℕ) : RbTree.Tree MapEntry → Option MapEntry
  | .nil => none
  | .node _ l entry r =>
    if address < entry.base then lookupLoop address l
    else if entry.endAddr ≤ address then lookupLoop address r
    else some entry

/-- A change of the entry at `entry.ptr` in its node. -/
def storeNode (entry : MapEntry) : RbTree.Tree MapEntry → RbTree.Tree MapEntry
  | .nil => .nil
  | .node c l e r =>
    .node c (storeNode entry l) (if e.ptr = entry.ptr then entry else e) (storeNode entry r)

/-- A red-black tree of these entries. -/
structure Represents (t : RbTree.Tree MapEntry) (tree : List MapEntry) : Prop where
  redBlack : RedBlack t
  inorder : t.inorder = tree

/-- **Simulation.** What `vm/map.c` does to a tree is what its model does to the entries. -/
structure Simulates (t : RbTree.Tree MapEntry) (tree : List MapEntry) : Prop where
  insert : ∀ entry, Represents (t.insert key entry) (rbtInsert tree entry)
  remove : ∀ c l entry r path, RbTree.plug (.node c l entry r) path = t →
    ∃ t', RbTree.rbeRemove c l r path = some t' ∧ Represents t' (rbtRemove tree entry)
  store : ∀ entry, Represents (storeNode entry t) (storeEntry tree entry)
  root : t.root = none ↔ tree = []
  min : t.min none = tree.head?
  max : t.max none = tree.getLast?
  next : ∀ c l entry r path, RbTree.plug (.node c l entry r) path = t →
    RbTree.rbNext r path = rbtNext tree entry
  prev : ∀ c l entry r path, RbTree.plug (.node c l entry r) path = t →
    RbTree.rbPrev l path = rbtPrev tree entry
  lowerBound : ∀ addr, lowerBoundLoop addr t none = mapLowerBound tree addr
  lookup : ∀ address, lookupLoop address t = vmMapLookupEntryLocked tree address

variable {t : RbTree.Tree MapEntry} {tree : List MapEntry} {entry : MapEntry} {n : ℕ}

/-- A node with the key is itself the lowest one, so that `_rb_nfind` needs no equality. -/
theorem lowerBoundLoop_eq (hs : t.Sorted key) (addr : ℕ) (res : Option MapEntry) :
    lowerBoundLoop addr t res = t.nfind key addr res := by
  induction t generalizing res with
  | nil => rfl
  | node c l cur r ihl ihr =>
    obtain ⟨hl, hr, hlt, -⟩ := RbTree.Tree.sorted_node.mp hs
    rw [lowerBoundLoop, RbTree.Tree.nfind, ihl hl, ihr hr]
    rcases lt_trichotomy addr cur.base with h | h | h
    · rw [if_neg h.not_gt, if_pos h]
    · rw [if_neg h.not_gt, if_neg h.not_lt, if_neg h.not_gt, hl.nfind_eq,
        KeyedTree.lowerBound_eq_none_iff.mpr (fun y hy => h ▸ hlt y hy), Option.none_or]
    · rw [if_pos h, if_neg h.not_gt, if_pos h]

theorem lookupLoop_eq_some {address : ℕ} (h : lookupLoop address t = some entry) :
    entry ∈ t.inorder ∧ entry.Covers address := by
  induction t with
  | nil => cases h
  | node c l cur r ihl ihr =>
    unfold lookupLoop at h
    simp only [RbTree.Tree.inorder, List.mem_append, List.mem_cons]
    split_ifs at h with h1 h2
    · exact ⟨Or.inl (ihl h).1, (ihl h).2⟩
    · exact ⟨Or.inr (Or.inr (ihr h).1), (ihr h).2⟩
    · obtain rfl := Option.some.inj h
      exact ⟨Or.inr (Or.inl rfl), not_lt.mp h1, not_le.mp h2⟩

/-- The way down passes no entry that covers the address. -/
theorem exists_lookupLoop {address : ℕ} (hw : WellFormed tree) (hin : ∀ e ∈ t.inorder, e ∈ tree)
    (hs : t.Sorted key) (he : entry ∈ t.inorder) (hc : entry.Covers address) :
    ∃ found, lookupLoop address t = some found := by
  induction t with
  | nil => cases he
  | node c l cur r ihl ihr =>
    obtain ⟨hl, hr, hlt, hgt⟩ := RbTree.Tree.sorted_node.mp hs
    simp only [RbTree.Tree.inorder, List.mem_append, List.mem_cons] at he hin
    have hcur : cur ∈ tree := hin cur (Or.inr (Or.inl rfl))
    unfold lookupLoop
    obtain ⟨hlo, hhi⟩ := hc
    rcases he with he | rfl | he
    · have hle := hw.endAddr_le (hin entry (Or.inl he)) hcur (hlt entry he)
      rw [if_pos (by omega)]
      exact ihl (fun e h => hin e (Or.inl h)) hl he
    · rw [if_neg (by omega), if_neg (by omega)]
      exact ⟨_, rfl⟩
    · have hle := hw.endAddr_le hcur (hin entry (Or.inr (Or.inr he))) (hgt entry he)
      have hpos := (hw.sound cur hcur).lt
      rw [if_neg (by omega), if_pos (by omega)]
      exact ihr (fun e h => hin e (Or.inr (Or.inr h))) hr he

theorem inorder_storeNode : (storeNode entry t).inorder = storeEntry t.inorder entry := by
  induction t with
  | nil => rfl
  | node c l cur r ihl ihr =>
    simp only [storeNode, RbTree.Tree.inorder, ihl, ihr, storeEntry, List.map_append, List.map_cons]

theorem isRed_storeNode : (storeNode entry t).isRed = t.isRed := by
  cases t with
  | nil => rfl
  | node c l cur r => cases c <;> rfl

theorem balanced_storeNode (h : RbTree.Balanced t n) : RbTree.Balanced (storeNode entry t) n := by
  induction h with
  | nil => exact .nil
  | red _ _ hl' hr' ihl ihr =>
    exact .red ihl ihr (isRed_storeNode.trans hl') (isRed_storeNode.trans hr')
  | black _ _ ihl ihr => exact .black ihl ihr

/-- **The tree of a well-formed map simulates its entries.** -/
theorem entryTree_simulates (ht : Represents t tree) (hw : WellFormed tree) : Simulates t tree := by
  obtain ⟨hrb, rfl⟩ := ht
  have hs : t.Sorted key := hw.sorted
  have href := hrb.refines hs
  refine ⟨?_, ?_, ?_, ?_, href.min, href.max, href.next, href.prev, ?_, ?_⟩
  · intro entry
    exact ⟨hrb.insert entry, href.insert entry⟩
  · rintro c l entry r path hplug
    obtain ⟨t', hrun, hin⟩ := href.remove c l entry r path hplug
    have hmem : entry ∈ t.inorder := by
      rw [← hplug, RbTree.inorder_plug_node]
      simp
    subst hplug
    refine ⟨t', hrun, (hrb.of_remove hrun).1, hin.trans ?_⟩
    apply List.filter_congr
    intro e he
    rw [decide_eq_decide]
    -- the key and the address both tell the entries apart
    constructor
    · exact fun hne hptr => hne (congrArg key (hw.ptr e he entry hmem hptr))
    · exact fun hne hkey => hne (congrArg MapEntry.ptr (hw.sorted.eq_of_key he hmem hkey))
  · intro entry
    obtain ⟨n, hn⟩ := hrb.balanced
    exact ⟨⟨⟨n, balanced_storeNode hn⟩, isRed_storeNode.trans hrb.root⟩, inorder_storeNode⟩
  · cases t with
    | nil => exact ⟨fun _ => rfl, fun _ => rfl⟩
    | node c l e r => simp [RbTree.Tree.root, RbTree.Tree.inorder]
  · intro addr
    rw [lowerBoundLoop_eq hs, href.nfind]
    rfl
  · intro address
    cases hfound : lookupLoop address t with
    | some found => rw [eq_comm, hw.lookup_iff]; exact lookupLoop_eq_some hfound
    | none =>
      rw [eq_comm, vmMapLookupEntryLocked, List.find?_eq_none]
      intro e he hc
      obtain ⟨found, h⟩ := exists_lookupLoop hw (fun _ h => h) hs he (of_decide_eq_true hc)
      cases hfound.symm.trans h

/-- A reservation of three pages. -/
def reservation : MapEntry :=
  initMapEntry 1 0 0x1000 0x4000 ⟨false, false, false, false, false⟩ .none 0 .reserved

theorem entryTree_simulates_one :
    Simulates (.node .black .nil reservation .nil) [reservation] := by
  apply entryTree_simulates ⟨⟨⟨1, .black .nil .nil⟩, rfl⟩, rfl⟩
  refine ⟨List.pairwise_singleton _ _, ?_, ?_, ?_⟩
  · rintro e he
    obtain rfl := List.mem_singleton.mp he
    exact ⟨by decide, by decide, by decide, by decide, fun h => (by cases h), fun _ => ⟨rfl, rfl⟩⟩
  · intro e he e' he' hne
    exact absurd ((List.mem_singleton.mp he).trans (List.mem_singleton.mp he').symm) hne
  · intro e he e' he' _
    exact (List.mem_singleton.mp he).trans (List.mem_singleton.mp he').symm

end Vm
