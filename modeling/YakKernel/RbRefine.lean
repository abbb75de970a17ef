/-
# Red-black trees refine lists in key order

The operations of `core/subr_tree.c` on a tree, and what they are on the list of its elements from
left to right.  Whatever is inserted and removed, a tree stays sorted and balanced, and every
operation on it does to this list what `KeyedTree` says.
-/
import YakKernel.RbRemove
import YakKernel.KeyedTree

namespace RbTree

variable {α : Type*}

/-! ## Searches -/

/-- `_rb_nfind` from a node on; `res` is the last node that was large enough. -/
def Tree.nfind (key : α → ℕ) (k : ℕ) : Tree α → Option α → Option α
  | .nil, res => res
  | .node _ l a r, res =>
    if k < key a then l.nfind key k (some a) else if key a < k then r.nfind key k res else some a

/-- `_rb_min` from a node on. -/
def Tree.min : Tree α → Option α → Option α
  | .nil, parent => parent
  | .node _ l a _, _ => l.min (some a)

/-- `_rb_max` from a node on. -/
def Tree.max : Tree α → Option α → Option α
  | .nil, parent => parent
  | .node _ _ a r, _ => r.max (some a)

/-- The first ancestor that a node is on the left of. -/
def climbNext : List (Frame α) → Option α
  | [] => none
  | .left _ a _ :: _ => some a
  | .right _ _ _ :: path => climbNext path

/-- The first ancestor that a node is on the right of. -/
def climbPrev : List (Frame α) → Option α
  | [] => none
  | .left _ _ _ :: path => climbPrev path
  | .right _ _ a :: _ => some a

/-- `_rb_next` of the node with the right child `r`. -/
def rbNext (r : Tree α) (path : List (Frame α)) : Option α :=
  match r with
  | .nil => climbNext path
  | r => r.min none

/-- `_rb_prev` of the node with the left child `l`. -/
def rbPrev (l : Tree α) (path : List (Frame α)) : Option α :=
  match l with
  | .nil => climbPrev path
  | l => l.max none

/-! ## What the operations are on lists -/

/-- **Refinement.** Every operation on the tree is one on the list of its elements. -/
structure Refines (key : α → ℕ) (t : Tree α) : Prop where
  insert : ∀ a, (t.insert key a).inorder = KeyedTree.insert key a t.inorder
  remove : ∀ c l a r path, plug (.node c l a r) path = t → ∃ t', rbeRemove c l r path = some t' ∧
    t'.inorder = t.inorder.filter fun x => key x ≠ key a
  find : ∀ k, t.find key k = t.inorder.find? fun x => key x = k
  nfind : ∀ k, t.nfind key k none = KeyedTree.lowerBound key t.inorder k
  min : t.min none = t.inorder.head?
  max : t.max none = t.inorder.getLast?
  next : ∀ c l a r path, plug (.node c l a r) path = t →
    rbNext r path = KeyedTree.next key t.inorder a
  prev : ∀ c l a r path, plug (.node c l a r) path = t →
    rbPrev l path = KeyedTree.prev key t.inorder a

variable {key : α → ℕ} {k : ℕ} {t l r : Tree α} {path : List (Frame α)} {a : α} {c : Color}

theorem Tree.Sorted.find_eq (h : t.Sorted key) (k : ℕ) :
    t.find key k = t.inorder.find? fun x => key x = k := by
  induction t with
  | nil => rfl
  | node c l a r ihl ihr =>
    obtain ⟨hl, hr, hla, har⟩ := Tree.sorted_node.mp h
    rw [Tree.find, Tree.inorder, List.find?_append, List.find?_cons, ← ihl hl, ← ihr hr]
    have hleft : ¬ k < key a → l.find key k = none := by
      intro hk
      rw [ihl hl, List.find?_eq_none]
      intro x hx
      have := hla x hx
      simp only [decide_eq_true_eq]
      omega
    split_ifs with h1 h2
    · have hright : r.find key k = none := by
        rw [ihr hr, List.find?_eq_none]
        intro x hx
        have := har x hx
        simp only [decide_eq_true_eq]
        omega
      rw [decide_eq_false (by omega), hright, Option.or_none]
    · rw [decide_eq_false (by omega), hleft h1, Option.none_or]
    · rw [decide_eq_true (by omega), hleft h1, Option.none_or]

theorem Tree.Sorted.nfind_eq (h : t.Sorted key) (k : ℕ) (res : Option α) :
    t.nfind key k res = (KeyedTree.lowerBound key t.inorder k).or res := by
  induction t generalizing res with
  | nil => rfl
  | node c l a r ihl ihr =>
    obtain ⟨hl, hr, hla, har⟩ := Tree.sorted_node.mp h
    have hnode : KeyedTree.lowerBound key (Tree.node c l a r).inorder k =
        (KeyedTree.lowerBound key l.inorder k).or
          (if k ≤ key a then some a else KeyedTree.lowerBound key r.inorder k) := by
      rw [Tree.inorder, KeyedTree.lowerBound, List.find?_append, List.find?_cons]
      by_cases hk : k ≤ key a
      · simp [hk, KeyedTree.lowerBound]
      · simp [hk, KeyedTree.lowerBound]
    have hleft : key a ≤ k → KeyedTree.lowerBound key l.inorder k = none := by
      intro hk
      rw [KeyedTree.lowerBound_eq_none_iff]
      intro x hx
      exact (hla x hx).trans_le hk
    rw [hnode, Tree.nfind]
    by_cases hlt : k < key a
    · rw [if_pos hlt, ihl hl, if_pos hlt.le, Option.or_assoc]
      rfl
    · rw [if_neg hlt, hleft (not_lt.mp hlt), Option.none_or]
      by_cases hgt : key a < k
      · rw [if_pos hgt, if_neg hgt.not_ge, ihr hr]
      · rw [if_neg hgt, if_pos (not_lt.mp hgt)]
        rfl

theorem Tree.min_eq (t : Tree α) (parent : Option α) : t.min parent = t.inorder.head?.or parent := by
  induction t generalizing parent with
  | nil => rfl
  | node c l a r ihl ihr =>
    rw [Tree.min, ihl, Tree.inorder, List.head?_append]
    cases l.inorder.head? <;> rfl

theorem Tree.max_eq (t : Tree α) (parent : Option α) :
    t.max parent = t.inorder.getLast?.or parent := by
  induction t generalizing parent with
  | nil => rfl
  | node c l a r ihl ihr =>
    rw [Tree.max, ihr, Tree.inorder, List.getLast?_append, List.getLast?_cons]
    cases r.inorder.getLast? <;> rfl

theorem climbNext_eq (path : List (Frame α)) : climbNext path = (after path).head? := by
  induction path with
  | nil => rfl
  | cons f path ih => cases f <;> first | rfl | exact ih

theorem climbPrev_eq (path : List (Frame α)) : climbPrev path = (before path).getLast? := by
  induction path with
  | nil => rfl
  | cons f path ih =>
    cases f with
    | left => exact ih
    | right => simp [climbPrev, before]

theorem rbNext_eq (r : Tree α) (path : List (Frame α)) :
    rbNext r path = (r.inorder ++ after path).head? := by
  rw [List.head?_append]
  cases r with
  | nil => exact climbNext_eq path
  | node c l a r' =>
    show (Tree.node c l a r').min none = _
    rw [Tree.min_eq, Option.or_none, Option.or_of_isSome]
    simp [Tree.inorder]

theorem rbPrev_eq (l : Tree α) (path : List (Frame α)) :
    rbPrev l path = (before path ++ l.inorder).getLast? := by
  rw [List.getLast?_append]
  cases l with
  | nil => exact climbPrev_eq path
  | node c l' a r =>
    show (Tree.node c l' a r).max none = _
    rw [Tree.max_eq, Option.or_none, Option.or_of_isSome]
    simp [Tree.inorder]

/-- A node is between the elements on the left and on the right of it. -/
theorem inorder_plug_node (l r : Tree α) (path : List (Frame α)) :
    (plug (.node c l a r) path).inorder =
      (before path ++ l.inorder) ++ a :: (r.inorder ++ after path) := by
  simp [inorder_plug, Tree.inorder]

theorem Tree.Sorted.insert_eq (h : t.Sorted key) (a : α) :
    (t.insert key a).inorder = KeyedTree.insert key a t.inorder := by
  have hs : KeyedTree.Sorted key (t.insert key a).inorder := (h.insert a).1
  apply hs.eq_of_mem_iff (KeyedTree.Sorted.insert h)
  intro x
  rw [(h.insert a).2, KeyedTree.mem_insert]

/-- A sorted red-black tree refines the list of its elements. -/
theorem RedBlack.refines (h : RedBlack t) (hs : t.Sorted key) : Refines key t where
  insert := hs.insert_eq
  remove := by
    rintro c l a r path rfl
    obtain ⟨t', hrun, -, hin⟩ := h.rbeRemove
    unfold Tree.Sorted at hs
    rw [inorder_plug_node] at hs ⊢
    refine ⟨t', hrun, ?_⟩
    rw [KeyedTree.Sorted.filter_ne hs, hin]
    simp
  find := hs.find_eq
  nfind k := by rw [hs.nfind_eq, Option.or_none]
  min := by rw [t.min_eq, Option.or_none]
  max := by rw [t.max_eq, Option.or_none]
  next := by
    rintro c l a r path rfl
    unfold Tree.Sorted at hs
    rw [inorder_plug_node] at hs ⊢
    rw [KeyedTree.Sorted.next_append hs, rbNext_eq]
  prev := by
    rintro c l a r path rfl
    unfold Tree.Sorted at hs
    rw [inorder_plug_node] at hs ⊢
    rw [KeyedTree.Sorted.prev_append hs, rbPrev_eq]

/-! ## Runs -/

/-- One call of `_rb_insert`, or of `_rb_remove` for a node of the tree. -/
inductive Step (key : α → ℕ) : Tree α → Tree α → Prop
  | insert (t : Tree α) (a : α) : Step key t (t.insert key a)
  | remove {c : Color} {l r t : Tree α} {a : α} {path : List (Frame α)}
      (h : rbeRemove c l r path = some t) : Step key (plug (.node c l a r) path) t

theorem RedBlack.nil : RedBlack (.nil : Tree α) := ⟨⟨0, .nil⟩, rfl⟩

theorem RedBlack.of_remove (h : RedBlack (plug (.node c l a r) path))
    (hrun : RbTree.rbeRemove c l r path = some t) :
    RedBlack t ∧ t.inorder = before path ++ l.inorder ++ r.inorder ++ after path := by
  obtain ⟨t', hrun', hends⟩ := h.rbeRemove
  obtain rfl := Option.some.inj (hrun'.symm.trans hrun)
  exact hends

/-- One step keeps the invariant. -/
theorem RedBlack.step {t t' : Tree α} (h : RedBlack t) (hs : t.Sorted key) (hstep : Step key t t') :
    RedBlack t' ∧ t'.Sorted key := by
  cases hstep with
  | insert _ a => exact ⟨h.insert a, (hs.insert a).1⟩
  | @remove c l r t a path hrun =>
    obtain ⟨hrb, hin⟩ := h.of_remove hrun
    refine ⟨hrb, ?_⟩
    unfold Tree.Sorted at hs ⊢
    rw [inorder_plug_node] at hs
    rw [hin]
    refine hs.sublist ?_
    simp

theorem redBlack_of_run (h : Relation.ReflTransGen (Step key) .nil t) :
    RedBlack t ∧ t.Sorted key := by
  induction h with
  | refl => exact ⟨.nil, List.Pairwise.nil⟩
  | tail _ hstep ih => exact ih.1.step ih.2 hstep

/-- **The tree stays balanced**, and a removal follows no null pointer. -/
theorem balanced_of_run (h : Relation.ReflTransGen (Step key) .nil t) :
    RedBlack t ∧ t.height ≤ 2 * Nat.log 2 (t.inorder.length + 1) ∧
      ∀ c l a r path, plug (.node c l a r) path = t → (rbeRemove c l r path).isSome = true := by
  have hrb := (redBlack_of_run h).1
  refine ⟨hrb, hrb.height_le, ?_⟩
  rintro c l a r path rfl
  obtain ⟨t', hrun, -, -⟩ := hrb.rbeRemove
  rw [hrun]
  rfl

/-- **The tree is the list of its elements in key order**, after every run. -/
theorem refines_of_run (h : Relation.ReflTransGen (Step key) .nil t) : Refines key t :=
  (redBlack_of_run h).1.refines (redBlack_of_run h).2

/-- The elements 1 and 3, after 2 has been taken from above them. -/
def pair : Tree ℕ := .node .black (.node .red .nil 1 .nil) 3 .nil

theorem run_pair : Relation.ReflTransGen (Step id) .nil pair := by
  have h1 : Step id .nil (Tree.insert id 2 .nil) := .insert _ _
  have h2 : Step id (Tree.insert id 2 .nil) (.node .black (.node .red .nil 1 .nil) 2 .nil) :=
    .insert _ 1
  have h3 : Step id (.node .black (.node .red .nil 1 .nil) 2 .nil)
      (.node .black (.node .red .nil 1 .nil) 2 (.node .red .nil 3 .nil)) := .insert _ 3
  have h4 : Step id (plug (.node .black (.node .red .nil 1 .nil) 2 (.node .red .nil 3 .nil)) [])
      pair := .remove rfl
  exact (((Relation.ReflTransGen.single h1).tail h2).tail h3).tail h4

theorem balanced_pair : RedBlack pair ∧ pair.height ≤ 2 * Nat.log 2 (pair.inorder.length + 1) := by
  have h := balanced_of_run run_pair
  exact ⟨h.1, h.2.1⟩

theorem refines_pair : Tree.inorder (pair.insert id 2) = [1, 2, 3] ∧ pair.nfind id 2 none = some 3 :=
  ⟨(refines_of_run run_pair).insert 2, (refines_of_run run_pair).nfind 2⟩

end RbTree
