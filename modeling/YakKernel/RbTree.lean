/-
# Red-black trees in memory

Trees as `core/subr_tree.c` keeps them: coloured nodes, insertion with the recolouring and the
rotations on the way up, and the links that a tree leaves in the memory of its elements.
`RBT_FOREACH` follows these links, hop by hop; as long as the links it has still to read are
those of the tree, it meets the elements in order.
-/
import Mathlib.Logic.Function.Basic
import Mathlib.Data.List.Nodup
import Mathlib.Data.List.Perm.Basic
import Mathlib.Logic.Relation

namespace RbTree

/-! ## Trees -/

inductive Color where
  | red
  | black
  deriving DecidableEq

inductive Tree (α : Type*) where
  | nil
  | node (color : Color) (left : Tree α) (elm : α) (right : Tree α)

variable {α : Type*}

/-- The elements from left to right. -/
def Tree.inorder : Tree α → List α
  | .nil => []
  | .node _ l a r => l.inorder ++ a :: r.inorder

def Tree.root : Tree α → Option α
  | .nil => none
  | .node _ _ a _ => some a

def Tree.isRed : Tree α → Bool
  | .node .red _ _ _ => true
  | _ => false

/-- `RBE_COLOR(...) = RB_BLACK`. -/
def Tree.blacken : Tree α → Tree α
  | .nil => .nil
  | .node _ l a r => .node .black l a r

@[simp]
theorem Tree.inorder_blacken (t : Tree α) : t.blacken.inorder = t.inorder := by
  cases t <;> rfl

theorem Tree.mem_of_root {t : Tree α} {a : α} (h : t.root = some a) : a ∈ t.inorder := by
  cases t with
  | nil => cases h
  | node c l b r =>
    obtain rfl := Option.some.inj h
    simp [Tree.inorder]

/-! ## The way down to a node -/

/-- A node that has been passed on the way down, with the subtree on its other side. -/
inductive Frame (α : Type*) where
  | left (color : Color) (elm : α) (right : Tree α)
  | right (color : Color) (left : Tree α) (elm : α)

def Frame.elm : Frame α → α
  | .left _ a _ => a
  | .right _ _ a => a

def Frame.color : Frame α → Color
  | .left c _ _ => c
  | .right c _ _ => c

/-- The parent at the end of a way down. -/
def up : List (Frame α) → Option α
  | [] => none
  | f :: _ => some f.elm

def Frame.fill : Frame α → Tree α → Tree α
  | .left c a r, t => .node c t a r
  | .right c l a, t => .node c l a t

/-- The whole tree around a subtree. -/
def plug : Tree α → List (Frame α) → Tree α
  | t, [] => t
  | t, f :: path => plug (f.fill t) path

/-- The elements left of a subtree. -/
def before : List (Frame α) → List α
  | [] => []
  | .left _ _ _ :: path => before path
  | .right _ l a :: path => before path ++ l.inorder ++ [a]

/-- The elements right of a subtree. -/
def after : List (Frame α) → List α
  | [] => []
  | .left _ a r :: path => a :: r.inorder ++ after path
  | .right _ _ _ :: path => after path

theorem inorder_plug (path : List (Frame α)) :
    ∀ t : Tree α, (plug t path).inorder = before path ++ t.inorder ++ after path := by
  induction path with
  | nil =>
    intro t
    simp [plug, before, after]
  | cons f path ih =>
    intro t
    rw [plug, ih]
    cases f with
    | left c a r => simp [Frame.fill, Tree.inorder, before, after]
    | right c l a => simp [Frame.fill, Tree.inorder, before, after]

/-! ## Lookup and insertion -/

/-- `_rb_find`. -/
def Tree.find (key : α → ℕ) (k : ℕ) : Tree α → Option α
  | .nil => none
  | .node _ l a r =>
    if k < key a then l.find key k else if key a < k then r.find key k else some a

/-- The loop of `_rb_insert`; `none` when an element with the key is there already. -/
def descend (key : α → ℕ) (k : ℕ) : Tree α → List (Frame α) → Option (List (Frame α))
  | .nil, path => some path
  | .node c l a r, path =>
    if k < key a then descend key k l (.left c a r :: path)
    else if key a < k then descend key k r (.right c l a :: path)
    else none

/-- `rbe_insert_color` without the last line; the root of the first tree is red. -/
def insertColor : Tree α → List (Frame α) → Tree α
  | rbe, parent :: gparent :: path =>
    if parent.color = .black then plug rbe (parent :: gparent :: path)
    else
      match gparent with
      | .left _ ga tmp =>
        if tmp.isRed then
          insertColor (.node .red (parent.fill rbe).blacken ga tmp.blacken) path
        else
          match parent, rbe with
          | .left _ pa pr, rbe => plug (.node .black rbe pa (.node .red pr ga tmp)) path
          | .right _ pl pa, .node _ l a r =>
            -- rotate the parent left first
            plug (.node .black (.node .red pl pa l) a (.node .red r ga tmp)) path
          | .right _ pl pa, .nil => plug .nil (.right .red pl pa :: .left .black ga tmp :: path)
      | .right _ tmp ga =>
        if tmp.isRed then
          insertColor (.node .red tmp.blacken ga (parent.fill rbe).blacken) path
        else
          match parent, rbe with
          | .right _ pl pa, rbe => plug (.node .black (.node .red tmp ga pl) pa rbe) path
          | .left _ pa pr, .node _ l a r =>
            -- rotate the parent right first
            plug (.node .black (.node .red tmp ga l) a (.node .red r pa pr)) path
          | .left _ pa pr, .nil => plug .nil (.left .red pa pr :: .right .black tmp ga :: path)
  | rbe, path => plug rbe path

/-- `_rb_insert`. -/
def Tree.insert (key : α → ℕ) (a : α) (t : Tree α) : Tree α :=
  match descend key (key a) t [] with
  | none => t
  | some path => (insertColor (.node .red .nil a .nil) path).blacken

theorem inorder_insertColor (rbe : Tree α) (path : List (Frame α)) :
    (insertColor rbe path).inorder = before path ++ rbe.inorder ++ after path := by
  fun_induction insertColor rbe path with
  | case1 rbe parent gparent path hblack => exact inorder_plug _ _
  | case2 rbe parent path hred c ga tmp htmp ih =>
    rw [ih]
    cases parent <;> simp [Tree.inorder, Frame.fill, before, after]
  | case6 rbe parent path hred c tmp ga htmp ih =>
    rw [ih]
    cases parent <;> simp [Tree.inorder, Frame.fill, before, after]
  | case10 => exact inorder_plug _ _
  | case3 | case4 | case5 | case7 | case8 | case9 =>
    simp [inorder_plug, Tree.inorder, before, after]

theorem plug_descend {key : α → ℕ} {k : ℕ} {t : Tree α} {path path' : List (Frame α)}
    (h : descend key k t path = some path') : plug .nil path' = plug t path := by
  induction t generalizing path with
  | nil => rw [Option.some.inj h]
  | node c l a r ihl ihr =>
    unfold descend at h
    split_ifs at h
    · exact ihl h
    · exact ihr h

theorem before_append_after {key : α → ℕ} {k : ℕ} {t : Tree α} {path path' : List (Frame α)}
    (h : descend key k t path = some path') :
    before path' ++ after path' = before path ++ t.inorder ++ after path := by
  have hin := congrArg Tree.inorder (plug_descend h)
  rwa [inorder_plug, inorder_plug, Tree.inorder, List.append_nil] at hin

theorem descend_eq_some {key : α → ℕ} {k : ℕ} {t : Tree α} :
    ∀ (path : List (Frame α)), t.find key k = none →
      ∃ path', descend key k t path = some path' := by
  induction t with
  | nil => exact fun path _ => ⟨path, rfl⟩
  | node c l a r ihl ihr =>
    intro path h
    unfold Tree.find at h
    unfold descend
    split_ifs at h ⊢
    · exact ihl _ h
    · exact ihr _ h

/-- **Insertion** adds the new element and keeps the others in order. -/
theorem inorder_insert {key : α → ℕ} {a : α} {t : Tree α} (h : t.find key (key a) = none) :
    ∃ l r, t.inorder = l ++ r ∧ (t.insert key a).inorder = l ++ a :: r := by
  obtain ⟨path, hd⟩ := descend_eq_some [] h
  refine ⟨before path, after path, ?_, ?_⟩
  · rw [before_append_after hd]
    simp [before, after]
  · unfold Tree.insert
    rw [hd]
    simp [inorder_insertColor, Tree.inorder]

theorem perm_insert {key : α → ℕ} {a : α} {t : Tree α} (h : t.find key (key a) = none) :
    (t.insert key a).inorder.Perm (a :: t.inorder) := by
  obtain ⟨l, r, ht, hins⟩ := inorder_insert h
  rw [ht, hins]
  exact List.perm_middle

/-- The keys are in order. -/
def Tree.Sorted (key : α → ℕ) (t : Tree α) : Prop :=
  t.inorder.Pairwise fun x y => key x < key y

theorem Tree.sorted_node {key : α → ℕ} {c : Color} {l r : Tree α} {a : α} :
    (Tree.node c l a r).Sorted key ↔ l.Sorted key ∧ r.Sorted key ∧
      (∀ x ∈ l.inorder, key x < key a) ∧ ∀ x ∈ r.inorder, key a < key x := by
  unfold Tree.Sorted
  rw [Tree.inorder, List.pairwise_append, List.pairwise_cons]
  constructor
  · rintro ⟨hl, ⟨hr, hright⟩, hlr⟩
    exact ⟨hl, hright, fun x hx => hlr x hx a List.mem_cons_self, hr⟩
  · rintro ⟨hl, hright, hla, hr⟩
    refine ⟨hl, ⟨hr, hright⟩, fun x hx y hy => ?_⟩
    rcases List.mem_cons.mp hy with rfl | hy
    · exact hla x hx
    · exact Nat.lt_trans (hla x hx) (hr y hy)

/-- The way down stays between the elements with a smaller and with a larger key, or ends at an
element with the key. -/
theorem descend_sorted {key : α → ℕ} {k : ℕ} {t : Tree α} :
    ∀ {path : List (Frame α)}, t.Sorted key → (∀ x ∈ before path, key x < k) →
      (∀ x ∈ after path, k < key x) →
      (∃ path', descend key k t path = some path' ∧ (∀ x ∈ before path', key x < k) ∧
          ∀ x ∈ after path', k < key x) ∨
        descend key k t path = none ∧ ∃ x ∈ t.inorder, key x = k := by
  induction t with
  | nil => exact fun _ hb ha => Or.inl ⟨_, rfl, hb, ha⟩
  | node c l a r ihl ihr =>
    intro path hs hb ha
    obtain ⟨hsl, hsr, hl, hr⟩ := Tree.sorted_node.mp hs
    unfold descend
    by_cases hlt : k < key a
    · rw [if_pos hlt]
      have hbefore : ∀ x ∈ before (.left c a r :: path), key x < k := hb
      have hafter : ∀ x ∈ after (.left c a r :: path), k < key x := by
        intro x hx
        rcases List.mem_append.mp hx with hx | hx
        · rcases List.mem_cons.mp hx with rfl | hx
          · exact hlt
          · exact Nat.lt_trans hlt (hr x hx)
        · exact ha x hx
      rcases ihl hsl hbefore hafter with hfree | ⟨hd, x, hx, hk⟩
      · exact Or.inl hfree
      · exact Or.inr ⟨hd, x, by simp [Tree.inorder, hx], hk⟩
    · rw [if_neg hlt]
      by_cases hgt : key a < k
      · rw [if_pos hgt]
        have hbefore : ∀ x ∈ before (.right c l a :: path), key x < k := by
          intro x hx
          rcases List.mem_append.mp hx with hx | hx
          · rcases List.mem_append.mp hx with hx | hx
            · exact hb x hx
            · exact Nat.lt_trans (hl x hx) hgt
          · obtain rfl := List.mem_singleton.mp hx
            exact hgt
        have hafter : ∀ x ∈ after (.right c l a :: path), k < key x := ha
        rcases ihr hsr hbefore hafter with hfree | ⟨hd, x, hx, hk⟩
        · exact Or.inl hfree
        · exact Or.inr ⟨hd, x, by simp [Tree.inorder, hx], hk⟩
      · rw [if_neg hgt]
        exact Or.inr ⟨rfl, a, by simp [Tree.inorder], Nat.le_antisymm (Nat.le_of_not_lt hlt)
          (Nat.le_of_not_lt hgt)⟩

/-- **Insertion keeps the keys in order**, and adds the element if its key is new. -/
theorem Tree.Sorted.insert {key : α → ℕ} {t : Tree α} (hs : t.Sorted key) (a : α) :
    (t.insert key a).Sorted key ∧ ∀ x, x ∈ (t.insert key a).inorder ↔
      x ∈ t.inorder ∨ x = a ∧ ∀ y ∈ t.inorder, key y ≠ key a := by
  unfold Tree.insert
  have hb : ∀ x ∈ before ([] : List (Frame α)), key x < key a := by simp [before]
  have ha : ∀ x ∈ after ([] : List (Frame α)), key a < key x := by simp [after]
  rcases descend_sorted hs hb ha with
    ⟨path, hd, hbefore, hafter⟩ | ⟨hd, x, hx, hk⟩
  · have hold : t.inorder = before path ++ after path := by
      rw [before_append_after hd]
      simp [before, after]
    have hnew : (insertColor (.node .red .nil a .nil) path).blacken.inorder
        = before path ++ a :: after path := by
      simp [inorder_insertColor, Tree.inorder]
    have hsorted : (before path ++ after path).Pairwise fun x y => key x < key y := hold ▸ hs
    have hpairs := List.pairwise_append.mp hsorted
    have hfresh : ∀ y ∈ t.inorder, key y ≠ key a := by
      intro y hy
      rw [hold, List.mem_append] at hy
      rcases hy with hy | hy
      · exact Nat.ne_of_lt (hbefore y hy)
      · exact Nat.ne_of_gt (hafter y hy)
    rw [hd]
    refine ⟨?_, fun x => ?_⟩
    · show ((insertColor (.node .red .nil a .nil) path).blacken).Sorted key
      rw [Tree.Sorted, hnew, List.pairwise_append, List.pairwise_cons]
      refine ⟨hpairs.1, ⟨hafter, hpairs.2.1⟩, fun x hx y hy => ?_⟩
      rcases List.mem_cons.mp hy with rfl | hy
      · exact hbefore x hx
      · exact hpairs.2.2 x hx y hy
    · show x ∈ ((insertColor (.node .red .nil a .nil) path).blacken).inorder ↔ _
      rw [hnew, hold, List.mem_append, List.mem_cons, List.mem_append, and_iff_left
        (fun y hy => hfresh y (hold ▸ hy))]
      tauto
  · rw [hd]
    exact ⟨hs, fun y => ⟨Or.inl, fun h => h.elim id fun h => absurd hk (h.2 x hx)⟩⟩

theorem find_congr {key key' : α → ℕ} {k : ℕ} {t : Tree α}
    (h : ∀ a ∈ t.inorder, key' a = key a) : t.find key' k = t.find key k := by
  induction t with
  | nil => rfl
  | node c l a r ihl ihr =>
    simp only [Tree.inorder, List.mem_append, List.mem_cons] at h
    rw [Tree.find, Tree.find, h a (Or.inr (Or.inl rfl)), ihl (fun b hb => h b (Or.inl hb)),
      ihr (fun b hb => h b (Or.inr (Or.inr hb)))]

/-! ## The links in memory -/

/-- `struct rb_entry` without its colour. -/
structure Links (α : Type*) where
  parent : Option α
  left : Option α
  right : Option α

/-- The memory after an operation that has left the tree `t` below `parent`. -/
def Tree.links [DecidableEq α] : Tree α → Option α → (α → Links α) → α → Links α
  | .nil, _, mem => mem
  | .node _ l a r, parent, mem =>
    l.links (some a) (r.links (some a) (Function.update mem a ⟨parent, l.root, r.root⟩))

/-- The memory holds the links of the tree. -/
def Stored (mem : α → Links α) : Option α → Tree α → Prop
  | _, .nil => True
  | parent, .node _ l a r => mem a = ⟨parent, l.root, r.root⟩ ∧
      (∀ b, r.root = some b → l.root ≠ some b) ∧ Stored mem (some a) l ∧ Stored mem (some a) r

theorem Stored.congr {mem mem' : α → Links α} {t : Tree α} :
    ∀ {parent : Option α}, Stored mem parent t → (∀ a ∈ t.inorder, mem' a = mem a) →
      Stored mem' parent t := by
  induction t with
  | nil => exact fun _ _ => trivial
  | node c l a r ihl ihr =>
    intro parent h heq
    simp only [Tree.inorder, List.mem_append, List.mem_cons] at heq
    obtain ⟨ha, hne, hl, hr⟩ := h
    exact ⟨(heq a (Or.inr (Or.inl rfl))).trans ha, hne, ihl hl (fun b hb => heq b (Or.inl hb)),
      ihr hr (fun b hb => heq b (Or.inr (Or.inr hb)))⟩

section Links

variable [DecidableEq α]

theorem links_of_notMem {t : Tree α} : ∀ {parent : Option α} {mem : α → Links α} {a : α},
    a ∉ t.inorder → t.links parent mem a = mem a := by
  induction t with
  | nil => exact fun _ => rfl
  | node c l b r ihl ihr =>
    intro parent mem a ha
    simp only [Tree.inorder, List.mem_append, List.mem_cons, not_or] at ha
    obtain ⟨hl, hb, hr⟩ := ha
    rw [Tree.links, ihl hl, ihr hr, Function.update_of_ne hb]

/-- **The links are stored** when no element stands twice in the tree. -/
theorem stored_links {t : Tree α} : ∀ {parent : Option α} {mem : α → Links α},
    t.inorder.Nodup → Stored (t.links parent mem) parent t := by
  induction t with
  | nil => exact fun _ => trivial
  | node c l a r ihl ihr =>
    intro parent mem hnd
    simp only [Tree.inorder] at hnd
    rw [List.nodup_append] at hnd
    obtain ⟨hl, har, hdisj⟩ := hnd
    rw [List.nodup_cons] at har
    have hal : a ∉ l.inorder := fun h => hdisj a h a List.mem_cons_self rfl
    refine ⟨?_, ?_, ihl hl, ?_⟩
    · rw [Tree.links, links_of_notMem hal, links_of_notMem har.1, Function.update_self]
    · intro b hb hb'
      exact hdisj b (Tree.mem_of_root hb') b (List.mem_cons_of_mem _ (Tree.mem_of_root hb)) rfl
    · have hr : Stored (r.links (some a) (Function.update mem a ⟨parent, l.root, r.root⟩))
          (some a) r := ihr har.2
      refine hr.congr (fun b hb => ?_)
      rw [Tree.links, links_of_notMem]
      exact fun hbl => hdisj b hbl b (List.mem_cons_of_mem _ hb) rfl

end Links

/-! ## Walking along the links -/

/-- Where `RBT_FOREACH` is: in `_rb_min`, in the loops of `_rb_next`, or in the loop body. -/
inductive Walk (α : Type*) where
  | start
  /-- go to the leftmost element from here -/
  | descend (elm : α)
  | body (elm : α)
  | next (elm : α)
  /-- go up as long as this is a right child -/
  | climb (elm : α)
  | finished
  deriving DecidableEq

/-- The element whose links are read next. -/
def Walk.elm : Walk α → Option α
  | .start | .finished => none
  | .descend a | .body a | .next a | .climb a => some a

/-- One hop; the loop body itself is the caller's. -/
def Walk.step [DecidableEq α] (root : Option α) (mem : α → Links α) : Walk α → Option (Walk α)
  | .start => match root with
    | none => some .finished
    | some a => some (.descend a)
  | .descend a => match (mem a).left with
    | some b => some (.descend b)
    | none => some (.body a)
  | .body a => some (.next a)
  | .next a => match (mem a).right with
    | some b => some (.descend b)
    | none => match (mem a).parent with
      | some b => if (mem b).left = some a then some (.body b) else some (.climb a)
      | none => some (.climb a)
  | .climb a => match (mem a).parent with
    | some b => if (mem b).right = some a then some (.climb b) else some (.body b)
    | none => some .finished
  | .finished => none

/-- The memory holds the links on the way up from `a`, as far as they are still read. -/
def StoredPath (mem : α → Links α) : α → List (Frame α) → Prop
  | _, [] => True
  | a, .left _ b r :: path => mem b = ⟨up path, some a, r.root⟩ ∧ r.root ≠ some a ∧
      Stored mem (some b) r ∧ StoredPath mem b path
  | a, .right _ _ b :: path => (mem b).parent = up path ∧ (mem b).right = some a ∧
      (mem b).left ≠ some a ∧ StoredPath mem b path

/-- The elements above that the walk has left behind and still passes on its way up. -/
def passed : List (Frame α) → List α
  | [] => []
  | .left _ _ _ :: path => passed path
  | .right _ _ a :: path => a :: passed path

/-- A bound for the number of hops after the current subtree. -/
def hops : List (Frame α) → ℕ
  | [] => 0
  | .left _ _ r :: path => 3 + 4 * r.inorder.length + hops path
  | .right _ _ _ :: path => 1 + hops path

/-- The walk stands in a stored tree: the elements it has still to meet, those it has left
behind and whose links it still reads, and a bound for the number of hops to come. -/
inductive At (mem : α → Links α) (root : Option α) : Walk α → List α → List α → ℕ → Prop where
  | start (t : Tree α) (hroot : t.root = root) (ht : Stored mem none t) :
    At mem root .start t.inorder [] (4 * t.inorder.length + 1)
  | descend (c : Color) (l : Tree α) (a : α) (r : Tree α) (path : List (Frame α))
    (ht : Stored mem (up path) (.node c l a r)) (hp : StoredPath mem a path) :
    At mem root (.descend a) (l.inorder ++ a :: r.inorder ++ after path) (passed path)
      (4 * (l.inorder.length + r.inorder.length + 1) + hops path)
  | body (a : α) (r : Tree α) (path : List (Frame α)) (hparent : (mem a).parent = up path)
    (hright : (mem a).right = r.root) (hleft : ∀ b, r.root = some b → (mem a).left ≠ some b)
    (hr : Stored mem (some a) r) (hp : StoredPath mem a path) :
    At mem root (.body a) (a :: r.inorder ++ after path) (passed path)
      (3 + 4 * r.inorder.length + hops path)
  | next (a : α) (r : Tree α) (path : List (Frame α)) (hparent : (mem a).parent = up path)
    (hright : (mem a).right = r.root) (hleft : ∀ b, r.root = some b → (mem a).left ≠ some b)
    (hr : Stored mem (some a) r) (hp : StoredPath mem a path) :
    At mem root (.next a) (r.inorder ++ after path) (a :: passed path)
      (2 + 4 * r.inorder.length + hops path)
  | climb (a : α) (path : List (Frame α)) (hparent : (mem a).parent = up path)
    (hp : StoredPath mem a path) :
    At mem root (.climb a) (after path) (a :: passed path) (1 + hops path)
  | finished : At mem root .finished [] [] 0

variable {mem mem' : α → Links α} {root : Option α} {w : Walk α} {rem dead : List α} {n : ℕ}

theorem At.mem_of_body {a : α} (h : At mem root (.body a) rem dead n) : a ∈ rem := by
  cases h
  exact List.mem_cons_self

theorem At.nil_of_finished (h : At mem root .finished rem dead n) : rem = [] := by
  cases h
  rfl

theorem StoredPath.congr {path : List (Frame α)} : ∀ {a : α}, StoredPath mem a path →
    (∀ b ∈ after path, mem' b = mem b) → (∀ b ∈ passed path, mem' b = mem b) →
    StoredPath mem' a path := by
  induction path with
  | nil => exact fun _ _ _ => trivial
  | cons f path ih =>
    intro a h hafter hpassed
    cases f with
    | left c b r =>
      simp only [after, List.cons_append, List.mem_cons, List.mem_append] at hafter
      obtain ⟨hb, hne, hr, hp⟩ := h
      exact ⟨(hafter b (Or.inl rfl)).trans hb, hne,
        hr.congr (fun x hx => hafter x (Or.inr (Or.inl hx))),
        ih hp (fun x hx => hafter x (Or.inr (Or.inr hx))) hpassed⟩
    | right c l b =>
      simp only [passed, List.mem_cons] at hpassed
      obtain ⟨hparent, hright, hleft, hp⟩ := h
      have hb := hpassed b (Or.inl rfl)
      refine ⟨?_, ?_, ?_, ih hp hafter (fun x hx => hpassed x (Or.inr hx))⟩
      · rw [hb, hparent]
      · rw [hb, hright]
      · rwa [hb]

/-- **Only the links still to be read matter.** -/
theorem At.congr (h : At mem root w rem dead n) (hrem : ∀ b ∈ rem, mem' b = mem b)
    (hdead : ∀ b ∈ dead, mem' b = mem b) : At mem' root w rem dead n := by
  cases h with
  | start t hroot ht => exact .start t hroot (ht.congr hrem)
  | descend c l a r path ht hp =>
    simp only [List.mem_append, List.mem_cons] at hrem
    refine .descend c l a r path (ht.congr (fun b hb => hrem b (Or.inl ?_)))
      (hp.congr (fun b hb => hrem b (Or.inr hb)) hdead)
    simpa [Tree.inorder] using hb
  | body a r path hparent hright hleft hr hp =>
    simp only [List.cons_append, List.mem_cons, List.mem_append] at hrem
    have ha := hrem a (Or.inl rfl)
    refine .body a r path (by rw [ha, hparent]) (by rw [ha, hright]) (by rwa [ha])
      (hr.congr (fun b hb => hrem b (Or.inr (Or.inl hb))))
      (hp.congr (fun b hb => hrem b (Or.inr (Or.inr hb))) hdead)
  | next a r path hparent hright hleft hr hp =>
    simp only [List.mem_append] at hrem
    simp only [List.mem_cons] at hdead
    have ha := hdead a (Or.inl rfl)
    refine .next a r path (by rw [ha, hparent]) (by rw [ha, hright]) (by rwa [ha])
      (hr.congr (fun b hb => hrem b (Or.inl hb)))
      (hp.congr (fun b hb => hrem b (Or.inr hb)) (fun b hb => hdead b (Or.inr hb)))
  | climb a path hparent hp =>
    simp only [List.mem_cons] at hdead
    exact .climb a path (by rw [hdead a (Or.inl rfl), hparent])
      (hp.congr hrem (fun b hb => hdead b (Or.inr hb)))
  | finished => exact .finished

theorem climb_step [DecidableEq α] {a : α} {path : List (Frame α)}
    (hparent : (mem a).parent = up path) (hp : StoredPath mem a path) :
    ∃ w' dead' n', Walk.step root mem (.climb a) = some w' ∧ At mem root w' (after path) dead' n' ∧
      n' < 1 + hops path ∧ ∀ b ∈ dead', b ∈ passed path := by
  cases path with
  | nil =>
    refine ⟨.finished, [], 0, ?_, .finished, Nat.one_pos, nofun⟩
    simp [Walk.step, hparent, up]
  | cons f path =>
    cases f with
    | left c b r =>
      obtain ⟨hb, hne, hr, hp⟩ := hp
      refine ⟨.body b, passed path, _, ?_, .body b r path (by rw [hb]) (by rw [hb]) ?_ hr hp, ?_,
        fun _ hx => hx⟩
      · simp [Walk.step, hparent, up, Frame.elm, hb, hne]
      · intro x hx
        rw [hb]
        rintro hax
        exact hne (hx.trans hax.symm)
      · simp only [hops]
        omega
    | right c l b =>
      obtain ⟨hbp, hbr, hbl, hp⟩ := hp
      refine ⟨.climb b, b :: passed path, _, ?_, .climb b path hbp hp, ?_, fun _ hx => hx⟩
      · simp [Walk.step, hparent, up, Frame.elm, hbr]
      · simp only [hops]
        omega

/-- **A hop** of the walk: it is always possible until the walk is finished, the elements come
in order, and the bound goes down. -/
theorem At.step [DecidableEq α] (h : At mem root w rem dead n) (hne : w ≠ .finished) :
    ∃ w' rem' dead' n', Walk.step root mem w = some w' ∧ At mem root w' rem' dead' n' ∧ n' < n ∧
      (∀ a, w = .body a → rem = a :: rem' ∧ dead' = a :: dead) ∧
      ((∀ a, w ≠ .body a) → rem' = rem ∧ ∀ b ∈ dead', b ∈ dead) := by
  cases h with
  | start t hroot ht =>
    cases t with
    | nil =>
      refine ⟨.finished, [], [], 0, ?_, .finished, Nat.succ_pos _, nofun, fun _ => ⟨rfl, nofun⟩⟩
      rw [← hroot]
      rfl
    | node c l a r =>
      refine ⟨.descend a, _, _, _, ?_, .descend c l a r [] ht trivial, ?_, nofun,
        fun _ => ⟨by simp [after, Tree.inorder], nofun⟩⟩
      · rw [← hroot]
        rfl
      · simp only [hops, Tree.inorder, List.length_append, List.length_cons]
        omega
  | descend c l a r path ht hp =>
    obtain ⟨ha, hlr, hl, hr⟩ := ht
    cases l with
    | nil =>
      refine ⟨.body a, _, _, _, ?_, .body a r path (by rw [ha]) (by rw [ha]) ?_ hr hp, ?_, nofun,
        fun _ => ⟨by simp [Tree.inorder], fun _ hx => hx⟩⟩
      · simp [Walk.step, ha, Tree.root]
      · rw [ha]
        exact nofun
      · simp only [Tree.inorder, List.length_nil]
        omega
    | node c' l' b r' =>
      have hroot : r.root ≠ some b := fun hrb => hlr b hrb rfl
      refine ⟨.descend b, _, _, _, ?_, .descend c' l' b r' (.left c a r :: path) hl
        ⟨ha, hroot, hr, hp⟩, ?_, nofun, fun _ => ⟨?_, fun _ hx => hx⟩⟩
      · simp [Walk.step, ha, Tree.root]
      · simp only [Tree.inorder, List.length_append, List.length_cons, hops]
        omega
      · simp [after, Tree.inorder]
  | body a r path hparent hright hleft hr hp =>
    refine ⟨.next a, _, _, _, rfl, .next a r path hparent hright hleft hr hp, ?_, ?_, ?_⟩
    · omega
    · intro b hb
      obtain rfl := Walk.body.inj hb
      exact ⟨rfl, rfl⟩
    · exact fun hb => absurd rfl (hb a)
  | next a r path hparent hright hleft hr hp =>
    cases r with
    | nil =>
      have hnone : (mem a).right = none := hright
      cases path with
      | nil =>
        refine ⟨.climb a, _, _, _, ?_, .climb a [] hparent hp, ?_, nofun,
          fun _ => ⟨by simp [Tree.inorder], fun _ hx => hx⟩⟩
        · simp [Walk.step, hnone, hparent, up]
        · simp [hops, Tree.inorder]
      | cons f path =>
        cases f with
        | left c b r =>
          obtain ⟨hb, hne, hr', hp⟩ := hp
          refine ⟨.body b, _, _, _, ?_, .body b r path (by rw [hb]) (by rw [hb]) ?_ hr' hp, ?_,
            nofun, fun _ => ⟨by simp [Tree.inorder, after], fun _ hx => List.mem_cons_of_mem _ hx⟩⟩
          · simp [Walk.step, hnone, hparent, up, Frame.elm, hb]
          · intro x hx
            rw [hb]
            exact fun hax => hne (hx.trans hax.symm)
          · simp only [hops]
            omega
        | right c l b =>
          refine ⟨.climb a, _, _, _, ?_, .climb a _ hparent hp, ?_, nofun,
            fun _ => ⟨by simp [Tree.inorder], fun _ hx => hx⟩⟩
          · simp [Walk.step, hnone, hparent, up, Frame.elm, hp.2.2.1]
          · simp only [hops, Tree.inorder, List.length_nil]
            omega
    | node c' l' b r' =>
      refine ⟨.descend b, _, _, _, ?_, .descend c' l' b r' (.right c' .nil a :: path) hr
        ⟨hparent, hright, hleft b rfl, hp⟩, ?_, nofun, fun _ => ⟨?_, fun _ hx => hx⟩⟩
      · simp [Walk.step, hright, Tree.root]
      · simp only [Tree.inorder, List.length_append, List.length_cons, hops]
        omega
      · simp [after, Tree.inorder]
  | climb a path hparent hp =>
    obtain ⟨w', dead', n', hs, hat, hlt, hsub⟩ := climb_step hparent hp
    exact ⟨w', _, dead', n', hs, hat, hlt, nofun,
      fun _ => ⟨rfl, fun b hb => List.mem_cons_of_mem _ (hsub b hb)⟩⟩
  | finished => exact absurd rfl hne

theorem passed_ancestor {path : List (Frame α)} : ∀ {a b : α}, StoredPath mem a path →
    (mem a).parent = up path → b ∈ passed path →
    Relation.TransGen (fun x y => (mem x).parent = some y) a b := by
  induction path with
  | nil => exact fun _ _ hb => by cases hb
  | cons f path ih =>
    intro a b h hparent hb
    cases f with
    | left c x r =>
      obtain ⟨hx, -, -, hp⟩ := h
      have hxp : (mem x).parent = up path := by rw [hx]
      exact .head hparent (ih hp hxp hb)
    | right c l x =>
      obtain ⟨hxp, -, -, hp⟩ := h
      rcases List.mem_cons.mp hb with rfl | hb
      · exact .single hparent
      · exact .head hparent (ih hp hxp hb)

/-- **Of the elements left behind, only the current one and its ancestors are read again.** -/
theorem At.ancestor (h : At mem root w rem dead n) {b : α} (hb : b ∈ dead) :
    ∃ a, w.elm = some a ∧ Relation.ReflTransGen (fun x y => (mem x).parent = some y) a b := by
  cases h with
  | start => cases hb
  | descend c l a r path ht hp =>
    exact ⟨a, rfl, (passed_ancestor hp (by rw [ht.1]) hb).to_reflTransGen⟩
  | body a r path hparent hright hleft hr hp =>
    exact ⟨a, rfl, (passed_ancestor hp hparent hb).to_reflTransGen⟩
  | next a r path hparent hright hleft hr hp =>
    refine ⟨a, rfl, ?_⟩
    rcases List.mem_cons.mp hb with rfl | hb
    · exact .refl
    · exact (passed_ancestor hp hparent hb).to_reflTransGen
  | climb a path hparent hp =>
    refine ⟨a, rfl, ?_⟩
    rcases List.mem_cons.mp hb with rfl | hb
    · exact .refl
    · exact (passed_ancestor hp hparent hb).to_reflTransGen
  | finished => cases hb

end RbTree
