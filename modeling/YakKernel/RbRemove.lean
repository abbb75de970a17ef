/-
# Removal keeps a red-black tree balanced

`rbe_remove` of `core/subr_tree.c` takes a node out, or its successor in its place, and
`rbe_remove_color` puts the colours right on the way up.  It reads the sibling of a node without
looking whether there is one.  In a tree with the red-black invariant there always is one, and both
insertion and removal keep the invariant.
-/
import YakKernel.RbTree
import Mathlib.Data.Nat.Log
import Mathlib.Tactic

namespace RbTree

variable {α : Type*}

/-! ## Removal -/

/-- What a round of `rbe_remove_color` makes of the subtree of `parent`: with one black node too
few, or as it should be. -/
inductive Round (α : Type*) where
  | short (t : Tree α)
  | done (t : Tree α)

/-- A round with `rbe` on the left of `parent` and a `tmp` that is not red; `none` when it follows a
null pointer. -/
def removeLeft (rbe : Tree α) (color : Color) (parent : α) : Tree α → Option (Round α)
  | .nil => none
  | .node _ left tmp right =>
    if left.isRed = false ∧ right.isRed = false then
      some (.short (.node color rbe parent (.node .red left tmp right)))
    else if right.isRed = false then
      match left with
      | .nil => none
      | .node _ ll oleft lr =>
        -- rotate `tmp` right first
        some (.done (.node color (.node .black rbe parent ll) oleft (.node .black lr tmp right)))
    else some (.done (.node color (.node .black rbe parent left) tmp right.blacken))

/-- A round with `rbe` on the right of `parent`. -/
def removeRight (rbe : Tree α) (color : Color) (parent : α) : Tree α → Option (Round α)
  | .nil => none
  | .node _ left tmp right =>
    if left.isRed = false ∧ right.isRed = false then
      some (.short (.node color (.node .red left tmp right) parent rbe))
    else if left.isRed = false then
      match right with
      | .nil => none
      | .node _ rl oright rr =>
        -- rotate `tmp` left first
        some (.done (.node color (.node .black left tmp rl) oright (.node .black rr parent rbe)))
    else some (.done (.node color left.blacken tmp (.node .black right parent rbe)))

/-- `rbe_remove_color`. -/
def removeColor : Tree α → List (Frame α) → Option (Tree α)
  | rbe, [] => some rbe.blacken
  | rbe, f :: path =>
    if rbe.isRed then some (plug rbe.blacken (f :: path))
    else
      match f with
      | .left _ parent (.node .red sl sa sr) =>
        -- after the rotation the parent is red, so that the loop ends with it
        (removeLeft rbe .red parent sl).map fun
          | .short t => plug t.blacken (.left .black sa sr :: path)
          | .done t => (plug t (.left .black sa sr :: path)).blacken
      | .left color parent tmp =>
        (removeLeft rbe color parent tmp).bind fun
          | .short t => removeColor t path
          | .done t => some (plug t path).blacken
      | .right _ (.node .red sl sa sr) parent =>
        (removeRight rbe .red parent sr).map fun
          | .short t => plug t.blacken (.right .black sl sa :: path)
          | .done t => (plug t (.right .black sl sa :: path)).blacken
      | .right color tmp parent =>
        (removeRight rbe color parent tmp).bind fun
          | .short t => removeColor t path
          | .done t => some (plug t path).blacken

/-- The node without a left child that the way down to the left ends at. -/
def leftmost : Tree α → List (Frame α) → Option (Color × α × Tree α × List (Frame α))
  | .nil, _ => none
  | .node c .nil a r, path => some (c, a, r, path)
  | .node c l a r, path => leftmost l (.left c a r :: path)

/-- The end of `rbe_remove`: `child` takes the place of a node of the given colour. -/
def detach (color : Color) (child : Tree α) (path : List (Frame α)) : Option (Tree α) :=
  if color = .black then removeColor child path else some (plug child path)

/-- `rbe_remove` of the node with these children at the end of `path`. -/
def rbeRemove (color : Color) (l r : Tree α) (path : List (Frame α)) : Option (Tree α) :=
  match l, r with
  | .nil, r => detach color r path
  | l, .nil => detach color l path
  | l, r =>
    match leftmost r [] with
    | none => none
    | some (c, next, child, down) => detach c child (down ++ .right color l next :: path)

/-! ## The invariant -/

/-- Every way down passes `n` black nodes, and no red node is the child of a red one. -/
inductive Balanced : Tree α → ℕ → Prop
  | nil : Balanced .nil 0
  | red {l r a n} (hl : Balanced l n) (hr : Balanced r n) (hl' : l.isRed = false)
      (hr' : r.isRed = false) : Balanced (.node .red l a r) n
  | black {l r a n} (hl : Balanced l n) (hr : Balanced r n) :
      Balanced (.node .black l a r) (n + 1)

/-- **The red-black invariant.** -/
structure RedBlack (t : Tree α) : Prop where
  balanced : ∃ n, Balanced t n
  root : t.isRed = false

/-- A red node may be at the end of the way. -/
def underBlack : List (Frame α) → Prop
  | [] => False
  | f :: _ => f.color = .black

/-- The subtree on the other side. -/
def Frame.other : Frame α → Tree α
  | .left _ _ r => r
  | .right _ l _ => l

/-- What is around a subtree with `n` black nodes on every way down. -/
inductive Around : List (Frame α) → ℕ → Prop
  | top {n} : Around [] n
  | red {f path n} (hc : f.color = .red) (hp : Around path n) (hb : underBlack path)
      (ho : Balanced f.other n) (ho' : f.other.isRed = false) : Around (f :: path) n
  | black {f path n} (hc : f.color = .black) (hp : Around path (n + 1))
      (ho : Balanced f.other n) : Around (f :: path) n

variable {t l r rbe tmp : Tree α} {f g : Frame α} {path : List (Frame α)} {a : α} {n : ℕ}
  {c : Color}

theorem isRed_node : (Tree.node c l a r).isRed = true ↔ c = .red := by
  cases c <;> simp [Tree.isRed]

theorem isRed_fill : (f.fill t).isRed = true ↔ f.color = .red := by
  cases f <;> exact isRed_node

theorem isRed_blacken (t : Tree α) : t.blacken.isRed = false := by
  cases t <;> rfl

theorem blacken_of_not_red (h : t.isRed = false) : t.blacken = t := by
  cases t with
  | nil => rfl
  | node c l a r =>
    cases c with
    | red => cases h
    | black => rfl

theorem Balanced.blacken (h : Balanced t n) (hr : t.isRed = true) : Balanced t.blacken (n + 1) := by
  cases h with
  | nil => cases hr
  | red hl hr' => exact .black hl hr'
  | black => cases hr

theorem Balanced.fill_red (ht : Balanced t n) (ht' : t.isRed = false) (hc : f.color = .red)
    (ho : Balanced f.other n) (ho' : f.other.isRed = false) : Balanced (f.fill t) n := by
  cases f with
  | left c a r =>
    obtain rfl : c = .red := hc
    exact .red ht ho ht' ho'
  | right c l a =>
    obtain rfl : c = .red := hc
    exact .red ho ht ho' ht'

theorem Balanced.fill_black (ht : Balanced t n) (hc : f.color = .black)
    (ho : Balanced f.other n) : Balanced (f.fill t) (n + 1) := by
  cases f with
  | left c a r =>
    obtain rfl : c = .black := hc
    exact .black ht ho
  | right c l a =>
    obtain rfl : c = .black := hc
    exact .black ho ht

theorem RedBlack.blacken (h : RedBlack t) : RedBlack t.blacken := by
  rw [blacken_of_not_red h.root]
  exact h

theorem Balanced.redBlack_blacken (h : Balanced t n) : RedBlack t.blacken := by
  refine ⟨?_, isRed_blacken t⟩
  cases hr : t.isRed with
  | true => exact ⟨n + 1, h.blacken hr⟩
  | false => exact ⟨n, (blacken_of_not_red hr).symm ▸ h⟩

/-- A subtree that fits makes a red-black tree. -/
theorem Around.plug (h : Around path n) (ht : Balanced t n)
    (hred : t.isRed = true → underBlack path) : RedBlack (plug t path) := by
  induction h generalizing t with
  | top => exact ⟨⟨_, ht⟩, Bool.eq_false_of_not_eq_true hred⟩
  | red hc hp hb ho ho' ih =>
    have ht' : t.isRed = false := by
      apply Bool.eq_false_of_not_eq_true
      intro hr
      cases hc.symm.trans (hred hr)
    exact ih (ht.fill_red ht' hc ho ho') fun _ => hb
  | black hc hp ho ih =>
    refine ih (ht.fill_black hc ho) fun hr => ?_
    cases hc.symm.trans (isRed_fill.mp hr)

/-- A red-black tree around any of its subtrees. -/
theorem RedBlack.exists_around (h : RedBlack (RbTree.plug t path)) :
    ∃ n, Around path n ∧ Balanced t n ∧ (t.isRed = true → underBlack path) := by
  induction path generalizing t with
  | nil =>
    obtain ⟨⟨n, hn⟩, hroot⟩ := h
    exact ⟨n, .top, hn, fun hr => by cases hroot.symm.trans hr⟩
  | cons f path ih =>
    obtain ⟨n, hp, hn, hred⟩ := ih h
    cases f with
    | left c a r =>
      cases hn with
      | red hl hr hl' hr' =>
        exact ⟨n, .red rfl hp (hred rfl) hr hr', hl, fun hr => by cases hl'.symm.trans hr⟩
      | black hl hr => exact ⟨_, .black rfl hp hr, hl, fun _ => rfl⟩
    | right c l a =>
      cases hn with
      | red hl hr hl' hr' =>
        exact ⟨n, .red rfl hp (hred rfl) hl hl', hr, fun hr => by cases hr'.symm.trans hr⟩
      | black hl hr => exact ⟨_, .black rfl hp hl, hr, fun _ => rfl⟩

/-! ## Insertion -/

/-- The parent of a parent that is not black is. -/
theorem Around.gparent (h : Around (f :: g :: path) n) (hf : f.color ≠ .black) :
    f.color = .red ∧ Balanced f.other n ∧ f.other.isRed = false ∧ Around path (n + 1) ∧
      Balanced g.other n := by
  cases h with
  | black hc => exact absurd hc hf
  | red hc hp hb ho ho' =>
    cases hp with
    | red hc' => cases hc'.symm.trans hb
    | black hc' hp' hu => exact ⟨hc, ho, ho', hp', hu⟩

theorem Frame.blacken_fill (f : Frame α) (t : Tree α) (ht : Balanced t n)
    (ho : Balanced f.other n) : Balanced (f.fill t).blacken (n + 1) := by
  cases f with
  | left => exact .black ht ho
  | right => exact .black ho ht

/-- Recolouring and rotating mend a red node under a red one. -/
theorem insertColor_redBlack (hp : Around path n) (ht : Balanced rbe n) (hred : rbe.isRed = true) :
    RedBlack (insertColor rbe path).blacken := by
  -- a subtree with a black root ends the loop
  have hdone : ∀ {path n} {l r : Tree α} {a : α}, Around path (n + 1) → Balanced l n →
      Balanced r n → RedBlack (plug (.node .black l a r) path).blacken :=
    fun hp hl hr => (hp.plug (.black hl hr) fun h => by cases h).blacken
  fun_induction insertColor rbe path generalizing n with
  | case1 rbe parent gparent path hblack =>
    exact (hp.plug ht fun _ => hblack).blacken
  | case2 rbe parent path hparent c ga tmp htmp ih =>
    obtain ⟨-, ho, -, hp', hu⟩ := hp.gparent hparent
    exact ih hp' (.red (parent.blacken_fill rbe ht ho) (Balanced.blacken hu htmp) (isRed_blacken _)
      (isRed_blacken _)) rfl
  | case6 rbe parent path hparent c tmp ga htmp ih =>
    obtain ⟨-, ho, -, hp', hu⟩ := hp.gparent hparent
    exact ih hp' (.red (Balanced.blacken hu htmp) (parent.blacken_fill rbe ht ho) (isRed_blacken _)
      (isRed_blacken _)) rfl
  | case3 path c ga tmp htmp c' pa pr rbe hparent =>
    obtain ⟨-, ho, ho', hp', hu⟩ := hp.gparent hparent
    exact hdone hp' ht (.red ho hu ho' (Bool.eq_false_of_not_eq_true htmp))
  | case7 path c tmp ga htmp c' pl pa rbe hparent =>
    obtain ⟨-, ho, ho', hp', hu⟩ := hp.gparent hparent
    exact hdone hp' (.red hu ho (Bool.eq_false_of_not_eq_true htmp) ho') ht
  | case4 path c ga tmp htmp c' pl pa c'' l a r hparent =>
    obtain ⟨-, ho, ho', hp', hu⟩ := hp.gparent hparent
    cases ht with
    | black => cases hred
    | red h1 h2 h1' h2' =>
      exact hdone hp' (.red ho h1 ho' h1') (.red h2 hu h2' (Bool.eq_false_of_not_eq_true htmp))
  | case8 path c tmp ga htmp c' pa pr c'' l a r hparent =>
    obtain ⟨-, ho, ho', hp', hu⟩ := hp.gparent hparent
    cases ht with
    | black => cases hred
    | red h1 h2 h1' h2' =>
      exact hdone hp' (.red hu h1 (Bool.eq_false_of_not_eq_true htmp) h1') (.red h2 ho h2' ho')
  | case5 | case9 => cases hred
  | case10 rbe path hpath =>
    cases path with
    | nil => exact ht.redBlack_blacken
    | cons f path =>
      cases path with
      | cons g path => exact absurd rfl (hpath f g path)
      | nil =>
        cases hp with
        | red _ _ hb => exact hb.elim
        | black hc _ ho => exact (ht.fill_black hc ho).redBlack_blacken

/-- **Insertion keeps the red-black invariant.** -/
theorem RedBlack.insert {key : α → ℕ} (h : RedBlack t) (a : α) : RedBlack (t.insert key a) := by
  unfold Tree.insert
  cases hd : descend key (key a) t [] with
  | none => exact h
  | some path =>
    have hplug : RedBlack (plug .nil path) := by
      rw [plug_descend hd]
      exact h
    obtain ⟨n, hp, hn, -⟩ := hplug.exists_around
    cases hn with
    | nil => exact insertColor_redBlack hp (.red .nil .nil rfl rfl) rfl

/-! ## Rounds -/

/-- The number of black nodes that a node of a colour adds. -/
def Color.weight : Color → ℕ
  | .red => 0
  | .black => 1

/-- The round below the node of a frame. -/
def Frame.round (rbe : Tree α) : Frame α → Option (Round α)
  | .left color parent tmp => removeLeft rbe color parent tmp
  | .right color tmp parent => removeRight rbe color parent tmp

/-- What a round is for: `n` black nodes on every way below the parent, or one too few. -/
def Round.Mends (color : Color) (elms : List α) (n : ℕ) : Round α → Prop
  | .short t => t.inorder = elms ∧ (t.isRed = true ↔ color = .red) ∧
      (color = .black → Balanced t n) ∧ (color = .red → Balanced t.blacken n)
  | .done t => t.inorder = elms ∧ (t.isRed = true ↔ color = .red) ∧
      Balanced t (n + color.weight)

theorem Balanced.node (hl : Balanced l n) (hr : Balanced r n) (hl' : l.isRed = false)
    (hr' : r.isRed = false) : Balanced (.node c l a r) (n + c.weight) := by
  cases c with
  | red => exact .red hl hr hl' hr'
  | black => exact .black hl hr

theorem mends_short {elms : List α} (hin : (Tree.node c l a r).inorder = elms)
    (hl : Balanced l n) (hr : Balanced r n) :
    (Round.short (.node c l a r)).Mends c elms (n + 1) := by
  refine ⟨hin, isRed_node, ?_, fun _ => .black hl hr⟩
  rintro rfl
  exact .black hl hr

/-- **A round** has a sibling to look at, and mends. -/
theorem Frame.round_mends (hrbe : Balanced rbe n) (ho : Balanced f.other (n + 1))
    (ho' : f.other.isRed = false) : ∃ round, f.round rbe = some round ∧
      round.Mends f.color (f.fill rbe).inorder (n + 1) := by
  cases f with
  | left c parent tmp =>
    cases ho with
    | red => cases ho'
    | @black left right ta _ hl hr =>
      unfold Frame.round removeLeft
      dsimp only
      by_cases hboth : left.isRed = false ∧ right.isRed = false
      · rw [if_pos hboth]
        exact ⟨_, rfl, mends_short rfl hrbe (.red hl hr hboth.1 hboth.2)⟩
      · rw [if_neg hboth]
        by_cases hr' : right.isRed = false
        · rw [if_pos hr']
          cases hl with
          | nil | black => exact absurd ⟨rfl, hr'⟩ hboth
          | red h1 h2 =>
            exact ⟨_, rfl, by simp [Frame.fill, Tree.inorder], isRed_node,
              .node (.black hrbe h1) (.black h2 hr) rfl rfl⟩
        · rw [if_neg hr']
          exact ⟨_, rfl, by simp [Frame.fill, Tree.inorder], isRed_node, .node (.black hrbe hl)
            (hr.blacken (Bool.eq_true_of_not_eq_false hr')) rfl (isRed_blacken _)⟩
  | right c tmp parent =>
    cases ho with
    | red => cases ho'
    | @black left right ta _ hl hr =>
      unfold Frame.round removeRight
      dsimp only
      by_cases hboth : left.isRed = false ∧ right.isRed = false
      · rw [if_pos hboth]
        exact ⟨_, rfl, mends_short rfl (.red hl hr hboth.1 hboth.2) hrbe⟩
      · rw [if_neg hboth]
        by_cases hl' : left.isRed = false
        · rw [if_pos hl']
          cases hr with
          | nil | black => exact absurd ⟨hl', rfl⟩ hboth
          | red h1 h2 =>
            exact ⟨_, rfl, by simp [Frame.fill, Tree.inorder], isRed_node,
              .node (.black hl h1) (.black h2 hrbe) rfl rfl⟩
        · rw [if_neg hl']
          exact ⟨_, rfl, by simp [Frame.fill, Tree.inorder], isRed_node,
            .node (hl.blacken (Bool.eq_true_of_not_eq_false hl')) (.black hr hrbe)
              (isRed_blacken _) rfl⟩

/-! ## The way up -/

theorem removeColor_red (h : rbe.isRed = true) :
    removeColor rbe path = some (plug rbe.blacken path) := by
  cases path with
  | nil => rfl
  | cons f path =>
    unfold removeColor
    exact if_pos h

/-- What the loop makes of a round. -/
def Round.next (path : List (Frame α)) : Round α → Option (Tree α)
  | .short t => removeColor t path
  | .done t => some (plug t path).blacken

theorem removeColor_round (h : rbe.isRed = false) (ho' : f.other.isRed = false) :
    removeColor rbe (f :: path) = (f.round rbe).bind (Round.next path) := by
  conv_lhs => unfold removeColor
  rw [if_neg (by simp [h])]
  cases f with
  | left c a tmp | right c tmp a =>
    cases tmp with
    | nil => rfl
    | node ct l b r =>
      cases ct with
      | red => cases ho'
      | black => rfl

/-- After the rotation below a red sibling the loop goes on below a red parent. -/
theorem removeColor_rotate (h : rbe.isRed = false) (hbal : Balanced rbe n)
    (ho : Balanced f.other (n + 1)) (ho' : f.other.isRed = true) (hp : Around path (n + 2)) :
    ∃ f' g, removeColor rbe (f :: path) = removeColor rbe (f' :: g :: path) ∧ f'.color = .red ∧
      Around (f' :: g :: path) (n + 1) ∧
      (plug rbe (f :: path)).inorder = (plug rbe (f' :: g :: path)).inorder := by
  cases f with
  | left c a tmp =>
    cases ho with
    | black => cases ho'
    | @red l r b _ hl hr hl' hr' =>
      refine ⟨.left .red a l, .left .black b r, ?_, rfl, .red rfl (.black rfl hp hr) rfl hl hl', ?_⟩
      · obtain ⟨round, hround, hmends⟩ := Frame.round_mends (f := .left .red a l) hbal hl hl'
        rw [removeColor_round h (f := .left .red a l) hl', hround]
        conv_lhs => unfold removeColor
        rw [if_neg (by simp [h])]
        dsimp only
        rw [show removeLeft rbe .red a l = some round from hround]
        cases round with
        | short t => exact (removeColor_red (hmends.2.1.mpr rfl)).symm
        | done t => rfl
      · simp [inorder_plug, before, after, Tree.inorder]
  | right c tmp a =>
    cases ho with
    | black => cases ho'
    | @red l r b _ hl hr hl' hr' =>
      refine ⟨.right .red r a, .right .black l b, ?_, rfl, .red rfl (.black rfl hp hl) rfl hr hr',
        ?_⟩
      · obtain ⟨round, hround, hmends⟩ := Frame.round_mends (f := .right .red r a) hbal hr hr'
        rw [removeColor_round h (f := .right .red r a) hr', hround]
        conv_lhs => unfold removeColor
        rw [if_neg (by simp [h])]
        dsimp only
        rw [show removeRight rbe .red a r = some round from hround]
        cases round with
        | short t => exact (removeColor_red (hmends.2.1.mpr rfl)).symm
        | done t => rfl
      · simp [inorder_plug, before, after, Tree.inorder]

/-- The code ends with a red-black tree of the same elements. -/
def Ends (run : Option (Tree α)) (elms : List α) : Prop :=
  ∃ t, run = some t ∧ RedBlack t ∧ t.inorder = elms

/-- The loop ends at a red node. -/
theorem ends_red (hp : Around path n) (ht : Balanced rbe.blacken n) (hred : rbe.isRed = true) :
    Ends (removeColor rbe path) (plug rbe path).inorder := by
  refine ⟨_, removeColor_red hred, hp.plug ht fun h => ?_, ?_⟩
  · cases (isRed_blacken rbe).symm.trans h
  · rw [inorder_plug, inorder_plug, Tree.inorder_blacken]

/-- A round ends the loop, or leaves it to the rounds above. -/
theorem ends_round (hp : Around (f :: path) (n + 1)) (hbal : Balanced rbe n)
    (hred : rbe.isRed = false) (ho' : f.other.isRed = false)
    (ih : f.color = .black → ∀ {rbe : Tree α}, Around path (n + 2) → Balanced rbe (n + 1) →
      Ends (removeColor rbe path) (plug rbe path).inorder) :
    Ends (removeColor rbe (f :: path)) (plug rbe (f :: path)).inorder := by
  have hdone : Balanced f.other (n + 1) ∧ Around path (n + 1 + f.color.weight) ∧
      (f.color = .red → underBlack path) := by
    cases hp with
    | red hc hp hb ho => exact ⟨ho, hc ▸ hp, fun _ => hb⟩
    | black hc hp ho => exact ⟨ho, hc ▸ hp, fun h => by cases hc.symm.trans h⟩
  obtain ⟨ho, hp, hb⟩ := hdone
  obtain ⟨round, hround, hmends⟩ := Frame.round_mends hbal ho ho'
  rw [removeColor_round hred ho', hround, RbTree.plug, inorder_plug]
  cases round with
  | short t =>
    obtain ⟨hin, hred, hblack, hmended⟩ := hmends
    rw [← hin, ← inorder_plug]
    cases hc : f.color with
    | black =>
      rw [hc] at hp
      exact ih hc hp (hblack hc)
    | red =>
      rw [hc] at hp
      exact ends_red hp (hmended hc) (hred.mpr hc)
  | done t =>
    obtain ⟨hin, hred, hbal⟩ := hmends
    rw [← hin, ← inorder_plug]
    exact ⟨_, rfl, (hp.plug hbal fun h => hb (hred.mp h)).blacken, Tree.inorder_blacken _⟩

/-- **`rbe_remove_color`** follows no null pointer, and makes up for the black node that is
missing. -/
theorem removeColor_ends (hp : Around path (n + 1)) (ht : Balanced rbe n) :
    Ends (removeColor rbe path) (plug rbe path).inorder := by
  induction path generalizing rbe n with
  | nil => exact ⟨_, rfl, ht.redBlack_blacken, Tree.inorder_blacken _⟩
  | cons f path ih =>
    cases hred : rbe.isRed with
    | true => exact ends_red hp (ht.blacken hred) hred
    | false =>
      cases ho' : f.other.isRed with
      | false => exact ends_round hp ht hred ho' fun _ => ih
      | true =>
        cases hp with
        | red _ _ _ _ h => cases h.symm.trans ho'
        | black hc hp ho =>
          -- a red sibling is rotated above the parent, and its child is the new sibling
          obtain ⟨f', g, hrun, hc', hp', hin⟩ := removeColor_rotate hred ht ho ho' hp
          have hf' : f'.other.isRed = false := by
            cases hp' with
            | red _ _ _ _ h => exact h
            | black h => cases hc'.symm.trans h
          rw [hrun, hin]
          exact ends_round hp' ht hred hf' fun h => by cases hc'.symm.trans h

/-! ## Taking a node out -/

theorem plug_append (t : Tree α) (p q : List (Frame α)) : plug t (p ++ q) = plug (plug t p) q := by
  induction p generalizing t with
  | nil => rfl
  | cons f p ih => exact ih _

/-- The node that the way down to the left ends at. -/
theorem leftmost_spec (ht : t ≠ .nil) : ∃ c next child down,
    leftmost t path = some (c, next, child, down) ∧
      plug (.node c .nil next child) down = plug t path ∧ before down = before path := by
  induction t generalizing path with
  | nil => exact absurd rfl ht
  | node c l a r ihl =>
    cases l with
    | nil => exact ⟨c, a, r, path, rfl, rfl, rfl⟩
    | node => exact @ihl (.left c a r :: path) (fun h => by cases h)

/-- A child takes the place of its parent. -/
theorem ends_detach (h : RedBlack (plug t path)) (ht : t = .node c .nil a r ∨ t = .node c r a .nil) :
    Ends (detach c r path) (before path ++ r.inorder ++ after path) := by
  obtain ⟨n, hp, hn, -⟩ := h.exists_around
  have hr : ∃ m, n = m + c.weight ∧ Balanced r m ∧ (c = .red → r.isRed = false) := by
    rcases ht with rfl | rfl
    · cases hn with
      | red _ hr _ hr' => exact ⟨n, rfl, hr, fun _ => hr'⟩
      | black _ hr => exact ⟨_, rfl, hr, fun h => by cases h⟩
    · cases hn with
      | red hr _ hr' _ => exact ⟨n, rfl, hr, fun _ => hr'⟩
      | black hr _ => exact ⟨_, rfl, hr, fun h => by cases h⟩
  obtain ⟨m, rfl, hr, hc⟩ := hr
  rw [← inorder_plug]
  cases c with
  | black => exact removeColor_ends hp hr
  | red =>
    refine ⟨_, rfl, hp.plug hr fun h => ?_, rfl⟩
    cases (hc rfl).symm.trans h

/-- **Removal** of any node follows no null pointer, takes this node out and keeps the red-black
invariant. -/
theorem RedBlack.rbeRemove (h : RedBlack (plug (.node c l a r) path)) :
    Ends (rbeRemove c l r path) (before path ++ l.inorder ++ r.inorder ++ after path) := by
  unfold RbTree.rbeRemove
  cases l with
  | nil =>
    have hends := ends_detach h (.inl rfl)
    rw [Tree.inorder, List.append_nil]
    exact hends
  | node cl ll la lr =>
    cases r with
    | nil =>
      have hends := ends_detach h (.inr rfl)
      rw [Tree.inorder, List.append_nil]
      exact hends
    | node cr rl ra rr =>
      obtain ⟨c', next, child, down, hmin, hplug, hbefore⟩ :=
        @leftmost_spec α (.node cr rl ra rr) [] (fun h => by cases h)
      -- the tree with the successor in the place of the node
      have hmoved : RedBlack (plug (.node c' .nil next child)
          (down ++ .right c (.node cl ll la lr) next :: path)) := by
        rw [plug_append, hplug]
        obtain ⟨n, hp, hn, hred⟩ := h.exists_around
        refine hp.plug ?_ fun h => hred (isRed_node.mpr (isRed_node.mp h))
        cases hn with
        | red hl hr hl' hr' => exact .red hl hr hl' hr'
        | black hl hr => exact .black hl hr
      have hends := ends_detach hmoved (.inl rfl)
      have horder : next :: (child.inorder ++ after down) = (Tree.node cr rl ra rr).inorder := by
        have heq := congrArg Tree.inorder hplug
        rw [inorder_plug, inorder_plug, hbefore] at heq
        simpa [Tree.inorder, before, after] using heq
      have hin := congrArg Tree.inorder (plug_append child down
        (.right c (.node cl ll la lr) next :: path))
      rw [inorder_plug, inorder_plug, inorder_plug, hbefore] at hin
      rw [hin] at hends
      simp only [hmin]
      rw [← horder]
      simpa [before, after] using hends

/-! ## The height -/

/-- The number of nodes on the longest way down. -/
def Tree.height : Tree α → ℕ
  | .nil => 0
  | .node _ l _ r => max l.height r.height + 1

/-- At most every second node on a way down is red, and every way passes the black ones. -/
theorem Balanced.height_le (h : Balanced t n) :
    t.height ≤ 2 * n + (if t.isRed then 1 else 0) ∧ 2 ^ n ≤ t.inorder.length + 1 := by
  induction h with
  | nil => exact ⟨le_rfl, le_rfl⟩
  | @red l r a n hl hr hl' hr' ihl ihr =>
    rw [hl'] at ihl
    rw [hr'] at ihr
    simp only [Tree.height, Tree.inorder, List.length_append, List.length_cons, Tree.isRed, if_true,
      Bool.false_eq_true, if_false] at ihl ihr ⊢
    omega
  | @black l r a n hl hr ihl ihr =>
    simp only [Tree.height, Tree.inorder, List.length_append, List.length_cons, pow_succ]
    have h1 : ∀ b : Bool, (if b then 1 else 0) ≤ 1 := by decide
    have := h1 l.isRed
    have := h1 r.isRed
    simp only [Tree.isRed, Bool.false_eq_true, if_false]
    omega

theorem RedBlack.height_le (h : RedBlack t) : t.height ≤ 2 * Nat.log 2 (t.inorder.length + 1) := by
  obtain ⟨⟨n, hn⟩, hroot⟩ := h
  obtain ⟨hheight, hsize⟩ := hn.height_le
  rw [hroot] at hheight
  have hlog : n ≤ Nat.log 2 (t.inorder.length + 1) := Nat.le_log_of_pow_le (by decide) hsize
  simp only [Bool.false_eq_true, if_false] at hheight
  omega

end RbTree
