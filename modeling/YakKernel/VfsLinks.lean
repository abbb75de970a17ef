/-
# Symlinks within symlinks

A lookup that comes to a symlink makes a lookup of its text, and so on, with nothing that counts
how deep.  It is a recursion through nested calls; there are finitely many texts and directories,
and a lookup returns exactly when it does not come back to one that it is in.
-/
import YakKernel.VfsLookup
import YakKernel.NestedCalls

namespace Vfs

open Prog NestedCalls

variable {V : Type}

/-! ## A lookup as a body -/

/-- The arguments of `vfs_lookup_path`. -/
structure Call (V : Type) where
  path : Option Name
  cwd : Option V
  flags : Flags

/-- The lookup of a symlink's text, which is in a directory. -/
def Tree.linkCall (tree : Tree V) (dest : Name) (current : V) : Call V where
  path := some dest
  cwd := some (if dest.head? = some '/' then tree.resolve tree.rootNode else current)
  flags := ⟨false, false⟩

/-- Following a symlink. -/
def Tree.linkBody (tree : Tree V) (current next : V) : Body (Call V) (Except Status V) :=
  match tree.readlink next with
  | .error e => .done (.error e)
  | .ok dest => .ask (tree.linkCall dest current) .done

variable [DecidableEq V]

/-- One component. -/
def Tree.compBody (tree : Tree V) (flags : Flags) (current : V) (comp : Name) (isLast : Bool) :
    Body (Call V) (Except Status V) :=
  if comp = ['.', '.'] ∧ tree.resolve tree.rootNode = current then .done (.ok current)
  else
    let current := if comp = ['.', '.'] then tree.resolveUpward current else current
    match tree.lookup current comp with
    | .error e => .done (.error e)
    | .ok next =>
      if tree.type (tree.resolve next) = .vlnk ∧ ¬ (isLast ∧ flags.nofollow) then
        tree.linkBody current (tree.resolve next)
      else .done (.ok (tree.resolve next))

/-- The components one after the other. -/
def Tree.compsBody (tree : Tree V) (flags : Flags) (wantDir : Bool) :
    List Name → V → Body (Call V) (Except Status V)
  | [], _ => .done (.error .noent)
  | comp :: comps, current =>
    if tree.type current ≠ .vdir then .done (.error .nodir)
    else if comps = [] ∧ flags.parent then .done (.ok current)
    else
      (tree.compBody flags current comp comps.isEmpty).andThen (fun r =>
        match r with
        | .error e => .done (.error e)
        | .ok next =>
          if comps = [] then
            if wantDir ∧ tree.type next ≠ .vdir then .done (.error .nodir) else .done (.ok next)
          else tree.compsBody flags wantDir comps next)

/-- The lookup of a path. -/
def Tree.lookupBody (tree : Tree V) (c : Call V) : Body (Call V) (Except Status V) :=
  match c.path with
  | none | some [] => .done (.error .invalidArgs)
  | some (x :: xs) =>
    let path := x :: xs
    let current := if path.head? = some '/' then tree.resolve tree.rootNode
      else c.cwd.getD tree.cwd
    if path = ['/'] then .done (.ok current)
    else if path = ['.'] then
      if tree.type current ≠ .vdir then .done (.error .nodir) else .done (.ok current)
    else tree.compsBody c.flags (path.getLast? = some '/') (splitPath path) current

/-! ## The walk is the recursion -/

variable {tree : Tree V} {follow : Name → V → Walk V V} {answer : Call V → Option (Except Status V)}
  {flags : Flags} {current next : V}

theorem eval_linkBody
    (h : ∀ dest w, (follow dest w).map Prod.fst = answer ⟨some dest, some w, ⟨false, false⟩⟩) :
    (tree.linkBody current next).eval answer =
      (tree.walkLink follow current next).map Prod.fst := by
  rw [Tree.linkBody, Tree.walkLink]
  cases tree.readlink next with
  | error e => rfl
  | ok dest =>
    dsimp only
    rw [Body.eval, Tree.linkCall, ← h]
    cases follow dest _ with
    | none => rfl
    | some r =>
      obtain ⟨r, slips⟩ := r
      cases r with
      | error e => rfl
      | ok destvn => rfl

theorem eval_compBody
    (h : ∀ dest w, (follow dest w).map Prod.fst = answer ⟨some dest, some w, ⟨false, false⟩⟩)
    (comp : Name) (isLast : Bool) :
    (tree.compBody flags current comp isLast).eval answer =
      (tree.walkComp follow flags current comp isLast).map Prod.fst := by
  rw [Tree.compBody, Tree.walkComp]
  by_cases hroot : comp = ['.', '.'] ∧ tree.resolve tree.rootNode = current
  · rw [if_pos hroot, if_pos hroot]
    rfl
  · rw [if_neg hroot, if_neg hroot]
    dsimp only
    cases tree.lookup (if comp = ['.', '.'] then tree.resolveUpward current else current) comp with
    | error e => rfl
    | ok next =>
      dsimp only
      by_cases hlink : tree.type (tree.resolve next) = .vlnk ∧ ¬ (isLast ∧ flags.nofollow)
      · rw [if_pos hlink, if_pos hlink]
        exact eval_linkBody h
      · rw [if_neg hlink, if_neg hlink]
        rfl

theorem eval_compsBody
    (h : ∀ dest w, (follow dest w).map Prod.fst = answer ⟨some dest, some w, ⟨false, false⟩⟩)
    (wantDir : Bool) (comps : List Name) (current : V) :
    (tree.compsBody flags wantDir comps current).eval answer =
      (tree.walkComps follow flags wantDir comps current).map Prod.fst := by
  induction comps generalizing current with
  | nil => rfl
  | cons comp comps ih =>
    rw [Tree.compsBody, Tree.walkComps]
    by_cases hdir : tree.type current ≠ .vdir
    · rw [if_pos hdir, if_pos hdir]
      rfl
    rw [if_neg hdir, if_neg hdir]
    by_cases hparent : comps = [] ∧ flags.parent
    · rw [if_pos hparent, if_pos hparent]
      rfl
    rw [if_neg hparent, if_neg hparent, Body.eval_andThen, eval_compBody h]
    cases tree.walkComp follow flags current comp comps.isEmpty with
    | none => rfl
    | some r =>
      obtain ⟨r, slips⟩ := r
      cases r with
      | error e => rfl
      | ok next =>
        rw [Option.map_some, Option.bind_some]
        dsimp only
        by_cases hlast : comps = []
        · rw [if_pos hlast, if_pos hlast]
          by_cases hwant : wantDir ∧ tree.type next ≠ .vdir
          · rw [if_pos hwant, if_pos hwant]
            rfl
          · rw [if_neg hwant, if_neg hwant]
            rfl
        · rw [if_neg hlast, if_neg hlast, ih, Option.map_map]
          rfl

/-- **The walk of a path** is the recursion, but for the slips. -/
theorem call_lookupBody (hroot : tree.type (tree.resolve tree.rootNode) = .vdir) (n : ℕ)
    (path : Option Name) (cwd : Option V) (flags : Flags) :
    call tree.lookupBody n ⟨path, cwd, flags⟩ = (tree.walk n path cwd flags).map Prod.fst := by
  induction n generalizing path cwd flags with
  | zero => rfl
  | succ n ih =>
    cases path with
    | none => rfl
    | some path =>
      cases path with
      | nil => rfl
      | cons x xs =>
        rw [call, Tree.lookupBody, Tree.walk]
        dsimp only
        by_cases hslash : x :: xs = ['/']
        · have hhead : (x :: xs).head? = some '/' := by
            rw [hslash]
            rfl
          rw [if_pos hslash, if_pos hslash, if_pos hhead, if_pos hroot]
          rfl
        rw [if_neg hslash, if_neg hslash]
        by_cases hdot : x :: xs = ['.']
        · rw [if_pos hdot, if_pos hdot]
          by_cases hdir : tree.type (if (x :: xs).head? = some '/' then
              tree.resolve tree.rootNode else cwd.getD tree.cwd) ≠ .vdir
          · rw [if_pos hdir, if_pos hdir]
            rfl
          · rw [if_neg hdir, if_neg hdir]
            rfl
        rw [if_neg hdot, if_neg hdot]
        exact eval_compsBody (fun dest w => (ih _ _ _).symm) _ _ _

/-! ## What is asked for -/

/-- The lookups of symlinks' texts. -/
def Tree.linkCalls (tree : Tree V) : Set (Call V) :=
  Set.range (fun p : V × V => tree.linkCall ((tree.readlink p.1).toOption.getD []) p.2)

omit [DecidableEq V] in
theorem asks_linkBody {answers : Call V → Except Status V → Prop} {c : Call V}
    (h : (tree.linkBody current next).Asks answers c) : c ∈ tree.linkCalls := by
  rw [Tree.linkBody] at h
  cases hread : tree.readlink next with
  | error e =>
    rw [hread] at h
    cases h
  | ok dest =>
    rw [hread] at h
    cases h with
    | now =>
      refine ⟨(next, current), ?_⟩
      dsimp only
      rw [hread]
      rfl
    | later _ h' => cases h'

theorem asks_compBody {answers : Call V → Except Status V → Prop} {c : Call V} {comp : Name}
    {isLast : Bool} (h : (tree.compBody flags current comp isLast).Asks answers c) :
    c ∈ tree.linkCalls := by
  rw [Tree.compBody] at h
  by_cases hroot : comp = ['.', '.'] ∧ tree.resolve tree.rootNode = current
  · rw [if_pos hroot] at h
    cases h
  · rw [if_neg hroot] at h
    dsimp only at h
    cases hlook : tree.lookup (if comp = ['.', '.'] then tree.resolveUpward current else current)
        comp with
    | error e =>
      rw [hlook] at h
      cases h
    | ok next =>
      rw [hlook] at h
      dsimp only at h
      by_cases hlink : tree.type (tree.resolve next) = .vlnk ∧ ¬ (isLast ∧ flags.nofollow)
      · rw [if_pos hlink] at h
        exact asks_linkBody h
      · rw [if_neg hlink] at h
        cases h

theorem asks_compsBody {answers : Call V → Except Status V → Prop} {c : Call V} {wantDir : Bool}
    {comps : List Name} (h : (tree.compsBody flags wantDir comps current).Asks answers c) :
    c ∈ tree.linkCalls := by
  induction comps generalizing current with
  | nil => cases h
  | cons comp comps ih =>
    rw [Tree.compsBody] at h
    by_cases hdir : tree.type current ≠ .vdir
    · rw [if_pos hdir] at h
      cases h
    rw [if_neg hdir] at h
    by_cases hparent : comps = [] ∧ flags.parent
    · rw [if_pos hparent] at h
      cases h
    rw [if_neg hparent] at h
    rcases h.of_andThen with hcomp | ⟨r, hrest⟩
    · exact asks_compBody hcomp
    · cases r with
      | error e => cases hrest
      | ok next =>
        dsimp only at hrest
        by_cases hlast : comps = []
        · rw [if_pos hlast] at hrest
          by_cases hwant : wantDir ∧ tree.type next ≠ .vdir
          · rw [if_pos hwant] at hrest
            cases hrest
          · rw [if_neg hwant] at hrest
            cases hrest
        · rw [if_neg hlast] at hrest
          exact ih hrest

/-- **A lookup asks for lookups of symlinks' texts only.** -/
theorem asks_lookupBody {c c' : Call V} (h : Asks tree.lookupBody c c') :
    c' ∈ tree.linkCalls := by
  rw [Asks, Tree.lookupBody] at h
  cases hpath : c.path with
  | none =>
    rw [hpath] at h
    cases h
  | some path =>
    rw [hpath] at h
    cases path with
    | nil => cases h
    | cons x xs =>
      dsimp only at h
      by_cases hslash : x :: xs = ['/']
      · rw [if_pos hslash] at h
        cases h
      rw [if_neg hslash] at h
      by_cases hdot : x :: xs = ['.']
      · rw [if_pos hdot] at h
        by_cases hdir : tree.type (if (x :: xs).head? = some '/' then
            tree.resolve tree.rootNode else c.cwd.getD tree.cwd) ≠ .vdir
        · rw [if_pos hdir] at h
          cases h
        · rw [if_neg hdir] at h
          cases h
      rw [if_neg hdot] at h
      exact asks_compsBody h

omit [DecidableEq V] in
theorem ncard_linkCalls_le [Finite V] (tree : Tree V) :
    tree.linkCalls.Finite ∧ tree.linkCalls.ncard ≤ Nat.card V * Nat.card V := by
  refine ⟨Set.finite_range _, ?_⟩
  rw [Tree.linkCalls, ← Set.image_univ]
  refine (Set.ncard_image_le (Set.toFinite _)).trans ?_
  rw [Set.ncard_univ, Nat.card_prod]

/-! ## Returning -/

/-- A lookup of some path comes back to itself: on its way symlinks' texts are looked up within
one another in a circle. -/
def Tree.Circular (tree : Tree V) (path : Option Name) (cwd : Option V) (flags : Flags) : Prop :=
  Loops tree.lookupBody ⟨path, cwd, flags⟩

/-- A lookup, nested at most `n` deep, from no lock, returns with a vnode or an error. -/
def Tree.Returns (tree : Tree V) (n : ℕ) (path : Option Name) (cwd : Option V) (flags : Flags)
    (wantLast : Bool) : Prop :=
  ∀ refcnt, ∃ r s', vfsLookupPath n path cwd flags wantLast tree (clear refcnt) = .ok (r, s')

theorem returns_iff_walk (tree : Tree V) (n : ℕ) (path : Option Name) (cwd : Option V)
    (flags : Flags) (wantLast : Bool) :
    tree.Returns n path cwd flags wantLast ↔ tree.walk n path cwd flags ≠ none := by
  have hfollows : ∀ refcnt, (resultOnly (vfsLookupPath n path cwd flags wantLast)).Ends tree
      (clear refcnt) (fun _ _ => tree.walk n path cwd flags ≠ none)
      (fun _ => tree.walk n path cwd flags = none) := by
    intro refcnt
    have h := follows_vfsLookupPath tree wantLast n path cwd flags (refcnt - cwdRef cwd)
    rw [sub_add_cancel] at h
    refine Ends.mono h ?_ (fun e he => he.1)
    rintro r s' ⟨slips, hwalk, _⟩
    rw [hwalk]
    exact Option.some_ne_none _
  constructor
  · intro h
    obtain ⟨r, s', hrun⟩ := h 0
    have hends := hfollows 0
    rw [resultOnly, ends_bind] at hends
    exact hends.of_ok hrun
  · intro h refcnt
    have hends := hfollows refcnt
    rw [resultOnly, ends_bind] at hends
    obtain ⟨r, s', hrun, _⟩ :=
      (hends.mono (fun _ _ hq => hq) (fun _ hnone => absurd hnone h)).exists_ok
    exact ⟨r, s', hrun⟩

/-- **Path lookup terminates** exactly when it is not circular: nested at most once for every
symlink and directory it returns, and a circular one does not return however deep it may nest. -/
theorem lookup_returns_iff [Finite V] (tree : Tree V)
    (hroot : tree.type (tree.resolve tree.rootNode) = .vdir) (path : Option Name) (cwd : Option V)
    (flags : Flags) (wantLast : Bool) :
    (tree.Returns (Nat.card V * Nat.card V + 1) path cwd flags wantLast ↔
      ¬ tree.Circular path cwd flags) ∧
    (tree.Circular path cwd flags → ∀ n, ¬ tree.Returns n path cwd flags wantLast) := by
  have hwalk : ∀ n, tree.Returns n path cwd flags wantLast ↔
      call tree.lookupBody n ⟨path, cwd, flags⟩ ≠ none := by
    intro n
    rw [returns_iff_walk, call_lookupBody hroot, Ne, Ne, Option.map_eq_none_iff]
  obtain ⟨hfinite, hcard⟩ := ncard_linkCalls_le tree
  constructor
  · rw [hwalk, Ne, call_eq_none_iff hfinite (fun _ _ => asks_lookupBody) (by omega)]
    exact Iff.rfl
  · intro hcirc n
    rw [hwalk]
    exact fun hne => hne (hcirc.call_eq_none n)

/-- A dangling symlink is not circular. -/
theorem lookup_returns_iff_dangling :
    ¬ danglingLink.Circular (some ['a']) none ⟨false, false⟩ := by
  refine (lookup_returns_iff danglingLink rfl (some ['a']) none ⟨false, false⟩ false).1.mp ?_
  rw [returns_iff_walk, Nat.card_eq_fintype_card, Fintype.card_bool]
  decide

/-- A root directory and a symlink in it, called `a`. -/
def linkType (v : Bool) : VType := if v then .vlnk else .vdir

def linkLookup : Bool → Name → Except Status Bool :=
  tmpfsLookup linkType (fun _ name => if name = ['a'] then some true else none)

theorem linkType_of_lookup (v : Bool) (name : Name) (next : Bool)
    (h : linkLookup v name = .ok next) : linkType v = .vdir := by
  cases v with
  | false => rfl
  | true => cases h

theorem linkType_of_none (_v m : Bool) (h : (none : Option Bool) = some m) :
    linkType m = .vdir := by
  cases h

theorem lt_of_none (_v m : Bool) (h : (none : Option Bool) = some m) : (0 : ℕ) < 0 := by cases h

/-- A root directory with one symlink `a`, to itself. -/
def selfLink : Tree Bool where
  rootNode := false
  cwd := false
  type := linkType
  lookup := linkLookup
  readlink := tmpfsReadlink linkType (fun _ => ['a']) (fun _ => false)
  mountedRoot _ := none
  nodeCovered _ := none
  height _ := 0
  depth _ := 0
  type_of_lookup := linkType_of_lookup
  type_of_mounted := linkType_of_none
  height_lt := lt_of_none
  depth_lt := lt_of_none

/-- **Counterexample.**  The lookup of `a` comes back to itself, and never returns. -/
theorem selfLink_never_returns :
    ¬ ∃ n, selfLink.Returns n (some ['a']) none ⟨false, false⟩ false := by
  rintro ⟨n, hreturns⟩
  have hself : Asks selfLink.lookupBody ⟨some ['a'], some false, ⟨false, false⟩⟩
      ⟨some ['a'], some false, ⟨false, false⟩⟩ := .now
  have hfirst : Asks selfLink.lookupBody ⟨some ['a'], none, ⟨false, false⟩⟩
      ⟨some ['a'], some false, ⟨false, false⟩⟩ := .now
  have hloops : Loops selfLink.lookupBody ⟨some ['a'], none, ⟨false, false⟩⟩ :=
    ⟨_, .single hfirst, .single hself⟩
  have hnone := hloops.call_eq_none n
  rw [call_lookupBody rfl, Option.map_eq_none_iff] at hnone
  rw [returns_iff_walk] at hreturns
  exact hreturns hnone

end Vfs
