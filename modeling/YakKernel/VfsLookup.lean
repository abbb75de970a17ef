/-
# What a lookup does with references

The walk of `vfs_lookup_path` as a function of the tree alone, with the places on the way where
the code keeps a reference too many or drops one too many.  The code follows this walk, and its
references balance exactly when these places cancel out at every vnode.
-/
import YakKernel.Vfs
import Mathlib.Algebra.BigOperators.Group.List.Basic
import Mathlib.Algebra.Group.Pi.Basic

namespace Vfs

open Prog

variable {V : Type} [DecidableEq V]

/-! ## Mounts -/

omit [DecidableEq V] in
theorem Tree.resolveIn_of_none (tree : Tree V) {v : V} (h : tree.mountedRoot v = none) :
    ∀ n, tree.resolveIn n v = v := by
  intro n
  cases n with
  | zero => rfl
  | succ n => simp only [resolveIn, h]

omit [DecidableEq V] in
theorem Tree.resolveIn_eq (tree : Tree V) :
    ∀ n m v, tree.height v ≤ n → tree.height v ≤ m → tree.resolveIn n v = tree.resolveIn m v := by
  intro n
  induction n with
  | zero =>
    intro m v hn _
    cases hv : tree.mountedRoot v with
    | none => rw [tree.resolveIn_of_none hv, tree.resolveIn_of_none hv]
    | some w =>
      have := tree.height_lt v w hv
      omega
  | succ n ih =>
    intro m v hn hm
    cases hv : tree.mountedRoot v with
    | none => rw [tree.resolveIn_of_none hv, tree.resolveIn_of_none hv]
    | some w =>
      have hlt := tree.height_lt v w hv
      cases m with
      | zero => omega
      | succ m =>
        simp only [resolveIn, hv]
        exact ih m w (by omega) (by omega)

omit [DecidableEq V] in
theorem Tree.resolve_eq (tree : Tree V) (v : V) :
    tree.resolve v = match tree.mountedRoot v with
      | some m => tree.resolve m
      | none => v := by
  cases hv : tree.mountedRoot v with
  | none => exact tree.resolveIn_of_none hv _
  | some m =>
    have hlt := tree.height_lt v m hv
    have hstep : tree.resolveIn (tree.height v + 1) v = tree.resolveIn (tree.height v) m := by
      simp only [resolveIn, hv]
    rw [resolve, tree.resolveIn_eq _ (tree.height v + 1) v le_rfl (by omega), hstep]
    exact tree.resolveIn_eq _ _ m (by omega) le_rfl

omit [DecidableEq V] in
theorem Tree.type_resolve (tree : Tree V) :
    ∀ n v, tree.height v ≤ n → tree.resolve v ≠ v → tree.type (tree.resolve v) = .vdir := by
  intro n
  induction n with
  | zero =>
    intro v hn hne
    rw [tree.resolve_eq] at hne
    cases hv : tree.mountedRoot v with
    | none =>
      rw [hv] at hne
      exact absurd rfl hne
    | some m =>
      have := tree.height_lt v m hv
      omega
  | succ n ih =>
    intro v hn hne
    cases hv : tree.mountedRoot v with
    | none =>
      rw [tree.resolve_eq, hv] at hne
      exact absurd rfl hne
    | some m =>
      have hlt := tree.height_lt v m hv
      rw [tree.resolve_eq, hv]
      show tree.type (tree.resolve m) = .vdir
      by_cases hm : tree.resolve m = m
      · rw [hm]
        exact tree.type_of_mounted v m hv
      · exact ih m (by omega) hm

omit [DecidableEq V] in
theorem Tree.resolveUpward_of_none (tree : Tree V) {v : V} (h : tree.nodeCovered v = none) :
    tree.resolveUpward v = v := by
  rw [resolveUpward]
  cases tree.depth v with
  | zero => rfl
  | succ n => simp only [resolveUpwardIn, h]

/-! ## The walk -/

/-- A place where the references get out of balance: one to `v` is kept although it should be
dropped, or dropped twice. -/
inductive Slip (V : Type) where
  | leaked (v : V)
  | droppedTwice (v : V)
  deriving DecidableEq

/-- A walk: its result and the slips on the way; `none` when it does not end. -/
abbrev Walk (V α : Type) := Option (Except Status α × List (Slip V))

/-- Crossing mounts: `.` of a directory with something mounted on it drops the directory twice,
and a mounted root that is the directory itself is not dropped. -/
def Tree.crossSlips (tree : Tree V) (current next : V) : List (Slip V) :=
  if tree.resolve next = next then []
  else if current = next then [.droppedTwice current]
  else if tree.resolve next = current then [.leaked current]
  else []

/-- Following a symlink: the directory it is in is not dropped when the symlink cannot be read
or its own lookup fails, nor when it leads back to that directory. -/
def Tree.walkLink (tree : Tree V) (follow : Name → V → Walk V V) (current next : V) : Walk V V :=
  match tree.readlink next with
  | .error e => some (.error e, [.leaked current])
  | .ok dest =>
    match follow dest (if dest.head? = some '/' then tree.resolve tree.rootNode else current) with
    | none => none
    | some (.error e, slips) => some (.error e, slips ++ [.leaked current])
    | some (.ok destvn, slips) =>
      some (.ok destvn, slips ++ if current = destvn then [.leaked current] else [])

/-- One component. -/
def Tree.walkComp (tree : Tree V) (follow : Name → V → Walk V V) (flags : Flags) (current : V)
    (comp : Name) (isLast : Bool) : Walk V V :=
  if comp = ['.', '.'] ∧ tree.resolve tree.rootNode = current then some (.ok current, [])
  else
    let current := if comp = ['.', '.'] then tree.resolveUpward current else current
    match tree.lookup current comp with
    | .error e => some (.error e, [])
    | .ok next =>
      if tree.type (tree.resolve next) = .vlnk ∧ ¬ (isLast ∧ flags.nofollow) then
        tree.walkLink follow current (tree.resolve next)
      else some (.ok (tree.resolve next), tree.crossSlips current next)

/-- The components one after the other. -/
def Tree.walkComps (tree : Tree V) (follow : Name → V → Walk V V) (flags : Flags)
    (wantDir : Bool) : List Name → V → Walk V V
  | [], _ => some (.error .noent, [])
  | comp :: comps, current =>
    if tree.type current ≠ .vdir then some (.error .nodir, [])
    else if comps = [] ∧ flags.parent then some (.ok current, [])
    else
      match tree.walkComp follow flags current comp comps.isEmpty with
      | none => none
      | some (.error e, slips) => some (.error e, slips)
      | some (.ok next, slips) =>
        if comps = [] then
          if wantDir ∧ tree.type next ≠ .vdir then some (.error .nodir, slips)
          else some (.ok next, slips)
        else
          (tree.walkComps follow flags wantDir comps next).map
            (fun r => (r.1, slips ++ r.2))

/-- **The walk of a path.**  An empty path does not drop the vnode it was to start from. -/
def Tree.walk (tree : Tree V) : ℕ → Option Name → Option V → Flags → Walk V V
  | 0, _, _, _ => none
  | n + 1, path, cwd, flags =>
    match path with
    | none | some [] => some (.error .invalidArgs, (cwd.map Slip.leaked).toList)
    | some (c :: cs) =>
      let path := c :: cs
      let current := if path.head? = some '/' then tree.resolve tree.rootNode
        else cwd.getD tree.cwd
      if path = ['/'] then
        if tree.type current = .vdir then some (.ok current, []) else none
      else if path = ['.'] then
        if tree.type current ≠ .vdir then some (.error .nodir, []) else some (.ok current, [])
      else
        tree.walkComps (fun dest w => tree.walk n (some dest) (some w) ⟨false, false⟩) flags
          (path.getLast? = some '/') (splitPath path) current

/-! ## References in hand -/

/-- What a slip adds to the references of every vnode. -/
def Slip.amount : Slip V → V → ℤ
  | .leaked v => Pi.single v 1
  | .droppedTwice v => -Pi.single v 1

/-- What all slips together add. -/
def drift (slips : List (Slip V)) : V → ℤ := (slips.map Slip.amount).sum

@[simp] theorem drift_nil : drift ([] : List (Slip V)) = 0 := rfl

@[simp] theorem drift_append (l₁ l₂ : List (Slip V)) : drift (l₁ ++ l₂) = drift l₁ + drift l₂ := by
  simp only [drift, List.map_append, List.sum_append]

@[simp] theorem drift_leaked (v : V) : drift [.leaked v] = Pi.single v 1 := by
  simp only [drift, List.map_cons, List.map_nil, List.sum_cons, List.sum_nil, add_zero,
    Slip.amount]

@[simp] theorem drift_droppedTwice (v : V) : drift [.droppedTwice v] = -Pi.single v 1 := by
  simp only [drift, List.map_cons, List.map_nil, List.sum_cons, List.sum_nil, add_zero,
    Slip.amount]

theorem drift_apply (l : List (Slip V)) (v : V) :
    drift l v = l.count (.leaked v) - l.count (.droppedTwice v) := by
  induction l with
  | nil => simp
  | cons a l ih =>
    have hcons : drift (a :: l) v = a.amount v + drift l v := by
      simp only [drift, List.map_cons, List.sum_cons, Pi.add_apply]
    rw [hcons, ih]
    cases a with
    | leaked w =>
      by_cases hw : w = v
      · subst hw
        simp [Slip.amount]
        ring
      · simp [Slip.amount, hw, Ne.symm hw]
    | droppedTwice w =>
      by_cases hw : w = v
      · subst hw
        simp [Slip.amount]
        ring
      · simp [Slip.amount, hw, Ne.symm hw]

theorem drift_eq_zero_iff (l : List (Slip V)) :
    drift l = 0 ↔ ∀ v, l.count (.leaked v) = l.count (.droppedTwice v) := by
  rw [funext_iff]
  refine forall_congr' (fun v => ?_)
  rw [drift_apply, Pi.zero_apply, sub_eq_zero, Nat.cast_inj]

/-- The thread holds no lock. -/
def clear (refcnt : V → ℤ) : Refs V := ⟨refcnt, fun _ => false⟩

/-- The thread holds the lock of `v` alone. -/
def holding (refcnt : V → ℤ) (v : V) : Refs V := ⟨refcnt, fun w => decide (w = v)⟩

/-- After a lookup: on success one reference and the lock on the result. -/
def settle (refcnt : V → ℤ) : Except Status V → Refs V
  | .ok out => holding (refcnt + Pi.single out 1) out
  | .error _ => clear refcnt

variable {tree : Tree V} {s : Refs V} {refcnt : V → ℤ} {v w : V} {Q : Unit → Refs V → Prop}
  {R : Failure → Prop}

theorem update_add (f : V → ℤ) (v : V) (k : ℤ) :
    Function.update f v (f v + k) = f + Pi.single v k := by
  funext w
  by_cases hw : w = v
  · subst hw
    simp
  · simp [hw]

@[simp] theorem ends_vnodeRef :
    (vnodeRef v).Ends tree s Q R ↔ Q () ⟨s.refcnt + Pi.single v 1, s.locked⟩ := by
  rw [vnodeRef, ends_change, update_add]

@[simp] theorem ends_vnodeDeref :
    (vnodeDeref v).Ends tree s Q R ↔ Q () ⟨s.refcnt - Pi.single v 1, s.locked⟩ := by
  rw [vnodeDeref, ends_change]
  have h := update_add s.refcnt v (-1)
  rw [Pi.single_neg, ← sub_eq_add_neg, ← sub_eq_add_neg] at h
  rw [h]

@[simp] theorem ends_vopLock_clear :
    (vopLock v).Ends tree (clear refcnt) Q R ↔ Q () (holding refcnt v) := by
  have hlock : Function.update (clear refcnt).locked v true = (holding refcnt v).locked := by
    funext w
    by_cases hw : w = v
    · subst hw
      simp [holding]
    · simp [clear, holding, hw]
  simp only [vopLock, ends_bind, ends_getState, ends_check, ends_change, hlock]
  simp [clear, holding]

@[simp] theorem ends_vopUnlock_holding :
    (vopUnlock v).Ends tree (holding refcnt v) Q R ↔ Q () (clear refcnt) := by
  have hlock : Function.update (holding refcnt v).locked v false = (clear refcnt).locked := by
    funext w
    by_cases hw : w = v
    · subst hw
      simp [clear]
    · simp [clear, holding, hw]
  simp only [vopUnlock, ends_bind, ends_getState, ends_check, ends_change, hlock]
  simp [clear, holding]

theorem ends_lockBoth (hne : v ≠ w) :
    (vopLock w).Ends tree (holding refcnt v) (fun _ s' => (vopUnlock v).Ends tree s' Q R) R ↔
      Q () (holding refcnt w) := by
  have hlock : Function.update (Function.update (holding refcnt v).locked w true) v false =
      (holding refcnt w).locked := by
    funext x
    by_cases hx : x = v
    · subst hx
      simp [holding, hne]
    · by_cases hxw : x = w
      · subst hxw
        simp [holding, hx]
      · simp [holding, hx, hxw]
  simp only [vopLock, vopUnlock, ends_bind, ends_getState, ends_check, ends_change, hlock]
  simp [holding, hne, hne.symm]

@[simp] theorem ends_vnodeRef_clear :
    (vnodeRef v).Ends tree (clear refcnt) Q R ↔ Q () (clear (refcnt + Pi.single v 1)) :=
  ends_vnodeRef

@[simp] theorem ends_vnodeDeref_clear :
    (vnodeDeref v).Ends tree (clear refcnt) Q R ↔ Q () (clear (refcnt - Pi.single v 1)) :=
  ends_vnodeDeref

@[simp] theorem ends_vnodeRef_holding :
    (vnodeRef w).Ends tree (holding refcnt v) Q R ↔ Q () (holding (refcnt + Pi.single w 1) v) :=
  ends_vnodeRef

@[simp] theorem ends_vnodeDeref_holding :
    (vnodeDeref w).Ends tree (holding refcnt v) Q R ↔ Q () (holding (refcnt - Pi.single w 1) v) :=
  ends_vnodeDeref

@[simp] theorem ends_vput :
    (vput v).Ends tree (holding refcnt v) Q R ↔ Q () (clear (refcnt - Pi.single v 1)) := by
  simp only [vput, ends_bind, ends_vopUnlock_holding, ends_vnodeDeref_clear]

/-! ## The code follows the walk -/

/-- The code follows a walk: it ends where the walk does, with the references that the slips of
the walk add, and it is stuck only where the walk does not end. -/
def Follows (tree : Tree V) (x : VfsM V (Except Status V)) (s : Refs V) (refcnt : V → ℤ)
    (walk : Walk V V) : Prop :=
  x.Ends tree s
    (fun r s' => ∃ slips, walk = some (r, slips) ∧ s' = settle (refcnt + drift slips) r)
    (fun e => walk = none ∧ (e = .diverges ∨ e = .assertion))

theorem Follows.of_error (tree : Tree V) {e : Status} {slips : List (Slip V)} :
    Follows tree (pure (.error e)) (clear (refcnt + drift slips)) refcnt
      (some (.error e, slips)) :=
  ⟨slips, rfl, rfl⟩

theorem Follows.of_ok (tree : Tree V) {slips : List (Slip V)} :
    Follows tree (pure (.ok v)) (holding (refcnt + Pi.single v 1 + drift slips) v) refcnt
      (some (.ok v, slips)) := by
  refine ⟨slips, rfl, ?_⟩
  rw [settle, add_right_comm]

theorem Follows.of_error_nil (tree : Tree V) {e : Status} :
    Follows tree (pure (.error e)) (clear refcnt) refcnt (some (.error e, [])) :=
  ⟨[], rfl, by rw [drift_nil, add_zero]; rfl⟩

theorem Follows.of_ok_nil (tree : Tree V) :
    Follows tree (pure (.ok v)) (holding (refcnt + Pi.single v 1) v) refcnt
      (some (.ok v, [])) :=
  ⟨[], rfl, by rw [drift_nil, add_zero]; rfl⟩

theorem ends_stepUp {Q : V → Refs V → Prop} :
    (stepUp v).Ends tree (holding (refcnt + Pi.single v 1) v) Q R ↔
      Q (tree.resolveUpward v)
        (holding (refcnt + Pi.single (tree.resolveUpward v) 1) (tree.resolveUpward v)) := by
  rw [stepUp, ends_bind, ends_getEnv]
  cases hc : tree.nodeCovered v with
  | none =>
    simp only [ends_pure]
    rw [tree.resolveUpward_of_none hc]
  | some c =>
    by_cases hv : tree.resolveUpward v = v
    · simp only [hv, ne_eq, not_true_eq_false, ite_false, ends_pure]
    · simp only [ne_eq, hv, not_false_eq_true, ite_true, ends_bind, ends_vput,
        ends_vnodeRef_clear, ends_vopLock_clear, ends_pure]
      rw [add_sub_cancel_right]

theorem ends_crossMounts {Q : V → Refs V → Prop} :
    (crossMounts v w).Ends tree (holding (refcnt + Pi.single v 1) v) Q R ↔
      Q (tree.resolve w) (holding (refcnt + Pi.single v 1 + Pi.single (tree.resolve w) 1 -
        if v = w then Pi.single v 1 else 0) (tree.resolve w)) := by
  -- the state after the first part is the one with `w` locked, whatever `v` is
  have hmiddle : ∀ refs, (if w ≠ tree.resolve w then do
          vnodeRef (tree.resolve w)
          vopUnlock w
          vnodeDeref w
          vopLock (tree.resolve w)
          pure (tree.resolve w)
        else pure w : VfsM V V).Ends tree (holding refs w) Q R ↔
      Q (tree.resolve w) (holding (refs + Pi.single (tree.resolve w) 1 - Pi.single w 1)
        (tree.resolve w)) := by
    intro refs
    by_cases hw : w = tree.resolve w
    · rw [← hw]
      simp only [ne_eq, not_true_eq_false, ite_false, ends_pure]
      rw [add_sub_cancel_right]
    · simp only [ne_eq, hw, not_false_eq_true, ite_true, ends_bind, ends_vnodeRef_holding,
        ends_vopUnlock_holding, ends_vnodeDeref_clear, ends_vopLock_clear, ends_pure]
  rw [crossMounts, ends_bind, ends_getEnv]
  by_cases hvw : v = w
  · subst hvw
    simp only [ne_eq, not_true_eq_false, ite_false, ite_true]
    exact hmiddle _
  · simp only [ne_eq, hvw, not_false_eq_true, ite_true, ite_false, sub_zero]
    rw [ends_bind, ends_vnodeRef_holding, ends_bind]
    simp only [ends_bind]
    rw [ends_lockBoth hvw]
    refine (hmiddle _).trans ?_
    rw [add_right_comm, add_sub_cancel_right]

theorem follows_skipFollow {refs : V → ℤ} {slips : List (Slip V)}
    (h : refs = refcnt + Pi.single w 1 + drift slips + if v = w then 0 else Pi.single v 1) :
    Follows tree (skipFollow v w) (holding refs w) refcnt (some (.ok w, slips)) := by
  subst h
  unfold Follows
  rw [skipFollow]
  by_cases hvw : v = w
  · simp only [hvw, ne_eq, not_true_eq_false, ite_false, ite_true, add_zero]
    exact Follows.of_ok tree
  · simp only [hvw, ne_eq, not_false_eq_true, ite_true, ite_false, ends_bind,
      ends_vnodeDeref_holding]
    rw [add_sub_cancel_right]
    exact Follows.of_ok tree

/-- **Following a symlink.** -/
theorem follows_followLink {follow : Name → V → VfsM V (Except Status V)}
    {walk : Name → V → Walk V V}
    (hfollow : ∀ dest x refs, Follows tree (follow dest x) (clear (refs + Pi.single x 1)) refs
      (walk dest x)) :
    Follows tree (followLink follow v w)
      (holding (refcnt + Pi.single v 1 + Pi.single w 1) w) refcnt (tree.walkLink walk v w) := by
  unfold Follows
  rw [followLink, ends_bind, ends_getEnv, ends_bind, ends_vopUnlock_holding]
  cases hread : tree.readlink w with
  | error e =>
    simp only [ends_bind, ends_vnodeDeref_clear, Tree.walkLink, hread]
    rw [add_sub_cancel_right, ← drift_leaked]
    exact Follows.of_error tree
  | ok dest =>
    simp only [ends_bind, ends_vnodeRef_clear, Tree.walkLink, hread]
    refine (hfollow dest _ _).mono ?_ ?_
    · rintro r s' ⟨slips, hwalk, rfl⟩
      rw [hwalk]
      cases r with
      | error e =>
        simp only [settle, ends_vnodeDeref_clear]
        have hrefs : refcnt + Pi.single v 1 + Pi.single w 1 + drift slips - Pi.single w 1 =
            refcnt + drift (slips ++ [.leaked v]) := by
          rw [drift_append, drift_leaked]
          abel
        rw [hrefs]
        exact Follows.of_error tree
      | ok destvn =>
        simp only [settle, ends_vnodeDeref_holding]
        apply follows_skipFollow
        by_cases hv : v = destvn
        · simp only [hv, ite_true, drift_append, drift_leaked]
          abel
        · simp only [hv, ite_false, drift_append, drift_nil]
          abel
    · rintro e ⟨hwalk, he⟩
      rw [hwalk]
      exact ⟨rfl, he⟩

/-- **One component.** -/
theorem follows_lookupComp {follow : Name → V → VfsM V (Except Status V)}
    {walk : Name → V → Walk V V}
    (hfollow : ∀ dest x refs, Follows tree (follow dest x) (clear (refs + Pi.single x 1)) refs
      (walk dest x)) (flags : Flags) (comp : Name) (isLast : Bool) :
    Follows tree (lookupComp follow flags v comp isLast) (holding (refcnt + Pi.single v 1) v)
      refcnt (tree.walkComp walk flags v comp isLast) := by
  -- from the vnode that the component is looked up in
  have hround : ∀ current, Follows tree (match tree.lookup current comp with
      | .error e => do
        vput current
        pure (.error e)
      | .ok next => do
        let next ← crossMounts current next
        if tree.type next = .vlnk ∧ ¬ (isLast ∧ flags.nofollow) then
          followLink follow current next
        else skipFollow current next) (holding (refcnt + Pi.single current 1) current) refcnt
      (match tree.lookup current comp with
      | .error e => some (.error e, [])
      | .ok next =>
        if tree.type (tree.resolve next) = .vlnk ∧ ¬ (isLast ∧ flags.nofollow) then
          tree.walkLink walk current (tree.resolve next)
        else some (.ok (tree.resolve next), tree.crossSlips current next)) := by
    intro current
    unfold Follows
    cases hlook : tree.lookup current comp with
    | error e =>
      simp only [ends_bind, ends_vput]
      rw [add_sub_cancel_right]
      exact Follows.of_error_nil tree
    | ok next =>
      simp only [ends_bind, ends_crossMounts]
      have hdir := tree.type_of_lookup current comp next hlook
      by_cases hlnk : tree.type (tree.resolve next) = .vlnk ∧ ¬ (isLast ∧ flags.nofollow)
      · simp only [hlnk, not_false_eq_true, and_self, ite_true]
        -- a symlink is neither a directory nor mounted
        have hres : tree.resolve next = next := by
          by_contra hne
          have := tree.type_resolve _ next le_rfl hne
          rw [hlnk.1] at this
          cases this
        have hne : current ≠ next := by
          rintro rfl
          rw [hres, hdir] at hlnk
          cases hlnk.1
        simp only [hne, ite_false, sub_zero]
        exact follows_followLink hfollow
      · simp only [hlnk, ite_false]
        apply follows_skipFollow
        unfold Tree.crossSlips
        by_cases hres : tree.resolve next = next
        · rw [hres]
          by_cases hne : current = next
          · simp [hne]
          · simp [hne]
            abel
        · by_cases hne : current = next
          · have hne' : next ≠ tree.resolve next := Ne.symm hres
            simp only [hne, hres, ite_true, ite_false, hne', drift_droppedTwice]
            abel
          · by_cases hback : tree.resolve next = current
            · simp only [hres, hback.symm, ite_true, ite_false, drift_leaked]
              abel
            · simp only [hres, hne, hback, Ne.symm hback, ite_false, drift_nil]
              abel
  rw [lookupComp, Tree.walkComp]
  unfold Follows
  rw [ends_bind, ends_getEnv]
  by_cases hroot : comp = ['.', '.'] ∧ tree.resolve tree.rootNode = v
  · simp only [hroot, and_self, ite_true]
    exact Follows.of_ok_nil tree
  · simp only [hroot, ite_false]
    by_cases hup : comp = ['.', '.']
    · simp only [hup, ite_true]
      rw [ends_bind, ends_stepUp]
      rw [hup] at hround
      exact hround _
    · simp only [hup, ite_false]
      exact hround _

/-- A lookup without the last component. -/
def resultOnly (x : VfsM V (Except Status (V × Option Name))) : VfsM V (Except Status V) := do
  let r ← x
  pure (r.map Prod.fst)

/-- **The loop over the components.** -/
theorem follows_lookupComps {follow : Name → V → VfsM V (Except Status V)}
    {walk : Name → V → Walk V V}
    (hfollow : ∀ dest x refs, Follows tree (follow dest x) (clear (refs + Pi.single x 1)) refs
      (walk dest x)) (flags : Flags) (wantDir wantLast : Bool) :
    ∀ comps v refcnt, Follows tree
      (resultOnly (lookupComps follow flags wantDir wantLast comps v))
      (holding (refcnt + Pi.single v 1) v) refcnt
      (tree.walkComps walk flags wantDir comps v) := by
  intro comps
  induction comps with
  | nil =>
    intro v refcnt
    unfold Follows
    rw [resultOnly, lookupComps, ends_bind, ends_bind, ends_vput, ends_pure,
      add_sub_cancel_right]
    exact Follows.of_error_nil tree
  | cons comp comps ih =>
    intro v refcnt
    unfold Follows
    rw [resultOnly, lookupComps, Tree.walkComps, ends_bind, ends_bind, ends_getEnv]
    by_cases hdir : tree.type v = .vdir
    · by_cases hparent : comps = [] ∧ flags.parent
      · simp only [hdir, hparent, ne_eq, not_true_eq_false, ite_false, and_self, ite_true,
          ends_pure]
        exact Follows.of_ok_nil tree
      · simp only [hdir, hparent, ne_eq, not_true_eq_false, ite_false, ends_bind]
        refine (follows_lookupComp hfollow flags comp comps.isEmpty).mono ?_ ?_
        · rintro r s' ⟨slips, hwalk, rfl⟩
          rw [hwalk]
          cases r with
          | error e =>
            simp only [ends_pure]
            exact Follows.of_error tree
          | ok next =>
            have hsettle : settle (refcnt + drift slips) (.ok next) =
                holding (refcnt + drift slips + Pi.single next 1) next := rfl
            rw [hsettle]
            by_cases hlast : comps = []
            · by_cases hwant : wantDir ∧ tree.type next ≠ .vdir
              · simp only [hlast, hwant, ite_true, not_false_eq_true, and_self, ends_bind,
                  ends_vput, ends_pure]
                rw [add_sub_cancel_right]
                exact Follows.of_error tree
              · simp only [hlast, hwant, ite_true, ite_false, ends_pure]
                exact ⟨slips, rfl, rfl⟩
            · simp only [hlast, ite_false]
              have hrest := ih next (refcnt + drift slips)
              unfold Follows at hrest
              rw [resultOnly, ends_bind] at hrest
              refine hrest.mono ?_ ?_
              · rintro r s' ⟨slips', hwalk', rfl⟩
                refine ⟨slips ++ slips', ?_, ?_⟩
                · rw [hwalk']
                  rfl
                · rw [drift_append, add_assoc]
              · rintro e ⟨hwalk', he⟩
                refine ⟨?_, he⟩
                rw [hwalk']
                rfl
        · rintro e ⟨hwalk, he⟩
          rw [hwalk]
          exact ⟨rfl, he⟩
    · simp only [hdir, ne_eq, not_false_eq_true, ite_true, ends_bind, ends_vput, ends_pure]
      rw [add_sub_cancel_right]
      exact Follows.of_error_nil tree

/-- The reference that comes with `cwd`. -/
def cwdRef (cwd : Option V) : V → ℤ := cwd.elim 0 (fun v => Pi.single v 1)

theorem ends_start {path : Name} {cwd : Option V} {Q : V → Refs V → Prop} :
    (startVnode path cwd).Ends tree (clear (refcnt + cwdRef cwd))
      (fun v s' => (vopLock v).Ends tree s' (fun _ => Q v) R) R ↔
    Q (if path.head? = some '/' then tree.resolve tree.rootNode else cwd.getD tree.cwd)
      (holding (refcnt + Pi.single (if path.head? = some '/' then tree.resolve tree.rootNode
        else cwd.getD tree.cwd) 1)
        (if path.head? = some '/' then tree.resolve tree.rootNode else cwd.getD tree.cwd)) := by
  rw [startVnode, ends_bind, ends_getEnv]
  by_cases hslash : path.head? = some '/'
  · cases cwd with
    | none =>
      simp only [hslash, ite_true, ends_bind, ends_vnodeRef_clear, ifSome, ends_pure,
        ends_vopLock_clear, cwdRef, Option.elim, add_zero]
    | some vn =>
      simp only [hslash, ite_true, ends_bind, ends_vnodeRef_clear, ifSome, ends_pure,
        ends_vnodeDeref_clear, ends_vopLock_clear, cwdRef, Option.elim]
      rw [add_right_comm, add_sub_cancel_right]
  · cases cwd with
    | none =>
      simp only [hslash, ite_false, ends_bind, ends_vnodeRef_clear, ends_pure,
        ends_vopLock_clear, cwdRef, Option.elim, add_zero, Option.getD_none]
    | some vn =>
      simp only [hslash, ite_false, ends_pure, ends_vopLock_clear, cwdRef, Option.elim,
        Option.getD_some]

/-- **The code follows the walk of a path.** -/
theorem follows_vfsLookupPath (tree : Tree V) (wantLast : Bool) :
    ∀ n path cwd flags refcnt, Follows tree
      (resultOnly (vfsLookupPath n path cwd flags wantLast)) (clear (refcnt + cwdRef cwd)) refcnt
      (tree.walk n path cwd flags) := by
  intro n
  -- the lookups of symlinks do not hand back their last component
  suffices h : ∀ wantLast path cwd flags refcnt, Follows tree
      (resultOnly (vfsLookupPath n path cwd flags wantLast)) (clear (refcnt + cwdRef cwd)) refcnt
      (tree.walk n path cwd flags) from h wantLast
  induction n with
  | zero =>
    intro wantLast path cwd flags refcnt
    exact ⟨rfl, Or.inl rfl⟩
  | succ n ih =>
    intro wantLast path cwd flags refcnt
    have hempty : Follows tree (pure (.error .invalidArgs)) (clear (refcnt + cwdRef cwd)) refcnt
        (some (.error .invalidArgs, (cwd.map Slip.leaked).toList)) := by
      refine ⟨_, rfl, ?_⟩
      cases cwd with
      | none =>
        simp only [cwdRef, Option.elim, Option.map_none, Option.toList_none, drift_nil, settle]
      | some vn =>
        simp only [cwdRef, Option.elim, Option.map_some, Option.toList_some, drift_leaked, settle]
    match path with
    | none => exact hempty
    | some [] => exact hempty
    | some (c :: cs) =>
      unfold Follows
      rw [resultOnly, vfsLookupPath, Tree.walk, ends_bind, ends_bind, ends_getEnv]
      simp only []
      rw [ends_bind]
      simp only [ends_bind]
      rw [ends_start]
      generalize (if (c :: cs).head? = some '/' then tree.resolve tree.rootNode
        else cwd.getD tree.cwd) = current
      by_cases hslash : c :: cs = ['/']
      · by_cases hdir : tree.type current = .vdir
        · simp only [hslash, hdir, ite_true, ends_bind, ends_check, ends_pure]
          exact ⟨fun _ => Follows.of_ok_nil tree, fun h => absurd trivial h⟩
        · simp only [hslash, hdir, ite_true, ite_false, ends_bind, ends_check]
          refine ⟨fun h => h.elim, fun _ => ?_⟩
          exact ⟨trivial, Or.inr trivial⟩
      · by_cases hdot : c :: cs = ['.']
        · rw [hdot] at hslash
          by_cases hdir : tree.type current = .vdir
          · simp only [hslash, hdot, hdir, ite_true, ite_false, ne_eq, not_true_eq_false, ends_pure]
            exact Follows.of_ok_nil tree
          · simp only [hslash, hdot, hdir, ite_true, ite_false, ne_eq, not_false_eq_true, ends_bind,
              ends_vput, ends_pure]
            rw [add_sub_cancel_right]
            exact Follows.of_error_nil tree
        · simp only [hslash, hdot, ite_false]
          have hcomps := follows_lookupComps
            (fun dest x refs => ih false (some dest) (some x) ⟨false, false⟩ refs)
            flags ((c :: cs).getLast? = some '/') wantLast (splitPath (c :: cs)) current refcnt
          unfold Follows at hcomps
          rw [resultOnly, ends_bind] at hcomps
          exact hcomps

/-! ## The balance of a lookup -/

/-- The reference that comes with the result. -/
def outRef : Except Status (V × Option Name) → V → ℤ
  | .ok (out, _) => Pi.single out 1
  | .error _ => 0

/-- The only net changes: the reference of `cwd` is consumed, and on success there is one
reference to the result and its lock. -/
structure Balanced (s s' : Refs V) (cwd : Option V) (r : Except Status (V × Option Name)) :
    Prop where
  refcnt : s'.refcnt + cwdRef cwd = s.refcnt + outRef r
  locked : ∀ v, s'.locked v = true ↔ ∃ lastComp, r = .ok (v, lastComp)

/-- The slips of the walk. -/
def Tree.slips (tree : Tree V) (n : ℕ) (path : Option Name) (cwd : Option V) (flags : Flags) :
    List (Slip V) :=
  ((tree.walk n path cwd flags).map Prod.snd).getD []

theorem vfsLookupPath_settle {n : ℕ} {path : Option Name} {cwd : Option V} {flags : Flags}
    {wantLast : Bool} {s s' : Refs V} {r : Except Status (V × Option Name)}
    (hlocks : ∀ v, s.locked v = false)
    (hrun : vfsLookupPath n path cwd flags wantLast tree s = .ok (r, s')) :
    s' = settle (s.refcnt - cwdRef cwd + drift (tree.slips n path cwd flags))
      (r.map Prod.fst) := by
  have hs : s = clear (s.refcnt - cwdRef cwd + cwdRef cwd) := by
    have hlocked : s.locked = fun _ => false := funext hlocks
    rw [sub_add_cancel, clear, ← hlocked]
  have h := follows_vfsLookupPath tree wantLast n path cwd flags (s.refcnt - cwdRef cwd)
  rw [← hs] at h
  unfold Follows at h
  rw [resultOnly, ends_bind] at h
  obtain ⟨slips, hwalk, hs'⟩ := h.of_ok hrun
  have hslips : tree.slips n path cwd flags = slips := by
    rw [Tree.slips, hwalk]
    rfl
  rw [hslips]
  exact hs'

/-- **References and locks balance** exactly when, at every vnode, the walk leaks a reference as
often as it drops one twice. -/
theorem lookup_balanced (tree : Tree V) (n : ℕ) (path : Option Name) (cwd : Option V)
    (flags : Flags) (wantLast : Bool) (s s' : Refs V) (r : Except Status (V × Option Name))
    (hlocks : ∀ v, s.locked v = false)
    (hrun : vfsLookupPath n path cwd flags wantLast tree s = .ok (r, s')) :
    Balanced s s' cwd r ↔ ∀ v, (tree.slips n path cwd flags).count (.leaked v) =
      (tree.slips n path cwd flags).count (.droppedTwice v) := by
  have hsettle := vfsLookupPath_settle hlocks hrun
  have hrefcnt : s'.refcnt + cwdRef cwd =
      s.refcnt + outRef r + drift (tree.slips n path cwd flags) := by
    rw [hsettle]
    cases r with
    | error e =>
      simp only [Except.map, settle, clear, outRef]
      abel
    | ok out =>
      simp only [Except.map, settle, holding, outRef]
      abel
  have hlocked : ∀ v, s'.locked v = true ↔ ∃ lastComp, r = .ok (v, lastComp) := by
    intro v
    rw [hsettle]
    cases r with
    | error e => simp [Except.map, settle, clear]
    | ok out =>
      obtain ⟨out, lastComp⟩ := out
      simp [Except.map, settle, holding, eq_comm]
  rw [← drift_eq_zero_iff]
  constructor
  · intro h
    have := h.refcnt
    rw [hrefcnt] at this
    exact left_eq_add.mp this.symm
  · intro h
    refine ⟨?_, hlocked⟩
    rw [hrefcnt, h, add_zero]

/-- A root directory with one symlink `a`, to a name that does not exist. -/
def danglingLink : Tree Bool where
  rootNode := false
  cwd := false
  type v := if v then .vlnk else .vdir
  lookup := tmpfsLookup (fun v => if v then .vlnk else .vdir)
    (fun _ name => if name = ['a'] then some true else none)
  readlink := tmpfsReadlink (fun v => if v then .vlnk else .vdir) (fun _ => ['x']) (fun _ => false)
  mountedRoot _ := none
  nodeCovered _ := none
  height _ := 0
  depth _ := 0
  type_of_lookup := by
    intro v name next h
    cases v with
    | false => rfl
    | true => cases h
  type_of_mounted _ _ h := by cases h
  height_lt _ _ h := by cases h
  depth_lt _ _ h := by cases h

theorem lookup_balanced_nofollow :
    (∀ v, (clear (V := Bool) 1).locked v = false) ∧
      ∃ s', vfsLookupPath 1 (some ['a']) none ⟨false, true⟩ false danglingLink (clear 1) =
        .ok (.ok (true, none), s') ∧ Balanced (clear 1) s' none (.ok (true, none)) := by
  refine ⟨fun _ => rfl, _, rfl, ?_⟩
  exact (lookup_balanced danglingLink 1 (some ['a']) none ⟨false, true⟩ false (clear 1) _ _
    (fun _ => rfl) rfl).mpr (by decide)

/-- The failing lookup of a dangling symlink keeps a reference to the directory it is in. -/
theorem lookup_leaks_directory :
    ¬ ∀ (tree : Tree Bool) (n : ℕ) (path : Option Name) (cwd : Option Bool) (flags : Flags)
      (wantLast : Bool) (s s' : Refs Bool) (r : Except Status (Bool × Option Name)),
      (∀ v, s.locked v = false) →
      vfsLookupPath n path cwd flags wantLast tree s = .ok (r, s') → Balanced s s' cwd r := by
  intro h
  obtain ⟨s', hrun, hleak⟩ : ∃ s', vfsLookupPath 2 (some ['a']) none ⟨false, false⟩ false
      danglingLink (clear 1) = .ok (.error .noent, s') ∧ s'.refcnt false = 2 :=
    ⟨_, rfl, by decide⟩
  have hbal := congrFun (h _ _ _ _ _ _ _ _ _ (fun _ => rfl) hrun).refcnt false
  have hsum : s'.refcnt false + 0 = 1 + 0 := hbal
  omega

end Vfs
