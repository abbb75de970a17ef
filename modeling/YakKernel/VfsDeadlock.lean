/-
# Lookups that wait for each other

A lookup locks the next vnode before it unlocks the one that it comes from.  Downwards this keeps to
an order; on the way up, by `..`, it does not, and then a lookup on its way down can wait for one on
its way up that waits for it.
-/
import YakKernel.VfsLocks

namespace Vfs.Locks

open Prog Traced TransitionSystem

variable {V : Type} [DecidableEq V] {α β : Type} {tree : Tree V}

/-! ## The code does what the traces say -/

/-- What an operation does to the locks of the thread. -/
def apply (locked : V → Bool) : LockOp V → V → Bool
  | .lock v => Function.update locked v true
  | .unlock v => Function.update locked v false
  | .leave => locked

/-- When the program returns, the trace says what, and what is locked then. -/
def Traces (tree : Tree V) (x : VfsM V α) (y : Traced V α) : Prop :=
  ∀ s, x.Ends tree s (fun a s' => y.2 = some a ∧ s'.locked = y.1.foldl apply s.locked)
    (fun _ => True)

theorem Traces.bind {x : VfsM V α} {y : Traced V α} {f : α → VfsM V β}
    {g : α → Traced V β} (hx : Traces tree x y) (hf : ∀ a, Traces tree (f a) (g a)) :
    Traces tree (x >>= f) (y >>= g) := by
  intro s
  rw [ends_bind]
  refine (hx s).imp ?_
  rintro a s' ⟨hresult, hlocked⟩
  refine (hf a s').imp ?_
  rintro b s'' ⟨hresult', hlocked'⟩
  rw [bind_of_some hresult]
  exact ⟨hresult', by rw [List.foldl_append, ← hlocked, hlocked']⟩

theorem Traces.iteBind {p : Prop} [Decidable p] {x₁ x₂ : VfsM V α} {y₁ y₂ : Traced V α}
    {f : α → VfsM V β} {g : α → Traced V β} (h₁ : Traces tree x₁ y₁) (h₂ : Traces tree x₂ y₂)
    (hf : ∀ a, Traces tree (f a) (g a)) :
    Traces tree (if p then x₁ >>= f else x₂ >>= f) (if p then y₁ >>= g else y₂ >>= g) := by
  by_cases hp : p
  · rw [if_pos hp, if_pos hp]
    exact h₁.bind hf
  · rw [if_neg hp, if_neg hp]
    exact h₂.bind hf

theorem Traces.skip {x : VfsM V α} {f : α → VfsM V β} {y : Traced V β} {a : α}
    (hx : Traces tree x (pure a)) (hf : Traces tree (f a) y) : Traces tree (x >>= f) y := by
  intro s
  rw [ends_bind]
  refine (hx s).imp ?_
  rintro b s' ⟨hresult, hlocked⟩
  obtain rfl : a = b := Option.some.inj hresult
  have hs := hf s'
  rw [hlocked] at hs
  exact hs

theorem Traces.then {x : VfsM V α} {f : α → VfsM V α} {y : Traced V α} (hx : Traces tree x y)
    (hf : ∀ a, Traces tree (f a) (pure a)) : Traces tree (x >>= f) y := by
  rw [← bind_pure_right y]
  exact hx.bind hf

theorem Traces.leave {x : VfsM V α} {y : Traced V α} (h : Traces tree x y) :
    Traces tree x (Traced.leave >>= fun _ => y) := h

/-- Names lead down or to the directory itself, and the root is a directory. -/
structure LeadsDown {L : Type*} [Preorder L] (tree : Tree V) (level : V → L) :
    Prop where
  type_root : tree.type tree.rootNode = .vdir
  level_lookup : ∀ v name next, name ≠ ['.', '.'] → tree.lookup v name = .ok next →
    next = v ∨ level v < level next

variable {L : Type*} [Preorder L] {level : V → L} {held : List V} {Q : α → List V → Prop}

theorem LeadsDown.type_resolve_root (h : LeadsDown tree level) :
    tree.type (tree.resolve tree.rootNode) = .vdir := by
  by_cases hroot : tree.resolve tree.rootNode = tree.rootNode
  · rw [hroot]
    exact h.type_root
  · exact tree.type_resolve _ tree.rootNode le_rfl hroot

/-- From the locks in `held` on, the program locks upwards only; `Q` holds of its result and of
the locks that are left. -/
def Keeps (level : V → L) (held : List V) (y : Traced V α) (Q : α → List V → Prop) : Prop :=
  LockOrder.Ascends level held y.1 fun held' =>
    match y.2 with
    | some a => Q a held'
    | none => held' = []

theorem keeps_pure {a : α} (h : Q a held) : Keeps level held (pure a) Q := h

theorem Keeps.bind {y : Traced V β} {f : β → Traced V α}
    (h : Keeps level held y fun b held' => Keeps level held' (f b) Q) :
    Keeps level held (y >>= f) Q := by
  obtain ⟨ops, result⟩ := y
  cases result with
  | none => exact h
  | some b => exact LockOrder.ascends_append.2 h

theorem Keeps.imp {Q' : α → List V → Prop} {y : Traced V α} (h : Keeps level held y Q)
    (hQ : ∀ a held', Q a held' → Q' a held') : Keeps level held y Q' := by
  refine LockOrder.Ascends.imp h fun held' hheld => ?_
  obtain ⟨ops, result⟩ := y
  cases result with
  | none => exact hheld
  | some a => exact hQ a held' hheld

theorem Keeps.iteBind {p : Prop} [Decidable p] {x₁ x₂ : Traced V β} {f : β → Traced V α}
    {R : β → List V → Prop} (h₁ : Keeps level held x₁ R) (h₂ : Keeps level held x₂ R)
    (hf : ∀ b held', R b held' → Keeps level held' (f b) Q) :
    Keeps level held (if p then x₁ >>= f else x₂ >>= f) Q := by
  by_cases hp : p
  · rw [if_pos hp]
    exact Keeps.bind (h₁.imp hf)
  · rw [if_neg hp]
    exact Keeps.bind (h₂.imp hf)

theorem keeps_lock {v : V} {Q : Unit → List V → Prop} (hlt : ∀ w ∈ held, level w < level v)
    (h : Q () (v :: held)) : Keeps level held (lock v) Q := ⟨hlt, h⟩

theorem keeps_unlock {v : V} {Q : Unit → List V → Prop} (hv : v ∈ held)
    (h : Q () (held.erase v)) : Keeps level held (unlock v) Q := ⟨hv, h⟩

theorem keeps_leave (f : Unit → Traced V α) : Keeps level held (Traced.leave >>= f) Q := trivial

theorem keeps_unlock_pure {v : V} {a : α} (h : Q a []) :
    Keeps level [v] (unlock v >>= fun _ => pure a) Q := by
  refine Keeps.bind (keeps_unlock (List.mem_singleton_self v) (keeps_pure ?_))
  rw [List.erase_cons_head]
  exact h

theorem keeps_move {v w : V} : Keeps level [v]
    (do
      unlock v
      lock w
      pure w) (fun out held => held = [out]) := by
  refine Keeps.bind (keeps_unlock (List.mem_singleton_self v) (Keeps.bind ?_))
  rw [List.erase_cons_head]
  exact keeps_lock (by simp) (keeps_pure rfl)

theorem keeps_stepUp (current : V) :
    Keeps level [current] (stepUp tree current) (fun out held => held = [out]) := by
  unfold stepUp
  cases tree.nodeCovered current with
  | none => exact keeps_pure rfl
  | some covered =>
    by_cases hup : tree.resolveUpward current ≠ current
    · simp only [if_pos hup]
      exact keeps_move
    · simp only [if_neg hup]
      exact keeps_pure rfl

theorem keeps_crossMounts {current next : V} (h : next = current ∨ level current < level next) :
    Keeps level [current] (crossMounts tree current next) (fun out held => held = [out]) := by
  have hresolve : Keeps level [next]
      (if next ≠ tree.resolve next then do
        unlock next
        lock (tree.resolve next)
        pure (tree.resolve next)
      else pure next) (fun out held => held = [out]) := by
    by_cases hmount : next ≠ tree.resolve next
    · rw [if_pos hmount]
      exact keeps_move
    · rw [if_neg hmount]
      exact keeps_pure rfl
  unfold crossMounts
  by_cases hne : current ≠ next
  · rw [if_pos hne]
    -- both are locked for a moment
    refine Keeps.bind (keeps_lock ?_ (Keeps.bind (keeps_unlock (by simp) ?_)))
    · intro w hw
      rw [List.mem_singleton] at hw
      subst hw
      exact h.resolve_left (Ne.symm hne)
    · rw [List.erase_cons_tail (by simpa using Ne.symm hne), List.erase_cons_head]
      exact hresolve
  · rw [if_neg hne]
    obtain rfl := not_not.1 hne
    exact hresolve

/-- The locks of a caller: that of the result. -/
def resultLocks : Except Status V → List V
  | .ok out => [out]
  | .error _ => []

theorem keeps_followLink {follow : Name → V → Traced V (Except Status V)}
    (hfollow : ∀ dest w, Keeps level [] (follow dest w) (fun r held => held = resultLocks r))
    (current next : V) :
    Keeps level [next] (followLink tree follow current next)
      (fun r held => held = resultLocks r) := by
  unfold followLink
  refine Keeps.bind (keeps_unlock (List.mem_singleton_self next) ?_)
  rw [List.erase_cons_head]
  cases tree.readlink next with
  | error e => exact keeps_pure rfl
  | ok dest => exact hfollow dest _

theorem keeps_crossAndFollow {follow : Name → V → Traced V (Except Status V)}
    (hfollow : ∀ dest w, Keeps level [] (follow dest w) (fun r held => held = resultLocks r))
    (flags : Flags) {current next : V} (isLast : Bool)
    (h : next = current ∨ level current < level next) :
    Keeps level [current]
      (do
        let next ← crossMounts tree current next
        if tree.type next = .vlnk ∧ ¬ (isLast ∧ flags.nofollow) then
          followLink tree follow current next
        else pure (.ok next)) (fun r held => held = resultLocks r) := by
  refine Keeps.bind ((keeps_crossMounts h).imp fun next held hheld => ?_)
  subst hheld
  by_cases hlink : tree.type next = .vlnk ∧ ¬ (isLast ∧ flags.nofollow)
  · rw [if_pos hlink]
    exact keeps_followLink hfollow current next
  · rw [if_neg hlink]
    exact keeps_pure rfl

theorem keeps_lookupComp (htree : LeadsDown tree level)
    {follow : Name → V → Traced V (Except Status V)}
    (hfollow : ∀ dest w, Keeps level [] (follow dest w) (fun r held => held = resultLocks r))
    (flags : Flags) (current : V) (comp : Name) (isLast : Bool) :
    Keeps level [current] (lookupComp tree follow flags current comp isLast)
      (fun r held => held = resultLocks r) := by
  unfold lookupComp
  by_cases hroot : comp = ['.', '.'] ∧ tree.resolve tree.rootNode = current
  · rw [if_pos hroot]
    exact keeps_pure rfl
  · rw [if_neg hroot]
    refine Keeps.iteBind (keeps_stepUp current) (keeps_pure rfl) fun current held hheld => ?_
    subst hheld
    beta_reduce
    cases hnext : tree.lookup current comp with
    | error e => exact keeps_unlock_pure rfl
    | ok next =>
      by_cases hup : comp = ['.', '.'] ∧ current ≠ next
      · simp only [if_pos hup]
        exact keeps_leave _
      · simp only [if_neg hup]
        refine keeps_crossAndFollow hfollow flags isLast ?_
        -- what is found is below the directory, or the directory itself
        by_cases hdots : comp = ['.', '.']
        · exact Or.inl (not_not.1 fun hne => hup ⟨hdots, Ne.symm hne⟩)
        · exact htree.level_lookup current comp next hdots hnext

/-- The locks of a caller that also gets the last component. -/
def outLocks : Except Status (V × Option Name) → List V
  | .ok (out, _) => [out]
  | .error _ => []

theorem keeps_lookupComps (htree : LeadsDown tree level)
    {follow : Name → V → Traced V (Except Status V)}
    (hfollow : ∀ dest w, Keeps level [] (follow dest w) (fun r held => held = resultLocks r))
    (flags : Flags) (wantDir wantLast : Bool) : ∀ comps current,
    Keeps level [current] (lookupComps tree follow flags wantDir wantLast comps current)
      (fun r held => held = outLocks r) := by
  intro comps
  induction comps with
  | nil =>
    intro current
    exact keeps_unlock_pure rfl
  | cons comp comps ih =>
    intro current
    unfold lookupComps
    by_cases hdir : tree.type current ≠ .vdir
    · rw [if_pos hdir]
      exact keeps_unlock_pure rfl
    · rw [if_neg hdir]
      by_cases hparent : comps = [] ∧ flags.parent
      · rw [if_pos hparent]
        exact keeps_pure rfl
      · rw [if_neg hparent]
        refine Keeps.bind ((keeps_lookupComp htree hfollow flags current comp _).imp
          fun r held hheld => ?_)
        subst hheld
        cases r with
        | error e => exact keeps_pure rfl
        | ok next =>
          by_cases hlast : comps = []
          · simp only [if_pos hlast]
            by_cases hwant : wantDir ∧ tree.type next ≠ .vdir
            · rw [if_pos hwant]
              exact keeps_unlock_pure rfl
            · rw [if_neg hwant]
              exact keeps_pure rfl
          · simp only [if_neg hlast]
            exact ih next

/-- **A lookup locks upwards only**, unless `..` leads out of the directory it is looked up in. -/
theorem keeps_vfsLookupPath (htree : LeadsDown tree level) : ∀ n path cwd flags wantLast,
    Keeps level [] (vfsLookupPath tree n path cwd flags wantLast)
      (fun r held => held = outLocks r) := by
  intro n
  induction n with
  | zero =>
    intro path cwd flags wantLast
    exact rfl
  | succ n ih =>
    intro path cwd flags wantLast
    match path with
    | none => exact keeps_pure rfl
    | some [] => exact keeps_pure rfl
    | some (c :: cs) =>
      unfold vfsLookupPath
      refine Keeps.bind (keeps_lock (by simp) ?_)
      by_cases hslash : c :: cs = ['/']
      · have hdir : tree.type (startVnode tree (c :: cs) cwd) = .vdir := by
          rw [hslash]
          exact htree.type_resolve_root
        rw [if_pos hslash, if_pos hdir]
        exact keeps_pure rfl
      · rw [if_neg hslash]
        by_cases hdot : c :: cs = ['.']
        · rw [if_pos hdot]
          by_cases hdir : tree.type (startVnode tree (c :: cs) cwd) ≠ .vdir
          · rw [if_pos hdir]
            exact keeps_unlock_pure rfl
          · rw [if_neg hdir]
            exact keeps_pure rfl
        · rw [if_neg hdot]
          refine keeps_lookupComps htree (fun dest w => ?_) flags _ wantLast _ _
          refine Keeps.bind ((ih (some dest) (some w) ⟨false, false⟩ false).imp
            fun r held hheld => ?_)
          subst hheld
          refine keeps_pure ?_
          cases r with
          | error e => rfl
          | ok out => rfl

/-! ## Runs -/

/-- **The calls keep the order.** -/
theorem ascends_callOps (htree : LeadsDown tree level) (n : ℕ) (path : Option Name)
    (cwd : Option V) (flags : Flags) (wantLast : Bool) :
    LockOrder.Ascends level [] (callOps tree n path cwd flags wantLast)
      (fun held => held = []) := by
  unfold callOps
  rw [LockOrder.ascends_append]
  refine LockOrder.Ascends.imp (keeps_vfsLookupPath htree n path cwd flags wantLast)
    fun held hheld => ?_
  cases hresult : (vfsLookupPath tree n path cwd flags wantLast).2 with
  | none =>
    rw [hresult] at hheld
    exact hheld
  | some r =>
    rw [hresult] at hheld
    subst hheld
    cases r with
    | error e => exact rfl
    | ok out =>
      refine ⟨List.mem_singleton_self _, ?_⟩
      exact List.erase_cons_head ..

/-- No lookup of `..` goes from a directory to another vnode with the directory locked. -/
def InOrder (s : LockOrder.State ℕ V) : Event V → Prop
  | .call .. => True
  | .run t => (s.todo t).head? ≠ some .leave

instance (s : LockOrder.State ℕ V) (e : Event V) : Decidable (InOrder s e) :=
  match e with
  | .call .. => isTrue trivial
  | .run t => inferInstanceAs (Decidable ((s.todo t).head? ≠ some .leave))

theorem ordered_step (htree : LeadsDown tree level) {s s' : LockOrder.State ℕ V} {e : Event V}
    (h : LockOrder.Ordered level s) (hin : InOrder s e) (hs : step tree s e = some s') :
    LockOrder.Ordered level s' := by
  cases e with
  | call t n path cwd flags wantLast =>
    simp only [step] at hs
    by_cases hidle : s.todo t = []
    · rw [if_pos hidle, Option.some.injEq] at hs
      subst hs
      exact h.start hidle (ascends_callOps htree n path cwd flags wantLast)
    · rw [if_neg hidle] at hs
      simp at hs
  | run t =>
    refine h.step (t := t) (fun rest htodo => hin ?_) hs
    rw [htodo, List.head?_cons]

/-- **No deadlock.**  Lookups that do not go up by `..` with a directory locked never wait for each
other in a circle. -/
theorem no_deadlock (tree : Tree V) (level : V → L) (htree : LeadsDown tree level)
    (s : LockOrder.State ℕ V) (h : (system tree).ReachableUnder InOrder s) (t : ℕ) :
    ¬ Relation.TransGen (LockOrder.Waits s) t t := by
  have hordered : LockOrder.Ordered level s := by
    refine h.invariant ?_ fun s e s' hs hin hstep => ordered_step htree hs hin hstep
    intro s hinit
    have hs : s = _ := hinit
    rw [hs]
    exact LockOrder.Ordered.init
  exact hordered.not_transGen_waits t

omit [DecidableEq V] in
theorem tmpfsLookup_ok {type : V → VType} {children : V → Name → Option V} {v next : V}
    {name : Name} (h : tmpfsLookup type children v name = .ok next) :
    type v = .vdir ∧ children v name = some next := by
  unfold tmpfsLookup at h
  by_cases hdir : type v ≠ .vdir
  · rw [if_pos hdir] at h
    simp at h
  · rw [if_neg hdir] at h
    refine ⟨not_not.1 hdir, ?_⟩
    cases hchild : children v name with
    | none => simp [hchild] at h
    | some entry =>
      simp only [hchild, Except.ok.injEq] at h
      rw [h]

def nestedType (v : ℕ) : VType := if v ≤ 1 then .vdir else .vreg

def nestedChildren (v : ℕ) (name : Name) : Option ℕ :=
  if v = 0 ∧ name = ['a'] then some 1
  else if v = 1 ∧ name = ['b'] then some 2
  else if v = 1 ∧ name = ['.', '.'] then some 0
  else none

/-- A directory `a` in the root, and a file `b` in `a`. -/
def nested : Tree ℕ where
  rootNode := 0
  cwd := 0
  type := nestedType
  lookup := tmpfsLookup nestedType nestedChildren
  readlink := tmpfsReadlink nestedType (fun _ => []) (fun _ => false)
  mountedRoot _ := none
  nodeCovered _ := none
  height _ := 0
  depth _ := 0
  type_of_lookup _ _ _ h := (tmpfsLookup_ok h).1
  type_of_mounted _ _ h := by cases h
  height_lt _ _ h := by cases h
  depth_lt _ _ h := by cases h

theorem leadsDown_nested : LeadsDown nested id where
  type_root := rfl
  level_lookup := by
    intro v name next hname h
    have hchild : nestedChildren v name = some next := (tmpfsLookup_ok h).2
    right
    unfold nestedChildren at hchild
    by_cases ha : v = 0 ∧ name = ['a']
    · rw [if_pos ha, Option.some.injEq] at hchild
      rw [ha.1, ← hchild]
      exact Nat.zero_lt_one
    · rw [if_neg ha] at hchild
      by_cases hb : v = 1 ∧ name = ['b']
      · rw [if_pos hb, Option.some.injEq] at hchild
        rw [hb.1, ← hchild]
        exact Nat.one_lt_two
      · rw [if_neg hb, if_neg fun hup => hname hup.2] at hchild
        simp at hchild

/-- Two lookups of `a/b`, the second of which waits for the first. -/
theorem no_deadlock_two : LeadsDown nested id ∧ ∃ s : LockOrder.State ℕ ℕ,
    (system nested).ReachableUnder InOrder s ∧ LockOrder.Waits s 2 1 ∧
      ¬ Relation.TransGen (LockOrder.Waits s) 2 2 := by
  obtain ⟨s, hs, hwaits⟩ := exists_reachableUnder_of_runUnder (C := InOrder)
    (show (system nested).init _ from rfl)
    [.call 1 1 (some ['a', '/', 'b']) none ⟨false, false⟩ false,
      .call 2 1 (some ['a', '/', 'b']) none ⟨false, false⟩ false, .run 1]
    (fun s => decide ((s.todo 2).head? = some (.lock 0) ∧ s.owner 0 = some 1)) (by decide +kernel)
  obtain ⟨hhead, howner⟩ := of_decide_eq_true hwaits
  exact ⟨leadsDown_nested, s, hs, LockOrder.waits_of_head? hhead howner,
    no_deadlock nested id leadsDown_nested s hs 2⟩

/-- A lookup of `..` in `a` and one of `a` in the root wait for each other. -/
theorem dotdot_deadlocks : ¬ ∀ (tree : Tree ℕ) (level : ℕ → ℕ), LeadsDown tree level →
    ∀ s, (system tree).Reachable s → ∀ t, ¬ Relation.TransGen (LockOrder.Waits s) t t := by
  intro h
  obtain ⟨s, hs, hwaits⟩ := exists_reachable_of_run
    (show (system nested).init _ from rfl)
    [.call 1 1 (some ['.', '.']) (some 1) ⟨false, false⟩ false,
      .call 2 1 (some ['a']) (some 0) ⟨false, false⟩ false, .run 1, .run 2, .run 1]
    (fun s => decide ((s.todo 1).head? = some (.lock 0) ∧ s.owner 0 = some 2 ∧
      (s.todo 2).head? = some (.lock 1) ∧ s.owner 1 = some 1)) (by decide +kernel)
  obtain ⟨hup, howner, hdown, howner'⟩ := of_decide_eq_true hwaits
  refine h nested id leadsDown_nested s hs 1 ?_
  exact .tail (.single (LockOrder.waits_of_head? hup howner))
    (LockOrder.waits_of_head? hdown howner')

end Vfs.Locks
