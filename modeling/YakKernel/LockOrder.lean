/-
# Lock orders

Threads that run lists of lock operations.  When every thread locks in the order of the levels,
above all that it holds, no threads wait for each other in a circle.  `leave` marks a place from
which on a thread does not keep to the order.
-/
import YakKernel.Roster
import Mathlib.Logic.Relation
import Mathlib.Order.Defs.PartialOrder

/-- What a thread does to the locks. -/
inductive LockOp (V : Type*)
  | lock (v : V)
  | unlock (v : V)
  | leave
  deriving DecidableEq, Repr

namespace LockOrder

open Function

variable {T V L : Type*}

/-- The owners of the locks, and what the threads are still to do. -/
structure State (T V : Type*) where
  owner : V → Option T
  todo : T → List (LockOp V)

/-- A thread waits for a lock that another one owns. -/
def Waits (s : State T V) (t u : T) : Prop :=
  ∃ v rest, s.todo t = .lock v :: rest ∧ s.owner v = some u

theorem waits_of_head? {s : State T V} {t u : T} {v : V} (h : (s.todo t).head? = some (.lock v))
    (howner : s.owner v = some u) : Waits s t u := by
  obtain ⟨rest, hrest⟩ := List.head?_eq_some_iff.1 h
  exact ⟨v, rest, hrest, howner⟩

section Steps

variable [DecidableEq T] [DecidableEq V]

/-- The next operation of a thread, unless it has to wait. -/
def step (s : State T V) (t : T) : Option (State T V) :=
  match s.todo t with
  | [] => none
  | .lock v :: rest =>
    if s.owner v = none then
      some { owner := update s.owner v (some t), todo := update s.todo t rest }
    else none
  | .unlock v :: rest => some { owner := update s.owner v none, todo := update s.todo t rest }
  | .leave :: rest => some { s with todo := update s.todo t rest }

end Steps

/-! ## Locking in order -/

section Ascends

variable [DecidableEq V] [Preorder L]

/-- From the locks in `held` on, the operations lock upwards only and unlock what is held, up to the
place where they leave the order or to the end, where `Q` holds of the locks that are left. -/
def Ascends (level : V → L) : List V → List (LockOp V) → (List V → Prop) → Prop
  | held, [], Q => Q held
  | held, .lock v :: ops, Q =>
    (∀ w ∈ held, level w < level v) ∧ Ascends level (v :: held) ops Q
  | held, .unlock v :: ops, Q => v ∈ held ∧ Ascends level (held.erase v) ops Q
  | _, .leave :: _, _ => True

variable {level : V → L} {held : List V} {ops ops' : List (LockOp V)} {Q Q' : List V → Prop}

theorem ascends_append : Ascends level held (ops ++ ops') Q ↔
    Ascends level held ops (fun held' => Ascends level held' ops' Q) := by
  induction ops generalizing held with
  | nil => exact Iff.rfl
  | cons op ops ih =>
    cases op with
    | lock v => exact and_congr_right fun _ => ih
    | unlock v => exact and_congr_right fun _ => ih
    | leave => exact Iff.rfl

theorem Ascends.imp (h : Ascends level held ops Q) (hQ : ∀ held', Q held' → Q' held') :
    Ascends level held ops Q' := by
  induction ops generalizing held with
  | nil => exact hQ held h
  | cons op ops ih =>
    cases op with
    | lock v => exact ⟨h.1, ih h.2⟩
    | unlock v => exact ⟨h.1, ih h.2⟩
    | leave => trivial

end Ascends

/-! ## No circles -/

section Ordered

variable [DecidableEq V] [Preorder L]

/-- Every thread keeps to the order in what it is still to do, and gives its locks back. -/
def Ordered (level : V → L) (s : State T V) : Prop :=
  ∃ held : T → List V, Roster.Lists s.owner held ∧
    ∀ t, Ascends level (held t) (s.todo t) (fun held' => held' = [])

variable {level : V → L} {s s' : State T V} {t u : T}

theorem Ordered.level_lt (h : Ordered level s) (hchain : Relation.TransGen (Waits s) t u) :
    ∀ v rest w rest', s.todo t = .lock v :: rest → s.todo u = .lock w :: rest' →
      level v < level w := by
  obtain ⟨held, hlists, hascends⟩ := h
  -- a thread that waits for `w` holds locks below `w` only
  have hwait : ∀ t u v rest w rest', s.todo t = .lock v :: rest → s.owner v = some u →
      s.todo u = .lock w :: rest' → level v < level w := by
    intro t u v rest w rest' _ howner hu
    have hu' := hascends u
    rw [hu] at hu'
    exact hu'.1 v (hlists.mem_list_iff.2 howner)
  induction hchain with
  | single hstep =>
    intro v rest w rest' ht hu
    obtain ⟨v', rest'', ht', howner⟩ := hstep
    rw [ht, List.cons.injEq, LockOp.lock.injEq] at ht'
    exact hwait _ _ v rest w rest' ht (ht'.1 ▸ howner) hu
  | tail hchain hstep ih =>
    intro v rest w rest' ht hu
    obtain ⟨x, rest'', hx, howner⟩ := hstep
    exact lt_trans (ih v rest x rest'' ht hx) (hwait _ _ x rest'' w rest' hx howner hu)

/-- **No circle of threads waits.** -/
theorem Ordered.not_transGen_waits (h : Ordered level s) (t : T) :
    ¬ Relation.TransGen (Waits s) t t := by
  intro hcircle
  obtain ⟨u, ⟨v, rest, ht, -⟩, -⟩ := Relation.TransGen.head'_iff.1 hcircle
  exact lt_irrefl _ (h.level_lt hcircle v rest v rest ht ht)

variable [DecidableEq T]

omit [DecidableEq T] in
theorem Ordered.init : Ordered level { owner := fun _ : V => none, todo := fun _ : T => [] } :=
  ⟨fun _ => [], Roster.Lists.empty, fun _ => rfl⟩

theorem Ordered.start (h : Ordered level s) (ht : s.todo t = []) {ops : List (LockOp V)}
    (hops : Ascends level [] ops (fun held => held = [])) :
    Ordered level { s with todo := update s.todo t ops } := by
  obtain ⟨held, hlists, hascends⟩ := h
  refine ⟨held, hlists, fun u => ?_⟩
  by_cases hut : u = t
  · subst hut
    have hnone := hascends u
    rw [ht] at hnone
    have hheld : held u = [] := hnone
    simp only [update_self]
    rw [hheld]
    exact hops
  · simp only [update_of_ne hut]
    exact hascends u

theorem Ordered.step (h : Ordered level s) (hleave : ∀ rest, s.todo t ≠ .leave :: rest)
    (hs : step s t = some s') : Ordered level s' := by
  obtain ⟨held, hlists, hascends⟩ := h
  have ht := hascends t
  -- the other threads have what they had
  have hother : ∀ (f : List V) rest, Ascends level f rest (fun held' => held' = []) → ∀ u,
      Ascends level (update held t f u) (update s.todo t rest u) (fun held' => held' = []) := by
    intro f rest hrest u
    by_cases hut : u = t
    · subst hut
      rw [update_self, update_self]
      exact hrest
    · rw [update_of_ne hut, update_of_ne hut]
      exact hascends u
  unfold LockOrder.step at hs
  split at hs
  · simp at hs
  · next v rest htodo =>
    rw [htodo] at ht
    split at hs
    · next hfree =>
      rw [Option.some.injEq] at hs
      subst hs
      exact ⟨update held t (v :: held t), hlists.insert hfree, hother _ _ ht.2⟩
    · simp at hs
  · next v rest htodo =>
    rw [htodo] at ht
    rw [Option.some.injEq] at hs
    subst hs
    exact ⟨update held t ((held t).erase v), hlists.remove (hlists.mem_list_iff.1 ht.1),
      hother _ _ ht.2⟩
  · next rest htodo => exact absurd htodo (hleave rest)

end Ordered

end LockOrder
