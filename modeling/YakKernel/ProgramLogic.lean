/-
# Programs that may fail, and what holds when they end

A program `Prog E F S α` reads an environment `E`, transforms a state `S`, and ends with a
value of type `α` or with a failure.  `x.Ends env s Q R` says of the run of `x` from `s` that
it ends in a value and a state with `Q`, or in a failure with `R`: with `R` always true this
is partial correctness, with `R` always false it is total correctness.

The rules follow the structure of a program, so that `simp` computes with them, and the
specification of a callee is used through `Ends.mono`.
-/
import Mathlib.Tactic

/-- A program: it reads an environment, transforms a state, and returns or fails. -/
def Prog (E F S α : Type) := E → S → Except F (α × S)

namespace Prog

variable {E F S α β σ : Type}

/-! ## The constructs -/

instance : Monad (Prog E F S) where
  pure a := fun _ s => .ok (a, s)
  bind x f := fun env s =>
    match x env s with
    | .ok (a, s') => f a env s'
    | .error e => .error e

/-- The environment. -/
def getEnv : Prog E F S E := fun env s => .ok (env, s)

/-- The current state. -/
def getState : Prog E F S S := fun _ s => .ok (s, s)

/-- Change the state. -/
def change (f : S → S) : Prog E F S Unit := fun _ s => .ok ((), f s)

/-- Fail. -/
def fail (e : F) : Prog E F S α := fun _ _ => .error e

/-- An assertion: fail with `e` unless `c` holds. -/
def check (c : Prop) [Decidable c] (e : F) : Prog E F S Unit :=
  if c then pure () else fail e

/-- Run `f` on the value of an option, if it has one. -/
def ifSome (o : Option α) (f : α → Prog E F S Unit) : Prog E F S Unit :=
  match o with
  | some a => f a
  | none => pure ()

/-- Run `f` on every element of a list, from the first to the last. -/
def forEach (f : α → Prog E F S Unit) : List α → Prog E F S Unit
  | [] => pure ()
  | a :: l => do
    f a
    forEach f l

/-- Repeat `body`, which hands back the next loop state or the result; fail with `stuck`
when `fuel` rounds did not suffice. -/
def loop (body : σ → Prog E F S (σ ⊕ α)) (stuck : F) : ℕ → σ → Prog E F S α
  | 0, _ => fail stuck
  | fuel + 1, st => do
    match ← body st with
    | .inl st' => loop body stuck fuel st'
    | .inr a => pure a

/-! ## What holds at the end -/

/-- The run of `x` from `s` ends with `Q`, or fails with `R`. -/
def Ends (x : Prog E F S α) (env : E) (s : S) (Q : α → S → Prop) (R : F → Prop) : Prop :=
  match x env s with
  | .ok (a, s') => Q a s'
  | .error e => R e

variable {x : Prog E F S α} {env : E} {s : S} {Q Q' : α → S → Prop} {R R' : F → Prop}

/-- **Rule of consequence.** -/
theorem Ends.mono (h : x.Ends env s Q R) (hQ : ∀ a s', Q a s' → Q' a s')
    (hR : ∀ e, R e → R' e) : x.Ends env s Q' R' := by
  unfold Ends at *
  split at h
  · exact hQ _ _ h
  · exact hR _ h

theorem Ends.imp (h : x.Ends env s Q R) (hQ : ∀ a s', Q a s' → Q' a s') :
    x.Ends env s Q' R :=
  h.mono hQ (fun _ he => he)

theorem Ends.and (h : x.Ends env s Q R) (h' : x.Ends env s Q' R') :
    x.Ends env s (fun a s' => Q a s' ∧ Q' a s') (fun e => R e ∧ R' e) := by
  unfold Ends at *
  cases hx : x env s with
  | ok r =>
    rw [hx] at h h'
    exact ⟨h, h'⟩
  | error e =>
    rw [hx] at h h'
    exact ⟨h, h'⟩

theorem Ends.of_ok {a : α} {s' : S} (h : x.Ends env s Q R) (hx : x env s = .ok (a, s')) :
    Q a s' := by
  simpa only [Ends, hx] using h

theorem Ends.of_error {e : F} (h : x.Ends env s Q R) (hx : x env s = .error e) : R e := by
  simpa only [Ends, hx] using h

theorem Ends.exists_ok (h : x.Ends env s Q (fun _ => False)) :
    ∃ a s', x env s = .ok (a, s') ∧ Q a s' := by
  cases hx : x env s with
  | ok r => exact ⟨r.1, r.2, rfl, h.of_ok hx⟩
  | error e => exact (h.of_error hx).elim

theorem ends_of_ok {a : α} {s' : S} (hx : x env s = .ok (a, s')) :
    x.Ends env s Q R ↔ Q a s' := by
  simp only [Ends, hx]

theorem bind_of_ok {x : Prog E F S β} {f : β → Prog E F S α} {b : β} {s' : S}
    (hx : x env s = .ok (b, s')) : (x >>= f) env s = f b env s' := by
  simp only [bind, hx]

/-! ## The rules for the constructs -/

@[simp] theorem ends_pure {a : α} :
    (pure a : Prog E F S α).Ends env s Q R ↔ Q a s := Iff.rfl

@[simp] theorem ends_bind {x : Prog E F S β} {f : β → Prog E F S α} :
    (x >>= f).Ends env s Q R ↔ x.Ends env s (fun a s' => (f a).Ends env s' Q R) R := by
  unfold Ends
  show (match (match x env s with
      | .ok (a, s') => f a env s'
      | .error e => Except.error e) with
    | .ok (a, s') => Q a s'
    | .error e => R e) ↔ _
  cases x env s with
  | ok r => exact Iff.rfl
  | error e => exact Iff.rfl

@[simp] theorem ends_map {x : Prog E F S β} {f : β → α} :
    (f <$> x).Ends env s Q R ↔ x.Ends env s (fun b s' => Q (f b) s') R := by
  show (x >>= pure ∘ f).Ends env s Q R ↔ _
  rw [ends_bind]
  exact Iff.rfl

@[simp] theorem ends_getEnv {Q : E → S → Prop} :
    (getEnv : Prog E F S E).Ends env s Q R ↔ Q env s := Iff.rfl

@[simp] theorem ends_getState {Q : S → S → Prop} :
    (getState : Prog E F S S).Ends env s Q R ↔ Q s s := Iff.rfl

@[simp] theorem ends_change {f : S → S} {Q : Unit → S → Prop} :
    (change f : Prog E F S Unit).Ends env s Q R ↔ Q () (f s) := Iff.rfl

@[simp] theorem ends_fail {e : F} : (fail e : Prog E F S α).Ends env s Q R ↔ R e := Iff.rfl

theorem ends_ite {c : Prop} [Decidable c] {x y : Prog E F S α} :
    (if c then x else y).Ends env s Q R ↔
      (c → x.Ends env s Q R) ∧ (¬ c → y.Ends env s Q R) := by
  by_cases hc : c
  · simp [hc]
  · simp [hc]

@[simp] theorem ends_check {c : Prop} [Decidable c] {e : F} {Q : Unit → S → Prop} :
    (check c e : Prog E F S Unit).Ends env s Q R ↔ (c → Q () s) ∧ (¬ c → R e) := by
  rw [check, ends_ite]
  exact Iff.rfl

theorem ends_ifSome {o : Option β} {f : β → Prog E F S Unit} {Q : Unit → S → Prop} :
    (ifSome o f).Ends env s Q R ↔
      (∀ b, o = some b → (f b).Ends env s Q R) ∧ (o = none → Q () s) := by
  cases o with
  | none => simp [ifSome]
  | some b => simp [ifSome]

/-- **Rule for lists.**  What holds before the first element and is kept by every round
holds after the last; the invariant may speak of the elements still to come. -/
theorem Ends.forEach {f : α → Prog E F S Unit} {I : List α → S → Prop} {R : F → Prop} :
    ∀ (l : List α) {s : S}, I l s →
      (∀ a l s, I (a :: l) s → (f a).Ends env s (fun _ => I l) R) →
      (Prog.forEach f l).Ends env s (fun _ => I []) R := by
  intro l
  induction l with
  | nil =>
    intro s h _
    exact h
  | cons a l ih =>
    intro s h hround
    rw [Prog.forEach, ends_bind]
    exact (hround a l s h).imp (fun _ s' hs' => ih hs' hround)

/-- **Rule for loops.**  `I n st` says that `n` more rounds suffice from the loop state
`st`; a round that does not end the loop leaves one fewer. -/
theorem Ends.loop {body : σ → Prog E F S (σ ⊕ α)} {stuck : F} {I : ℕ → σ → S → Prop} :
    ∀ (fuel : ℕ) {st : σ} {s : S}, I fuel st s →
      (∀ st s, I 0 st s → R stuck) →
      (∀ n st s, I (n + 1) st s → (body st).Ends env s
        (fun r s' => match r with
          | .inl st' => I n st' s'
          | .inr a => Q a s') R) →
      (Prog.loop body stuck fuel st).Ends env s Q R := by
  intro fuel
  induction fuel with
  | zero =>
    intro st s h hstuck _
    exact hstuck st s h
  | succ n ih =>
    intro st s h hstuck hround
    rw [Prog.loop, ends_bind]
    refine (hround n st s h).imp ?_
    intro r s' hr
    cases r with
    | inl st' => exact ih hr hstuck hround
    | inr a => exact hr

end Prog
