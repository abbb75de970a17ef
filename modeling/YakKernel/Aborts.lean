/-
# Programs that are refused or go wrong

A program may end early because something it asks for is refused, with a status that it hands on,
or because it does something wrong.  What a program asks for may be refused at any time; the
environments that refuse nothing are the kind ones.  `Goes` says when a program is fine, that is
when it does nothing wrong, and when, being fine, it gets done in a kind environment.  The rules
follow the structure of a program, and `never_wrong_iff` reads off the result: a program does
nothing wrong, in whatever environment, exactly when it is fine.
-/
import YakKernel.ProgramLogic

namespace Prog

/-- Why a program ends early. -/
inductive Stop (R C : Type) where
  | refused (rv : R)
  | wrong (c : C)
  deriving DecidableEq

variable {E S R C α β : Type} {kind : E → Prop} {x y : Prog E (Stop R C) S α}
  {f : α → Prog E (Stop R C) S β} {fine done fine' done' : Prop} {post post' : α → Prop}

/-- **The ways a program ends**: with a result, only when it is fine and gets done; wrong, only
when it is not fine; refused, in a kind environment, only when it is fine and does not get done. -/
def Goes (kind : E → Prop) (x : Prog E (Stop R C) S α) (fine done : Prop) (post : α → Prop) :
    Prop :=
  ∀ env s, x.Ends env s (fun a _ => fine ∧ done ∧ post a)
    (fun e => (∀ c, e = .wrong c → ¬ fine) ∧ (∀ rv, e = .refused rv → kind env → fine ∧ ¬ done))

/-! ## The rules -/

theorem Goes.congr (h : Goes kind x fine done post) (hfine : fine ↔ fine')
    (hdone : fine → (done ↔ done')) (hpost : ∀ a, fine → done → post a → post' a) :
    Goes kind x fine' done' post' := by
  intro env s
  refine (h env s).mono ?_ ?_
  · rintro a _ ⟨hf, hd, hp⟩
    exact ⟨hfine.mp hf, (hdone hf).mp hd, hpost a hf hd hp⟩
  · rintro e ⟨hwrong, hrefused⟩
    refine ⟨fun c hc hf => hwrong c hc (hfine.mpr hf), fun rv hrv hk => ?_⟩
    obtain ⟨hf, hd⟩ := hrefused rv hrv hk
    exact ⟨hfine.mp hf, fun hd' => hd ((hdone hf).mpr hd')⟩

theorem Goes.pure {a : α} (h : post a) :
    Goes kind (Pure.pure a : Prog E (Stop R C) S α) True True post :=
  fun _ _ => ⟨trivial, trivial, h⟩

theorem Goes.any {a : α} :
    Goes kind (Pure.pure a : Prog E (Stop R C) S α) True True (fun _ => True) :=
  Goes.pure trivial

/-- **First one part, then another**, which has to be fine only if the first one gets done. -/
theorem Goes.bind {post' : β → Prop} (hx : Goes kind x fine done post)
    (hf : ∀ a, post a → Goes kind (f a) fine' done' post') :
    Goes kind (x >>= f) (fine ∧ (done → fine')) (done ∧ done') post' := by
  intro env s
  rw [ends_bind]
  refine (hx env s).mono ?_ ?_
  · rintro a s' ⟨hfine, hdone, hpost⟩
    refine (hf a hpost env s').mono ?_ ?_
    · rintro b _ ⟨hfine', hdone', hpost'⟩
      exact ⟨⟨hfine, fun _ => hfine'⟩, ⟨hdone, hdone'⟩, hpost'⟩
    · rintro e ⟨hwrong, hrefused⟩
      refine ⟨fun c hc h => hwrong c hc (h.2 hdone), fun rv hrv hk => ?_⟩
      obtain ⟨hfine', hnot⟩ := hrefused rv hrv hk
      exact ⟨⟨hfine, fun _ => hfine'⟩, fun h => hnot h.2⟩
  · rintro e ⟨hwrong, hrefused⟩
    refine ⟨fun c hc h => hwrong c hc h.1, fun rv hrv hk => ?_⟩
    obtain ⟨hfine, hnot⟩ := hrefused rv hrv hk
    exact ⟨⟨hfine, fun hdone => absurd hdone hnot⟩, fun h => hnot h.1⟩

theorem Goes.value {v : α} {post' : β → Prop} (hx : Goes kind x fine done (· = v))
    (hf : Goes kind (f v) fine' done' post') :
    Goes kind (x >>= f) (fine ∧ (done → fine')) (done ∧ done') post' := by
  refine hx.bind ?_
  rintro _ rfl
  exact hf

theorem Goes.check {c : Prop} [Decidable c] {e : C} :
    Goes (S := S) (R := R) kind (Prog.check c (.wrong e)) c True (fun _ => True) := by
  intro env s
  rw [ends_check]
  refine ⟨fun hc => ⟨hc, trivial, trivial⟩, fun hc => ⟨fun _ _ h => hc h, ?_⟩⟩
  rintro rv h
  cases h

theorem Goes.demand {c : Prop} [Decidable c] {rv : R} :
    Goes (S := S) (C := C) kind (Prog.check c (.refused rv)) True c (fun _ => True) := by
  intro env s
  rw [ends_check]
  refine ⟨fun hc => ⟨trivial, hc, trivial⟩, fun hc => ⟨?_, fun _ _ _ => ⟨trivial, hc⟩⟩⟩
  rintro e h
  cases h

theorem Goes.wrong {c : C} : Goes kind (fail (.wrong c) : Prog E (Stop R C) S α) False done post :=
  fun _ _ => ⟨fun _ _ h => h, fun _ h => (by cases h)⟩

theorem Goes.wrong_of {c : C} (h : ¬ fine) :
    Goes kind (fail (.wrong c) : Prog E (Stop R C) S α) fine done post :=
  fun _ _ => ⟨fun _ _ => h, fun _ hrv => (by cases hrv)⟩

theorem Goes.pure_of {a : α} (hfine : fine) (hdone : done) (h : post a) :
    Goes kind (Pure.pure a : Prog E (Stop R C) S α) fine done post :=
  fun _ _ => ⟨hfine, hdone, h⟩

theorem Goes.refused {rv : R} :
    Goes kind (fail (.refused rv) : Prog E (Stop R C) S α) True False post :=
  fun _ _ => ⟨fun _ h => (by cases h), fun _ _ _ => ⟨trivial, id⟩⟩

/-- `body 0`, `body 1` and so on, `n` rounds, with a loop state. -/
def upTo {F σ : Type} (body : ℕ → σ → Prog E F S σ) (init : σ) : ℕ → Prog E F S σ
  | 0 => Pure.pure init
  | n + 1 => do
    let st ← upTo body init n
    body n st

/-- **A counting loop**: a round has to be fine only if those before it get done. -/
theorem Goes.upTo {σ : Type} {body : ℕ → σ → Prog E (Stop R C) S σ} {init : σ}
    {fine done : ℕ → Prop} (inv : ℕ → σ → Prop) (h0 : inv 0 init)
    (hbody : ∀ i st, inv i st → Goes kind (body i st) (fine i) (done i) (inv (i + 1))) (n : ℕ) :
    Goes kind (Prog.upTo body init n) (∀ i, i < n → (∀ j, j < i → done j) → fine i)
      (∀ i, i < n → done i) (inv n) := by
  induction n with
  | zero =>
    refine (Goes.pure h0).congr (iff_of_true trivial ?_) (fun _ => iff_of_true trivial ?_)
      (fun _ _ _ h => h)
    · exact fun i hi => absurd hi (Nat.not_lt_zero i)
    · exact fun i hi => absurd hi (Nat.not_lt_zero i)
  | succ n ih =>
    refine (ih.bind (hbody n)).congr ?_ (fun _ => ?_) (fun _ _ _ h => h)
    · constructor
      · rintro ⟨hold, hnew⟩ i hi hdone
        rcases Nat.lt_succ_iff_lt_or_eq.mp hi with hlt | rfl
        · exact hold i hlt hdone
        · exact hnew hdone
      · intro h
        exact ⟨fun i hi => h i (Nat.lt_succ_of_lt hi), fun hdone => h n (Nat.lt_succ_self n) hdone⟩
    · constructor
      · rintro ⟨hold, hnew⟩ i hi
        rcases Nat.lt_succ_iff_lt_or_eq.mp hi with hlt | rfl
        · exact hold i hlt
        · exact hnew
      · intro h
        exact ⟨fun i hi => h i (Nat.lt_succ_of_lt hi), h n (Nat.lt_succ_self n)⟩

/-! ## The result -/

/-- **A program does nothing wrong exactly when it is fine.** -/
theorem Goes.never_wrong_iff (h : Goes kind x fine done post) (hkind : ∃ env, kind env)
    [Nonempty S] : (∀ env s c, x env s ≠ .error (.wrong c)) ↔ fine := by
  constructor
  · intro hnever
    obtain ⟨env, henv⟩ := hkind
    obtain ⟨s⟩ := ‹Nonempty S›
    cases hrun : x env s with
    | ok r => exact ((h env s).of_ok hrun).1
    | error e =>
      cases e with
      | refused rv => exact (((h env s).of_error hrun).2 rv rfl henv).1
      | wrong c => exact absurd hrun (hnever env s c)
  · intro hfine env s c hrun
    exact ((h env s).of_error hrun).1 c rfl hfine

end Prog
