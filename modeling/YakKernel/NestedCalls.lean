/-
# Recursion through nested calls

The body of a recursive procedure asks for the answers of other calls, one after the other, and
goes on with each of them.  A call that may nest `n` deep has an answer or runs out of depth.  When
only finitely many calls are ever asked for, it has an answer at some depth exactly when no call
that it leads to asks for itself.
-/
import Mathlib.Data.Set.Card
import Mathlib.Logic.Relation
import Mathlib.Tactic

namespace NestedCalls

variable {C A : Type*}

/-! ## Bodies -/

/-- The rest of a body: it is done, or asks for the answer of a call. -/
inductive Body (C A : Type*) where
  | done (a : A)
  | ask (c : C) (k : A → Body C A)

/-- The answer of a body, given those of the calls. -/
def Body.eval (answer : C → Option A) : Body C A → Option A
  | done a => some a
  | ask c k => (answer c).bind (fun a => (k a).eval answer)

/-- First one body, then another. -/
def Body.andThen : Body C A → (A → Body C A) → Body C A
  | done a, f => f a
  | ask c k, f => ask c (fun a => (k a).andThen f)

/-- A call, nested at most `n` deep. -/
def call (body : C → Body C A) : ℕ → C → Option A
  | 0, _ => none
  | n + 1, c => (body c).eval (call body n)

/-- The body asks for the call, when the calls have these answers. -/
inductive Body.Asks (answers : C → A → Prop) : Body C A → C → Prop
  | now {c : C} {k : A → Body C A} : Asks answers (ask c k) c
  | later {c c' : C} {a : A} {k : A → Body C A} (h : answers c a) (h' : Asks answers (k a) c') :
      Asks answers (ask c k) c'

/-- The answer of a call, at some depth. -/
def Answers (body : C → Body C A) (c : C) (a : A) : Prop := ∃ n, call body n c = some a

/-- One call asks for another. -/
def Asks (body : C → Body C A) (c c' : C) : Prop := (body c).Asks (Answers body) c'

variable {body : C → Body C A} {answer answer' : C → Option A} {answers : C → A → Prop}
  {x : Body C A} {f : A → Body C A} {c c' : C} {a b : A} {m n : ℕ}

theorem Body.eval_andThen (x : Body C A) (f : A → Body C A) :
    (x.andThen f).eval answer = (x.eval answer).bind (fun a => (f a).eval answer) := by
  induction x with
  | done a => rfl
  | ask c k ih =>
    simp only [Body.andThen, Body.eval, Option.bind_assoc]
    exact Option.bind_congr (fun a _ => ih a)

theorem Body.Asks.of_andThen (h : (x.andThen f).Asks answers c) :
    x.Asks answers c ∨ ∃ a, (f a).Asks answers c := by
  induction x with
  | done a => exact Or.inr ⟨a, h⟩
  | ask c₁ k ih =>
    cases h with
    | now => exact Or.inl .now
    | later ha h' =>
      rcases ih _ h' with hk | hf
      · exact Or.inl (.later ha hk)
      · exact Or.inr hf

/-! ## More depth -/

theorem Body.eval_mono (h : ∀ c a, answer c = some a → answer' c = some a)
    (hx : x.eval answer = some a) : x.eval answer' = some a := by
  induction x with
  | done b => exact hx
  | ask c k ih =>
    obtain ⟨b, hb, hk⟩ := Option.bind_eq_some_iff.mp hx
    exact Option.bind_eq_some_iff.mpr ⟨b, h c b hb, ih b hk⟩

theorem call_succ (h : call body n c = some a) : call body (n + 1) c = some a := by
  induction n generalizing c a with
  | zero => cases h
  | succ n ih => exact Body.eval_mono (fun _ _ => ih) h

/-- **More depth gives the same answer.** -/
theorem call_mono (hnm : n ≤ m) (h : call body n c = some a) : call body m c = some a := by
  induction m, hnm using Nat.le_induction with
  | base => exact h
  | succ m _ ih => exact call_succ ih

theorem Answers.unique (h : Answers body c a) (h' : Answers body c b) : a = b := by
  obtain ⟨n, hn⟩ := h
  obtain ⟨m, hm⟩ := h'
  rcases le_total n m with hle | hle
  · exact Option.some.inj ((call_mono hle hn).symm.trans hm)
  · exact Option.some.inj (hn.symm.trans (call_mono hle hm))

/-! ## Calls that are asked for -/

theorem call_of_asks (h : call body (n + 1) c = some a) (hasks : Asks body c c') :
    ∃ b, call body n c' = some b := by
  have hbody : ∀ x : Body C A, x.eval (call body n) = some a → x.Asks (Answers body) c' →
      ∃ b, call body n c' = some b := by
    intro x hx hasks
    induction x with
    | done b => cases hasks
    | ask c₁ k ih =>
      obtain ⟨b, hb, hk⟩ := Option.bind_eq_some_iff.mp hx
      cases hasks with
      | now => exact ⟨b, hb⟩
      | later hb' h' =>
        rw [Answers.unique hb' ⟨n, hb⟩] at h'
        exact ih b hk h'
  exact hbody _ h hasks

theorem exists_asks (h : call body (n + 1) c = none) :
    ∃ c', Asks body c c' ∧ call body n c' = none := by
  have hbody : ∀ x : Body C A, x.eval (call body n) = none →
      ∃ c', x.Asks (Answers body) c' ∧ call body n c' = none := by
    intro x hx
    induction x with
    | done b => cases hx
    | ask c₁ k ih =>
      cases hc : call body n c₁ with
      | none => exact ⟨c₁, .now, hc⟩
      | some b =>
        rw [Body.eval, hc] at hx
        obtain ⟨c', hasks, hnone⟩ := ih b hx
        exact ⟨c', .later ⟨n, hc⟩ hasks, hnone⟩
  exact hbody _ h

/-- **A chain of nested calls**, as long as the depth that did not suffice. -/
theorem exists_chain (h : call body n c = none) :
    ∃ f : ℕ → C, f 0 = c ∧ ∀ i, i < n → Asks body (f i) (f (i + 1)) := by
  induction n generalizing c with
  | zero => exact ⟨fun _ => c, rfl, fun i hi => absurd hi (Nat.not_lt_zero i)⟩
  | succ n ih =>
    obtain ⟨c', hasks, hnone⟩ := exists_asks h
    obtain ⟨f, hf, hchain⟩ := ih hnone
    refine ⟨fun i => Nat.casesOn i c f, rfl, ?_⟩
    intro i hi
    cases i with
    | zero =>
      show Asks body c (f 0)
      rw [hf]
      exact hasks
    | succ i => exact hchain i (by omega)

/-! ## Calls that come back to themselves -/

/-- The call leads to one that asks, through others, for itself. -/
def Loops (body : C → Body C A) (c : C) : Prop :=
  ∃ c', Relation.ReflTransGen (Asks body) c c' ∧ Relation.TransGen (Asks body) c' c'

/-- A call with an answer leads to calls with answers, and less deep ones through others. -/
theorem call_of_transGen (h : Relation.TransGen (Asks body) c c') :
    ∀ n a, call body n c = some a → ∃ m b, m < n ∧ call body m c' = some b := by
  induction h with
  | single hasks =>
    intro n a hn
    cases n with
    | zero => cases hn
    | succ n =>
      obtain ⟨b, hb⟩ := call_of_asks hn hasks
      exact ⟨n, b, by omega, hb⟩
  | tail _ hasks ih =>
    intro n a hn
    obtain ⟨m, b, hm, hb⟩ := ih n a hn
    cases m with
    | zero => cases hb
    | succ m =>
      obtain ⟨b', hb'⟩ := call_of_asks hb hasks
      exact ⟨m, b', by omega, hb'⟩

theorem call_of_cycle (h : Relation.TransGen (Asks body) c c) (n : ℕ) : call body n c = none := by
  induction n using Nat.strong_induction_on with
  | _ n ih =>
    by_contra hne
    obtain ⟨a, ha⟩ := Option.ne_none_iff_exists'.mp hne
    obtain ⟨m, b, hm, hb⟩ := call_of_transGen h n a ha
    rw [ih m hm] at hb
    cases hb

theorem Loops.call_eq_none (h : Loops body c) (n : ℕ) : call body n c = none := by
  obtain ⟨c', hreach, hcycle⟩ := h
  by_contra hne
  obtain ⟨a, ha⟩ := Option.ne_none_iff_exists'.mp hne
  rcases Relation.reflTransGen_iff_eq_or_transGen.mp hreach with rfl | htrans
  · rw [call_of_cycle hcycle] at ha
    cases ha
  · obtain ⟨m, b, _, hb⟩ := call_of_transGen htrans n a ha
    rw [call_of_cycle hcycle] at hb
    cases hb

theorem transGen_of_chain {f : ℕ → C} (hchain : ∀ i, i < n → Asks body (f i) (f (i + 1)))
    {i j : ℕ} (hij : i < j) (hj : j ≤ n) : Relation.TransGen (Asks body) (f i) (f j) := by
  induction j, hij using Nat.le_induction with
  | base => exact .single (hchain i (by omega))
  | succ j hj' ih => exact .tail (ih (by omega)) (hchain j (by omega))

/-- **Answers of calls.**  When only calls of a finite set are ever asked for, one nested call more
than there are calls is deep enough, unless the call loops. -/
theorem call_eq_none_iff {S : Set C} (hS : S.Finite) (hasks : ∀ c c', Asks body c c' → c' ∈ S)
    (hn : S.ncard < n) (c : C) : call body n c = none ↔ Loops body c := by
  refine ⟨fun h => ?_, fun h => h.call_eq_none n⟩
  obtain ⟨f, rfl, hchain⟩ := exists_chain h
  have hmaps : ∀ i ∈ Finset.Icc 1 n, f i ∈ hS.toFinset := by
    intro i hi
    obtain ⟨h1, hle⟩ := Finset.mem_Icc.mp hi
    obtain ⟨j, rfl⟩ := Nat.exists_eq_add_of_le' h1
    exact hS.mem_toFinset.mpr (hasks _ _ (hchain j (by omega)))
  have hcard : hS.toFinset.card < (Finset.Icc 1 n).card := by
    rw [← Set.ncard_eq_toFinset_card S hS, Nat.card_Icc]
    omega
  obtain ⟨i, hi, j, hj, hne, heq⟩ :=
    Finset.exists_ne_map_eq_of_card_lt_of_maps_to hcard hmaps
  have hi' := (Finset.mem_Icc.mp hi).2
  have hj' := (Finset.mem_Icc.mp hj).2
  have hreach : ∀ l, l ≤ n → Relation.ReflTransGen (Asks body) (f 0) (f l) := by
    intro l hl
    rcases Nat.eq_zero_or_pos l with rfl | hpos
    · exact .refl
    · exact (transGen_of_chain hchain hpos hl).to_reflTransGen
  rcases Nat.lt_or_gt_of_ne hne with hlt | hlt
  · have hcycle := transGen_of_chain hchain hlt hj'
    rw [← heq] at hcycle
    exact ⟨f i, hreach i hi', hcycle⟩
  · have hcycle := transGen_of_chain hchain hlt hi'
    rw [heq] at hcycle
    exact ⟨f j, hreach j hj', hcycle⟩

end NestedCalls
