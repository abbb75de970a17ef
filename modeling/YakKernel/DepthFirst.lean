/-
# Depth-first visits in the order of dependencies

A visit of a node first visits what the node depends on, in order, and then enters the node into
a log; a node in the log is not visited again.  Where no node depends on itself, a visit ends, and
the log stays without repetitions and in the order of the dependencies.
-/
import Mathlib.Data.Finset.Card
import Mathlib.Data.List.Nodup
import Mathlib.Logic.Relation
import Mathlib.Tactic.Cases

namespace DepthFirst

open Relation

/-! ## Logs -/

variable {N : Type*} {succ : N → List N} {log : List N} {n d m : N}

/-- `n` depends on `d` directly. -/
def Dep (succ : N → List N) (n d : N) : Prop := d ∈ succ n

/-- Every node stands once in the log, after all that it depends on. -/
structure Ordered (succ : N → List N) (log : List N) : Prop where
  nodup : log.Nodup
  after : ∀ pre n post, log = pre ++ n :: post → ∀ d ∈ succ n, d ∈ pre

theorem Ordered.nil : Ordered succ [] := by
  refine ⟨List.nodup_nil, ?_⟩
  intro pre n post h
  simp at h

theorem Ordered.snoc (h : Ordered succ log) (hn : n ∉ log) (hd : ∀ d ∈ succ n, d ∈ log) :
    Ordered succ (log ++ [n]) := by
  refine ⟨List.nodup_append.mpr ⟨h.nodup, List.nodup_singleton n, ?_⟩, ?_⟩
  · intro a ha b hb hab
    rw [List.mem_singleton.mp hb] at hab
    exact hn (hab ▸ ha)
  · intro pre m post hsplit d hdm
    rcases List.eq_nil_or_concat post with rfl | ⟨post, x, rfl⟩
    · obtain ⟨rfl, hnm⟩ := List.append_inj' hsplit rfl
      obtain rfl : n = m := by simpa using hnm
      exact hd d hdm
    · rw [List.concat_eq_append, ← List.cons_append, ← List.append_assoc] at hsplit
      obtain ⟨rfl, -⟩ := List.append_inj' hsplit rfl
      exact h.after pre m post rfl d hdm

theorem Ordered.mem_of_dep (h : Ordered succ log) (hn : n ∈ log) (hd : Dep succ n d) :
    d ∈ log := by
  obtain ⟨pre, post, rfl⟩ := List.append_of_mem hn
  exact List.mem_append_left _ (h.after pre n post rfl d hd)

theorem Ordered.mem_of_reach (h : Ordered succ log) (hn : n ∈ log)
    (hd : ReflTransGen (Dep succ) n d) : d ∈ log := by
  induction hd with
  | refl => exact hn
  | tail _ hstep ih => exact h.mem_of_dep ih hstep

theorem Ordered.prefix {pre post : List N} (h : Ordered succ (pre ++ post)) :
    Ordered succ pre := by
  refine ⟨(List.nodup_append.mp h.nodup).1, ?_⟩
  rintro pre' n post' rfl d hd
  exact h.after pre' n (post' ++ post) (by simp) d hd

/-! ## The nodes below a node -/

section Below

variable {V : Finset N}

open Classical in
/-- The nodes of `V` that `n` depends on. -/
noncomputable def below (succ : N → List N) (V : Finset N) (n : N) : Finset N :=
  V.filter (TransGen (Dep succ) n)

open Classical in
theorem mem_below : m ∈ below succ V n ↔ m ∈ V ∧ TransGen (Dep succ) n m := by
  rw [below, Finset.mem_filter]

theorem below_ssubset (hacyclic : ∀ n, ¬ TransGen (Dep succ) n n) (hd : Dep succ n d)
    (hV : d ∈ V) : below succ V d ⊂ below succ V n := by
  rw [Finset.ssubset_iff_of_subset]
  · refine ⟨d, mem_below.mpr ⟨hV, TransGen.single hd⟩, ?_⟩
    intro h
    exact hacyclic d (mem_below.mp h).2
  · intro m hm
    obtain ⟨hmV, hreach⟩ := mem_below.mp hm
    exact mem_below.mpr ⟨hmV, TransGen.head hd hreach⟩

/-- A node does not depend on itself, so that the number of nodes bounds the depth. -/
theorem below_card_lt (hacyclic : ∀ n, ¬ TransGen (Dep succ) n n) (hn : n ∈ V) :
    (below succ V n).card < V.card := by
  apply Finset.card_lt_card
  rw [Finset.ssubset_iff_of_subset (fun m hm => (mem_below.mp hm).1)]
  exact ⟨n, hn, fun h => hacyclic n (mem_below.mp h).2⟩

end Below

/-! ## Visits -/

variable [DecidableEq N]

/-- Visit a node, with the depth of the recursion bounded by `fuel`. -/
def visit (succ : N → List N) : ℕ → N → List N → Option (List N)
  | 0, _, _ => none
  | fuel + 1, n, log =>
    if n ∈ log then some log
    else ((succ n).foldlM (fun log d => visit succ fuel d log) log).map (fun log => log ++ [n])

/-- Visit the nodes of a list. -/
def visitAll (succ : N → List N) (fuel : ℕ) (ns log : List N) : Option (List N) :=
  ns.foldlM (fun log n => visit succ fuel n log) log

/-- A visit from `log` has ended: what has been entered is `added`. -/
structure Visited (succ : N → List N) (ns log added : List N) : Prop where
  ordered : Ordered succ (log ++ added)
  mem : ∀ n ∈ ns, n ∈ log ++ added
  reach : ∀ m ∈ added, ∃ n ∈ ns, ReflTransGen (Dep succ) n m

theorem visitAll_spec {fuel : ℕ} (ns : List N)
    (hvisit : ∀ n ∈ ns, ∀ log, Ordered succ log →
      ∃ added, visit succ fuel n log = some (log ++ added) ∧ Visited succ [n] log added)
    (hlog : Ordered succ log) :
    ∃ added, visitAll succ fuel ns log = some (log ++ added) ∧ Visited succ ns log added := by
  induction ns generalizing log with
  | nil => exact ⟨[], by simp [visitAll], by simpa using hlog, by simp, by simp⟩
  | cons n ns ih =>
    obtain ⟨added₁, hrun₁, h₁⟩ := hvisit n List.mem_cons_self log hlog
    obtain ⟨added₂, hrun₂, h₂⟩ :=
      ih (fun n' hn' => hvisit n' (List.mem_cons_of_mem _ hn')) h₁.ordered
    refine ⟨added₁ ++ added₂, ?_, ?_, ?_, ?_⟩
    · rw [visitAll, List.foldlM_cons, hrun₁, ← List.append_assoc]
      exact hrun₂
    · rw [← List.append_assoc]
      exact h₂.ordered
    · intro x hx
      rw [← List.append_assoc]
      rcases List.mem_cons.mp hx with rfl | hx
      · exact List.mem_append_left _ (h₁.mem x List.mem_cons_self)
      · exact h₂.mem x hx
    · intro m hm
      rcases List.mem_append.mp hm with hm | hm
      · obtain ⟨n', hn', hreach⟩ := h₁.reach m hm
        rw [List.mem_singleton.mp hn'] at hreach
        exact ⟨n, List.mem_cons_self, hreach⟩
      · obtain ⟨n', hn', hreach⟩ := h₂.reach m hm
        exact ⟨n', List.mem_cons_of_mem _ hn', hreach⟩

/-- **A visit ends**, and enters the node and some of what it depends on. -/
theorem visit_spec {V : Finset N} (hacyclic : ∀ n, ¬ TransGen (Dep succ) n n)
    (hclosed : ∀ n ∈ V, ∀ d ∈ succ n, d ∈ V) (fuel : ℕ) (hn : n ∈ V)
    (hfuel : (below succ V n).card < fuel) (hlog : Ordered succ log) :
    ∃ added, visit succ fuel n log = some (log ++ added) ∧ Visited succ [n] log added := by
  induction fuel generalizing n log with
  | zero => omega
  | succ fuel ih =>
    rw [visit]
    split
    · rename_i hmem
      exact ⟨[], by simp, by simpa using hlog, by simpa using hmem, by simp⟩
    · rename_i hmem
      obtain ⟨added, hrun, h⟩ := visitAll_spec (succ n) (fun d hd log hlog =>
        ih (hclosed n hn d hd)
          (by have := Finset.card_lt_card (below_ssubset hacyclic hd (hclosed n hn d hd)); omega)
          hlog) hlog
      have hnew : n ∉ log ++ added := by
        intro h'
        rcases List.mem_append.mp h' with h' | h'
        · exact hmem h'
        · obtain ⟨d, hd, hreach⟩ := h.reach n h'
          exact hacyclic n (TransGen.head' hd hreach)
      refine ⟨added ++ [n], ?_, ?_, ?_, ?_⟩
      · rw [visitAll] at hrun
        rw [hrun, Option.map_some, List.append_assoc]
      · rw [← List.append_assoc]
        exact h.ordered.snoc hnew h.mem
      · intro x hx
        rw [List.mem_singleton.mp hx]
        simp
      · intro m hm
        refine ⟨n, List.mem_cons_self, ?_⟩
        rcases List.mem_append.mp hm with hm | hm
        · obtain ⟨d, hd, hreach⟩ := h.reach m hm
          exact ReflTransGen.head hd hreach
        · rw [List.mem_singleton.mp hm]

end DepthFirst
