/-
# Init nodes and stages

The nodes and stages that the linker collects, their registration (`core/init_node.c`), and the
functions that run them.  A stage has a node of its own, without a function, whose dependencies
are the nodes that entail the stage; they are collected, when the stage is registered, into an
array with room for `INIT_MAX_STAGE_DEPS` of them and a terminator.
-/
import Mathlib.Data.List.Count
import Mathlib.Logic.Function.Basic
import YakKernel.DepthFirst

namespace InitNode

/-! ## Nodes and stages -/

/-- `INIT_MAX_STAGE_DEPS`. -/
def initMaxStageDeps : ℕ := 64

/-- The nodes and the stages in the order of their sections, and what is written down in them:
the array `deps` of a node without its terminator, its `entails_stages`, whether it has a
function, and the `phony_node` of a stage, which is not among the nodes and entails nothing. -/
structure Graph (N S : Type*) where
  nodes : List N
  stages : List S
  deps : N → List N
  entailsStages : N → List S
  func : N → Bool
  phonyNode : S → N
  nodes_nodup : nodes.Nodup
  stages_nodup : stages.Nodup
  deps_mem : ∀ n ∈ nodes, ∀ d ∈ deps n, d ∈ nodes ∨ ∃ s ∈ stages, d = phonyNode s
  phonyNode_inj : ∀ s ∈ stages, ∀ s' ∈ stages, phonyNode s = phonyNode s' → s = s'
  phonyNode_notMem : ∀ s ∈ stages, phonyNode s ∉ nodes
  phonyNode_entails : ∀ s ∈ stages, entailsStages (phonyNode s) = []

/-- The array that the member `deps` of a node points to: its entries, and whether a terminator
follows them. -/
structure DepArray (N : Type*) where
  entries : List N
  terminated : Bool

/-- The list of registered nodes, the member `deps` of every node (`none` is `NULL`), which
nodes are executed, and the functions called so far.  A ghost: the nodes in the order in which
they were marked as executed. -/
structure State (N : Type*) where
  nodelist : List N
  deps : N → Option (DepArray N)
  executed : N → Bool
  calls : List N
  log : List N

/-- The ways in which a call does not return. -/
inductive Failure : Type where
  | panic
  /-- `phony_deps` is written or read beyond its end. -/
  | outOfBounds
  | nullDeref
  | diverges
  deriving DecidableEq, Repr

variable {N S : Type*} [DecidableEq N] [DecidableEq S]

/-! ## Registration -/

omit [DecidableEq N] in
/-- `init_node_register`. -/
def initNodeRegister (s : State N) (node : N) : State N :=
  { s with nodelist := s.nodelist ++ [node] }

omit [DecidableEq N] in
/-- The inner loop of `init_stage_register`, over the stages that `cur` entails from index `i`
on; `phonyDeps` are the entries stored so far, as many as `stagedep_count` says. -/
def collectFrom (stage : S) (cur : N) : List S → ℕ → List N → Except Failure (List N)
  | [], _, phonyDeps => .ok phonyDeps
  | entailed :: rest, i, phonyDeps =>
    if stage = entailed then
      if initMaxStageDeps < i + 1 then .error .panic
      else if phonyDeps.length < initMaxStageDeps + 1 then
        collectFrom stage cur rest (i + 1) (phonyDeps ++ [cur])
      else .error .outOfBounds
    else collectFrom stage cur rest (i + 1) phonyDeps

omit [DecidableEq N] in
/-- The outer loop of `init_stage_register`: `while (cur && cur->next)` stops before the last
node of the list. -/
def collect (g : Graph N S) (stage : S) (nodelist : List N) : Except Failure (List N) :=
  nodelist.dropLast.foldlM
    (fun phonyDeps cur => collectFrom stage cur (g.entailsStages cur) 0 phonyDeps) []

/-- `init_stage_register`. -/
def initStageRegister (g : Graph N S) (s : State N) (stage : S) : Except Failure (State N) := do
  let phonyDeps ← collect g stage s.nodelist
  let deps : DepArray N := ⟨phonyDeps, phonyDeps.length ≤ initMaxStageDeps⟩
  return initNodeRegister { s with deps := Function.update s.deps (g.phonyNode stage) (some deps) }
    (g.phonyNode stage)

/-- The nodes and stages as they are linked in. -/
def initial (g : Graph N S) : State N where
  nodelist := []
  deps := fun n => if n ∈ g.nodes then some ⟨g.deps n, true⟩ else none
  executed := fun _ => false
  calls := []
  log := []

omit [DecidableEq S] in
theorem initial_deps (g : Graph N S) (n : N) :
    (initial g).deps n = if n ∈ g.nodes then some ⟨g.deps n, true⟩ else none := rfl

/-- `init_setup`. -/
def initSetup (g : Graph N S) : Except Failure (State N) :=
  g.stages.foldlM (initStageRegister g) (g.nodes.foldl initNodeRegister (initial g))

/-! ## Running -/

/-- `init_node_run`, with the depth of its recursion bounded by `fuel`. -/
def initNodeRun (g : Graph N S) : ℕ → N → State N → Except Failure (State N)
  | 0, _, _ => .error .diverges
  | fuel + 1, node, s =>
    if s.executed node then .ok s
    else
      match s.deps node with
      | none => .error .nullDeref
      | some deps => do
        let s ← deps.entries.foldlM (fun s dep => initNodeRun g fuel dep s) s
        if deps.terminated then
          return { s with
            calls := if g.func node then s.calls ++ [node] else s.calls
            executed := Function.update s.executed node true
            log := s.log ++ [node] }
        else .error .outOfBounds

/-- The depth that suffices where no node depends on itself. -/
def Graph.depth (g : Graph N S) : ℕ := g.nodes.length + g.stages.length

/-- `init_run_all`. -/
def initRunAll (g : Graph N S) (s : State N) : Except Failure (State N) :=
  s.nodelist.foldlM
    (fun s node => if s.executed node then .ok s else initNodeRun g g.depth node s) s

/-- `init_stage_run`. -/
def initStageRun (g : Graph N S) (stage : S) (s : State N) : Except Failure (State N) :=
  if s.executed (g.phonyNode stage) then .ok s
  else initNodeRun g g.depth (g.phonyNode stage) s

/-- The calls after `init_setup`. -/
inductive Call (S : Type*) where
  | runAll
  | stageRun (stage : S)

def Call.run (g : Graph N S) (s : State N) : Call S → Except Failure (State N)
  | .runAll => initRunAll g s
  | .stageRun stage => initStageRun g stage s

/-- A sequence of calls. -/
def runCalls (g : Graph N S) (calls : List (Call S)) (s : State N) : Except Failure (State N) :=
  calls.foldlM (Call.run g) s

/-! ## What is collected -/

omit [DecidableEq N] in
/-- The entries that the nodes of a list make for a stage: one for each time that a node names
it. -/
def Graph.entriesOf (g : Graph N S) (stage : S) (l : List N) : List N :=
  l.flatMap (fun n => List.replicate ((g.entailsStages n).count stage) n)

section Collect

variable {g : Graph N S} {stage : S} {cur n : N} {l phonyDeps r : List N}

omit [DecidableEq N] in
theorem mem_entriesOf : n ∈ g.entriesOf stage l ↔ n ∈ l ∧ stage ∈ g.entailsStages n := by
  simp only [Graph.entriesOf, List.mem_flatMap, List.mem_replicate, ne_eq, List.count_eq_zero,
    not_not]
  constructor
  · rintro ⟨m, hm, hs, rfl⟩
    exact ⟨hm, hs⟩
  · rintro ⟨hn, hs⟩
    exact ⟨n, hn, hs, rfl⟩

omit [DecidableEq N] in
theorem collectFrom_eq_ok {es : List S} {i : ℕ} (hlen : phonyDeps.length ≤ initMaxStageDeps + 1) :
    collectFrom stage cur es i phonyDeps = .ok r ↔
      (∀ k, es[k]? = some stage → i + k < initMaxStageDeps) ∧
        phonyDeps.length + es.count stage ≤ initMaxStageDeps + 1 ∧
        r = phonyDeps ++ List.replicate (es.count stage) cur := by
  induction es generalizing i phonyDeps with
  | nil => simp [collectFrom, hlen, eq_comm]
  | cons e es ih =>
    have hshift : (∀ k, (e :: es)[k]? = some stage → i + k < initMaxStageDeps) ↔
        (e = stage → i < initMaxStageDeps) ∧
          ∀ k, es[k]? = some stage → i + 1 + k < initMaxStageDeps := by
      constructor
      · intro h
        refine ⟨fun he => by simpa [he] using h 0, fun k hk => ?_⟩
        have := h (k + 1) (by simpa using hk)
        omega
      · rintro ⟨h0, h⟩ (_ | k) hk
        · exact h0 (by simpa using hk)
        · have := h k (by simpa using hk)
          omega
    rw [collectFrom, hshift]
    by_cases he : stage = e
    · subst he
      simp only [if_true, forall_const, List.count_cons_self]
      by_cases hi : initMaxStageDeps < i + 1
      · rw [if_pos hi]
        exact iff_of_false (by simp) (fun h => by omega)
      rw [if_neg hi]
      by_cases hroom : phonyDeps.length < initMaxStageDeps + 1
      · have hlen' : (phonyDeps ++ [cur]).length ≤ initMaxStageDeps + 1 := by
          rw [List.length_append, List.length_singleton]
          omega
        rw [if_pos hroom, ih hlen', List.length_append, List.length_singleton,
          List.replicate_succ, List.append_assoc, List.singleton_append]
        constructor
        · rintro ⟨h1, h2, h3⟩
          exact ⟨⟨by omega, h1⟩, by omega, h3⟩
        · rintro ⟨⟨-, h1⟩, h2, h3⟩
          exact ⟨h1, by omega, h3⟩
      · rw [if_neg hroom]
        exact iff_of_false (by simp) (fun h => by omega)
    · rw [if_neg he, ih hlen, List.count_cons_of_ne (Ne.symm he)]
      simp [Ne.symm he]

/-- The bound that `init_stage_register` checks, on the index in `entails_stages`. -/
def Graph.NamedEarly (g : Graph N S) (stage : S) (l : List N) : Prop :=
  ∀ n ∈ l, ∀ k, (g.entailsStages n)[k]? = some stage → k < initMaxStageDeps

omit [DecidableEq N] in
theorem collectAll_eq_ok (hlen : phonyDeps.length ≤ initMaxStageDeps + 1) :
    l.foldlM (fun phonyDeps cur => collectFrom stage cur (g.entailsStages cur) 0 phonyDeps)
        phonyDeps = .ok r ↔
      g.NamedEarly stage l ∧
        phonyDeps.length + (g.entriesOf stage l).length ≤ initMaxStageDeps + 1 ∧
        r = phonyDeps ++ g.entriesOf stage l := by
  induction l generalizing phonyDeps with
  | nil =>
    simp only [List.foldlM_nil, Graph.NamedEarly, Graph.entriesOf, List.flatMap_nil,
      List.length_nil, List.append_nil, Nat.add_zero, List.not_mem_nil, false_imp_iff,
      implies_true, true_and, hlen]
    constructor
    · rintro ⟨⟩
      rfl
    · rintro rfl
      rfl
  | cons n l ih =>
    rw [List.foldlM_cons]
    have hentries : g.entriesOf stage (n :: l)
        = List.replicate ((g.entailsStages n).count stage) n ++ g.entriesOf stage l := rfl
    have hearly : g.NamedEarly stage (n :: l) ↔
        (∀ k, (g.entailsStages n)[k]? = some stage → k < initMaxStageDeps) ∧
          g.NamedEarly stage l := List.forall_mem_cons
    rw [hentries, hearly, List.length_append, List.length_replicate]
    cases hx : collectFrom stage n (g.entailsStages n) 0 phonyDeps with
    | error e =>
      refine iff_of_false (fun h => by cases h) ?_
      rintro ⟨⟨h1, -⟩, h2, -⟩
      have hok : collectFrom stage n (g.entailsStages n) 0 phonyDeps
          = .ok (phonyDeps ++ List.replicate ((g.entailsStages n).count stage) n) :=
        (collectFrom_eq_ok hlen).mpr ⟨fun k hk => by simpa using h1 k hk, by omega, rfl⟩
      rw [hx] at hok
      cases hok
    | ok phonyDeps' =>
      obtain ⟨h1, h2, rfl⟩ := (collectFrom_eq_ok hlen).mp hx
      have hlen' : (phonyDeps ++ List.replicate ((g.entailsStages n).count stage) n).length
          ≤ initMaxStageDeps + 1 := by
        rw [List.length_append, List.length_replicate]
        exact h2
      show l.foldlM _ _ = _ ↔ _
      rw [ih hlen', List.length_append, List.length_replicate, List.append_assoc, Nat.add_assoc]
      constructor
      · rintro ⟨h3, h4, h5⟩
        exact ⟨⟨fun k hk => by simpa using h1 k hk, h3⟩, h4, h5⟩
      · rintro ⟨⟨-, h3⟩, h4, h5⟩
        exact ⟨h3, h4, h5⟩

omit [DecidableEq N] in
/-- **What a stage collects**: the entries of all nodes in the list but the last. -/
theorem collect_eq_ok {nodelist : List N} :
    collect g stage nodelist = .ok r ↔
      g.NamedEarly stage nodelist.dropLast ∧
        (g.entriesOf stage nodelist.dropLast).length ≤ initMaxStageDeps + 1 ∧
        r = g.entriesOf stage nodelist.dropLast := by
  rw [collect, collectAll_eq_ok (Nat.zero_le _), List.length_nil, Nat.zero_add, List.nil_append]

end Collect

/-! ## The state after `init_setup` -/

/-- The nodes that the registration of a stage looks at: that of the first stage leaves out the
last node. -/
def Graph.scanned (g : Graph N S) (stage : S) : List N :=
  if g.stages.head? = some stage then g.nodes.dropLast else g.nodes

/-- The dependencies of the node of a stage, as they are collected. -/
def Graph.entries (g : Graph N S) (stage : S) : List N := g.entriesOf stage (g.scanned stage)

/-- The registration of a stage does not fail. -/
def Graph.Registers (g : Graph N S) (stage : S) : Prop :=
  g.NamedEarly stage (g.scanned stage) ∧ (g.entries stage).length ≤ initMaxStageDeps + 1

/-- All nodes and the stages of `done` are registered, and nothing has run. -/
structure Registered (g : Graph N S) (done : List S) (s : State N) : Prop where
  nodelist : s.nodelist = g.nodes ++ done.map g.phonyNode
  phony : ∀ stage ∈ done, s.deps (g.phonyNode stage) =
    some ⟨g.entries stage, (g.entries stage).length ≤ initMaxStageDeps⟩
  other : ∀ n, (∀ stage ∈ done, n ≠ g.phonyNode stage) → s.deps n = (initial g).deps n
  executed : s.executed = fun _ => false
  calls : s.calls = []
  log : s.log = []

section Setup

variable {g : Graph N S} {stage : S} {done : List S} {s s' : State N}

omit [DecidableEq N] in
theorem scan_append (hdone : ∀ stage ∈ done, stage ∈ g.stages) (l : List N) :
    g.entriesOf stage (l ++ done.map g.phonyNode) = g.entriesOf stage l ∧
      (g.NamedEarly stage (l ++ done.map g.phonyNode) ↔ g.NamedEarly stage l) := by
  constructor
  · have hnone : g.entriesOf stage (done.map g.phonyNode) = [] := by
      rw [List.eq_nil_iff_forall_not_mem]
      intro n hn
      obtain ⟨hn, hs⟩ := mem_entriesOf.mp hn
      obtain ⟨st, hst, rfl⟩ := List.mem_map.mp hn
      rw [g.phonyNode_entails st (hdone st hst)] at hs
      simp at hs
    rw [Graph.entriesOf, List.flatMap_append]
    exact (congrArg _ hnone).trans (List.append_nil _)
  · unfold Graph.NamedEarly
    constructor
    · intro h n hn
      exact h n (List.mem_append_left _ hn)
    · intro h n hn k hk
      rcases List.mem_append.mp hn with hn | hn
      · exact h n hn k hk
      · obtain ⟨st, hst, rfl⟩ := List.mem_map.mp hn
        rw [g.phonyNode_entails st (hdone st hst)] at hk
        simp at hk

omit [DecidableEq N] in
/-- What the registration of a stage looks at, when the stages of `done` are registered. -/
theorem scan_nodelist {rest : List S} (hstages : g.stages = done ++ stage :: rest) :
    g.entriesOf stage (g.nodes ++ done.map g.phonyNode).dropLast = g.entries stage ∧
      (g.NamedEarly stage (g.nodes ++ done.map g.phonyNode).dropLast ↔
        g.NamedEarly stage (g.scanned stage)) := by
  rcases List.eq_nil_or_concat done with rfl | ⟨done, last, rfl⟩
  · have hscanned : g.scanned stage = g.nodes.dropLast := by
      rw [Graph.scanned, hstages]
      simp
    rw [Graph.entries, hscanned]
    simp
  · rw [List.concat_eq_append] at hstages ⊢
    have hnodup := g.stages_nodup
    have hscanned : g.scanned stage = g.nodes := by
      rw [Graph.scanned, if_neg]
      intro hhead
      have hmem : stage ∈ done ++ [last] := by
        apply List.mem_of_mem_head?
        rw [hstages, List.head?_append_of_ne_nil _ (by simp)] at hhead
        exact hhead
      rw [hstages, List.nodup_append] at hnodup
      exact hnodup.2.2 stage hmem stage List.mem_cons_self rfl
    have hdrop : (g.nodes ++ (done ++ [last]).map g.phonyNode).dropLast
        = g.nodes ++ done.map g.phonyNode := by
      rw [List.map_append, ← List.append_assoc, List.map_singleton, List.dropLast_concat]
    rw [hdrop, Graph.entries, hscanned]
    refine scan_append ?_ g.nodes
    intro st hst
    rw [hstages]
    simp [hst]

theorem Registered.step {rest : List S} (h : Registered g done s)
    (hstages : g.stages = done ++ stage :: rest) :
    (g.Registers stage →
      ∃ s', initStageRegister g s stage = .ok s' ∧ Registered g (done ++ [stage]) s') ∧
    (initStageRegister g s stage = .ok s' → g.Registers stage) := by
  obtain ⟨hentries, hearly⟩ := scan_nodelist hstages
  have hcollect : ∀ r, collect g stage s.nodelist = .ok r ↔ g.Registers stage ∧
      r = g.entries stage := by
    intro r
    rw [collect_eq_ok, h.nodelist, hentries, hearly, Graph.Registers, and_assoc]
  constructor
  · intro hreg
    have hother : ∀ st ∈ done, g.phonyNode st ≠ g.phonyNode stage := by
      intro st hst heq
      have hmem : st ∈ g.stages ∧ stage ∈ g.stages := by
        rw [hstages]
        simp [hst]
      obtain rfl := g.phonyNode_inj st hmem.1 stage hmem.2 heq
      have hnodup := g.stages_nodup
      rw [hstages, List.nodup_append] at hnodup
      exact hnodup.2.2 st hst st List.mem_cons_self rfl
    let deps : DepArray N := ⟨g.entries stage, (g.entries stage).length ≤ initMaxStageDeps⟩
    refine ⟨initNodeRegister
      { s with deps := Function.update s.deps (g.phonyNode stage) (some deps) }
      (g.phonyNode stage), ?_, ?_⟩
    · rw [initStageRegister, (hcollect _).mpr ⟨hreg, rfl⟩]
      rfl
    · refine ⟨?_, ?_, ?_, h.executed, h.calls, h.log⟩
      · simp [initNodeRegister, h.nodelist]
      · intro st hst
        rcases List.mem_append.mp hst with hst | hst
        · show Function.update s.deps _ _ _ = _
          rw [Function.update_of_ne (hother st hst), h.phony st hst]
        · rw [List.mem_singleton.mp hst]
          exact Function.update_self _ _ _
      · intro n hn
        show Function.update s.deps _ _ _ = _
        rw [Function.update_of_ne (hn stage (by simp))]
        exact h.other n (fun st hst => hn st (by simp [hst]))
  · intro hok
    cases hx : collect g stage s.nodelist with
    | error e =>
      rw [initStageRegister, hx] at hok
      cases hok
    | ok r => exact ((hcollect r).mp hx).1

theorem registered_nodes (g : Graph N S) :
    Registered g [] (g.nodes.foldl initNodeRegister (initial g)) := by
  have hfold : ∀ (l : List N) (s : State N), l.foldl initNodeRegister s
      = { s with nodelist := s.nodelist ++ l } := by
    intro l
    induction l with
    | nil => simp
    | cons n l ih =>
      intro s
      rw [List.foldl_cons, ih, initNodeRegister]
      simp
  rw [hfold]
  exact ⟨by simp [initial], by simp, fun _ _ => rfl, rfl, rfl, rfl⟩

theorem registered_stages {rest : List S} (h : Registered g done s)
    (hstages : g.stages = done ++ rest) :
    ((∀ stage ∈ rest, g.Registers stage) →
      ∃ s', rest.foldlM (initStageRegister g) s = .ok s' ∧ Registered g g.stages s') ∧
    (rest.foldlM (initStageRegister g) s = .ok s' → ∀ stage ∈ rest, g.Registers stage) := by
  induction rest generalizing done s with
  | nil =>
    rw [List.append_nil] at hstages
    exact ⟨fun _ => ⟨s, rfl, hstages ▸ h⟩, fun _ => by simp⟩
  | cons stage rest ih =>
    have hstages' : g.stages = (done ++ [stage]) ++ rest := by simpa using hstages
    rw [List.foldlM_cons]
    constructor
    · intro hreg
      have hstage := hreg stage List.mem_cons_self
      obtain ⟨s₁, hs₁, h₁⟩ := (@Registered.step _ _ _ _ _ _ _ _ s _ h hstages).1 hstage
      rw [hs₁]
      exact (ih h₁ hstages').1 (fun st hst => hreg st (List.mem_cons_of_mem _ hst))
    · intro hok
      cases hx : initStageRegister g s stage with
      | error e =>
        rw [hx] at hok
        cases hok
      | ok s₁ =>
        have hreg := (h.step hstages).2 hx
        obtain ⟨s₁', hs₁', h₁⟩ := (@Registered.step _ _ _ _ _ _ _ _ s _ h hstages).1 hreg
        obtain rfl : s₁' = s₁ := by
          rw [hs₁'] at hx
          exact Except.ok.inj hx
        rw [hx] at hok
        exact List.forall_mem_cons.mpr ⟨hreg, (ih h₁ hstages').2 hok⟩

/-- **What `init_setup` does** when no registration fails. -/
theorem initSetup_of_registers (h : ∀ stage ∈ g.stages, g.Registers stage) :
    ∃ s, initSetup g = .ok s ∧ Registered g g.stages s :=
  (@registered_stages _ _ _ _ _ [] _ (initial g) _ (registered_nodes g) rfl).1 h

theorem initSetup_registered (hok : initSetup g = .ok s) :
    (∀ stage ∈ g.stages, g.Registers stage) ∧ Registered g g.stages s := by
  have h : ∀ stage ∈ g.stages, g.Registers stage :=
    (@registered_stages _ _ _ _ _ [] _ _ _ (registered_nodes g) rfl).2 hok
  obtain ⟨s', hs', h'⟩ := initSetup_of_registers h
  obtain rfl : s' = s := Except.ok.inj (hs'.symm.trans hok)
  exact ⟨h, h'⟩

end Setup

end InitNode
