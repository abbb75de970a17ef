/-
# The order of initialization

After `init_setup`, a run of a node is a depth-first visit of the graph that the registration has
left.  It differs from the graph of all dependencies where a stage does not collect a node that
entails it, and it is not terminated where a stage has too many nodes.
-/
import Mathlib.Data.Finset.Dedup
import YakKernel.InitNode

namespace InitNode

open DepthFirst Relation

variable {N S : Type*} [DecidableEq N] [DecidableEq S]

/-! ## Dependencies -/

omit [DecidableEq N] [DecidableEq S] in
/-- `n` needs `d`: `d` is among the dependencies of `n`, or entails the stage of `n`. -/
def Graph.Needs (g : Graph N S) (n d : N) : Prop :=
  (n ∈ g.nodes ∧ d ∈ g.deps n) ∨
    ∃ stage ∈ g.stages, n = g.phonyNode stage ∧ d ∈ g.nodes ∧ stage ∈ g.entailsStages d

omit [DecidableEq N] [DecidableEq S] in
def Graph.Acyclic (g : Graph N S) : Prop := ∀ n, ¬ TransGen g.Needs n n

omit [DecidableEq N] [DecidableEq S] in
theorem Graph.acyclic_of_rank {g : Graph N S} (rank : N → ℕ)
    (h : ∀ n d, g.Needs n d → rank d < rank n) : g.Acyclic := by
  have hlt : ∀ n d, TransGen g.Needs n d → rank d < rank n := by
    intro n d hnd
    induction hnd with
    | single hstep => exact h _ _ hstep
    | tail _ hstep ih => exact (h _ _ hstep).trans ih
  exact fun n hn => lt_irrefl _ (hlt n n hn)

/-- The nodes and the nodes of the stages. -/
def Graph.all (g : Graph N S) : Finset N := (g.nodes ++ g.stages.map g.phonyNode).toFinset

/-- The dependencies that a run follows. -/
def State.succ (s : State N) (n : N) : List N := ((s.deps n).map DepArray.entries).getD []

section Registered

variable {g : Graph N S} {s : State N} {n d : N} {stage : S}

omit [DecidableEq S] in
theorem mem_all : n ∈ g.all ↔ n ∈ g.nodes ∨ ∃ stage ∈ g.stages, n = g.phonyNode stage := by
  simp only [Graph.all, List.mem_toFinset, List.mem_append, List.mem_map]
  constructor
  · rintro (h | ⟨stage, hs, rfl⟩)
    · exact Or.inl h
    · exact Or.inr ⟨stage, hs, rfl⟩
  · rintro (h | ⟨stage, hs, rfl⟩)
    · exact Or.inl h
    · exact Or.inr ⟨stage, hs, rfl⟩

theorem Registered.deps_node (h : Registered g g.stages s) (hn : n ∈ g.nodes) :
    s.deps n = some ⟨g.deps n, true⟩ := by
  rw [h.other n, initial_deps, if_pos hn]
  rintro stage hs rfl
  exact g.phonyNode_notMem stage hs hn

theorem Registered.succ_node (h : Registered g g.stages s) (hn : n ∈ g.nodes) :
    s.succ n = g.deps n := by
  rw [State.succ, h.deps_node hn]
  rfl

theorem Registered.succ_phony (h : Registered g g.stages s) (hs : stage ∈ g.stages) :
    s.succ (g.phonyNode stage) = g.entries stage := by
  rw [State.succ, h.phony stage hs]
  rfl

omit [DecidableEq N] in
theorem scanned_subset (hn : n ∈ g.scanned stage) : n ∈ g.nodes := by
  rw [Graph.scanned] at hn
  split at hn
  · exact List.mem_of_mem_dropLast hn
  · exact hn

theorem Registered.needs_of_dep (h : Registered g g.stages s) (hd : Dep s.succ n d) :
    g.Needs n d := by
  by_cases hn : n ∈ g.nodes
  · rw [Dep, h.succ_node hn] at hd
    exact Or.inl ⟨hn, hd⟩
  · by_cases hphony : ∃ stage ∈ g.stages, n = g.phonyNode stage
    · obtain ⟨stage, hs, rfl⟩ := hphony
      rw [Dep, h.succ_phony hs] at hd
      obtain ⟨hd, hentails⟩ := mem_entriesOf.mp hd
      exact Or.inr ⟨stage, hs, rfl, scanned_subset hd, hentails⟩
    · rw [Dep, State.succ, h.other n (fun stage hs heq => hphony ⟨stage, hs, heq⟩),
        initial_deps, if_neg hn] at hd
      simp at hd

/-- **The dependency that is not followed**: from the first stage to the last node. -/
theorem Registered.dep_of_needs (h : Registered g g.stages s) (hneeds : g.Needs n d) :
    Dep s.succ n d ∨ ∃ stage, g.stages.head? = some stage ∧ n = g.phonyNode stage ∧
      g.nodes.getLast? = some d ∧ stage ∈ g.entailsStages d := by
  rcases hneeds with ⟨hn, hd⟩ | ⟨stage, hs, rfl, hd, hentails⟩
  · left
    rw [Dep, h.succ_node hn]
    exact hd
  · by_cases hscanned : d ∈ g.scanned stage
    · left
      rw [Dep, h.succ_phony hs]
      exact mem_entriesOf.mpr ⟨hscanned, hentails⟩
    · right
      rw [Graph.scanned] at hscanned
      split at hscanned
      · rename_i hhead
        refine ⟨stage, hhead, rfl, ?_, hentails⟩
        rcases List.eq_nil_or_concat g.nodes with hnil | ⟨l, x, hl⟩
        · rw [hnil] at hd
          simp at hd
        · rw [List.concat_eq_append] at hl
          rw [hl, List.dropLast_concat] at hscanned
          rw [hl, List.mem_append, List.mem_singleton] at hd
          rw [hl, List.getLast?_concat]
          rcases hd with hd | rfl
          · exact absurd hd hscanned
          · rfl
      · exact absurd hd hscanned

theorem Registered.acyclic (h : Registered g g.stages s) (hacyclic : g.Acyclic) (n : N) :
    ¬ TransGen (Dep s.succ) n n := by
  have hle : ∀ n d, Dep s.succ n d → g.Needs n d := fun _ _ => h.needs_of_dep
  exact fun hn => hacyclic n (TransGen.mono hle n n hn)

theorem Registered.closed (h : Registered g g.stages s) (hd : d ∈ s.succ n) : d ∈ g.all := by
  rw [mem_all]
  rcases h.needs_of_dep hd with ⟨hn, hd⟩ | ⟨_, _, _, hd, _⟩
  · exact g.deps_mem n hn d hd
  · exact Or.inl hd

end Registered

/-! ## Runs as visits -/

/-- The state after `init_setup`, once the nodes of the log have run. -/
def State.after (s : State N) (g : Graph N S) (log : List N) : State N :=
  { s with
    executed := fun n => n ∈ log
    calls := log.filter g.func
    log := log }

/-- The end of a visit as that of a run. -/
def State.ended (s : State N) (g : Graph N S) : Option (List N) → Except Failure (State N)
  | none => .error .diverges
  | some log => .ok (s.after g log)

/-- Every array of dependencies has its terminator. -/
def Terminated (g : Graph N S) : Prop :=
  ∀ stage ∈ g.stages, (g.entries stage).length ≤ initMaxStageDeps

section Runs

variable {g : Graph N S} {s s' : State N} {n d : N} {stage : S} {log : List N}

theorem Registered.deps_eq (h : Registered g g.stages s) (hterm : Terminated g)
    (hn : n ∈ g.all) : s.deps n = some ⟨s.succ n, true⟩ := by
  rcases mem_all.mp hn with hn | ⟨stage, hs, rfl⟩
  · rw [h.succ_node hn, h.deps_node hn]
  · rw [h.succ_phony hs, h.phony stage hs, decide_eq_true (hterm stage hs)]

omit [DecidableEq S] in
theorem foldlM_ended {f : State N → N → Except Failure (State N)}
    {visit : List N → N → Option (List N)} {ns : List N}
    (h : ∀ n ∈ ns, ∀ log, f (s.after g log) n = s.ended g (visit log n)) :
    ns.foldlM f (s.after g log) = s.ended g (ns.foldlM visit log) := by
  induction ns generalizing log with
  | nil => rfl
  | cons n ns ih =>
    rw [List.foldlM_cons, List.foldlM_cons, h n List.mem_cons_self]
    cases visit log n with
    | none => rfl
    | some log => exact ih (fun n hn => h n (List.mem_cons_of_mem _ hn))

/-- **A run of a node is a visit.** -/
theorem initNodeRun_after (h : Registered g g.stages s) (hterm : Terminated g) {fuel : ℕ}
    (hn : n ∈ g.all) :
    initNodeRun g fuel n (s.after g log) = s.ended g (visit s.succ fuel n log) := by
  induction fuel generalizing n log with
  | zero => rfl
  | succ fuel ih =>
    have hdeps : (s.after g log).deps n = some ⟨s.succ n, true⟩ := h.deps_eq hterm hn
    rw [initNodeRun, visit, hdeps]
    by_cases hmem : n ∈ log
    · rw [if_pos hmem, if_pos (by simpa [State.after] using hmem)]
      rfl
    · rw [if_neg hmem, if_neg (by simpa [State.after] using hmem)]
      dsimp only
      rw [foldlM_ended (fun d hd log => ih (h.closed hd))]
      cases (s.succ n).foldlM (fun log d => visit s.succ fuel d log) log with
      | none => rfl
      | some log' =>
        show Except.ok _ = Except.ok _
        congr 1
        simp only [State.after, List.filter_append, List.filter_singleton]
        congr 1
        · funext m
          by_cases hm : m = n
          · subst hm
            simp
          · simp [hm]
        · cases g.func n
          · simp
          · simp

omit [DecidableEq S] in
theorem initNodeRun_unterminated {fuel : ℕ} {entries : List N} (hn : s.executed n = false)
    (hdeps : s.deps n = some ⟨entries, false⟩) : initNodeRun g fuel n s ≠ .ok s' := by
  intro hrun
  cases fuel with
  | zero => cases hrun
  | succ fuel =>
    rw [initNodeRun, hdeps, hn] at hrun
    simp only [Bool.false_eq_true, if_false] at hrun
    cases hx : entries.foldlM (fun s dep => initNodeRun g fuel dep s) s with
    | error e =>
      rw [hx] at hrun
      cases hrun
    | ok s₁ =>
      rw [hx] at hrun
      cases hrun

/-- What a call asks for. -/
def Call.targets (g : Graph N S) (s : State N) : Call S → List N
  | .runAll => s.nodelist
  | .stageRun stage => [g.phonyNode stage]

/-- The call is one that the code can make. -/
def Call.Known (g : Graph N S) : Call S → Prop
  | .runAll => True
  | .stageRun stage => stage ∈ g.stages

theorem Registered.targets_mem (h : Registered g g.stages s) {c : Call S} (hc : c.Known g)
    (hn : n ∈ c.targets g s) : n ∈ g.all := by
  cases c with
  | runAll =>
    simp only [Call.targets, h.nodelist] at hn
    exact List.mem_toFinset.mpr hn
  | stageRun stage =>
    rw [List.mem_singleton.mp hn]
    exact mem_all.mpr (Or.inr ⟨stage, hc, rfl⟩)

omit [DecidableEq S] in
theorem card_all_le (g : Graph N S) : g.all.card ≤ g.depth := by
  have hle := List.toFinset_card_le (g.nodes ++ g.stages.map g.phonyNode)
  rw [List.length_append, List.length_map] at hle
  exact hle

theorem Call.run_after (h : Registered g g.stages s) (hterm : Terminated g) {c : Call S}
    (hc : c.Known g) :
    c.run g (s.after g log) = s.ended g (visitAll s.succ g.depth (c.targets g s) log) := by
  have hrun : ∀ n ∈ c.targets g s, ∀ log,
      (if (s.after g log).executed n then .ok (s.after g log)
        else initNodeRun g g.depth n (s.after g log))
      = s.ended g (visit s.succ g.depth n log) := by
    intro n hn log
    have hall := h.targets_mem hc hn
    rw [initNodeRun_after h hterm hall]
    split
    · rename_i hmem
      have hpos : g.depth ≠ 0 := by
        have := card_all_le g
        have := Finset.card_pos.mpr ⟨n, hall⟩
        omega
      obtain ⟨fuel, hfuel⟩ := Nat.exists_eq_succ_of_ne_zero hpos
      rw [hfuel, visit, if_pos (by simpa [State.after] using hmem)]
      rfl
    · rfl
  cases c with
  | runAll => exact foldlM_ended hrun
  | stageRun stage =>
    rw [Call.run, initStageRun, hrun _ (List.mem_singleton_self _), Call.targets, visitAll,
      List.foldlM_cons]
    cases visit s.succ g.depth (g.phonyNode stage) log with
    | none => rfl
    | some log => rfl

/-- **One call**: what it asks for has run afterwards, with what that depends on. -/
theorem Call.run_spec (h : Registered g g.stages s) (hterm : Terminated g)
    (hacyclic : g.Acyclic) {c : Call S} (hc : c.Known g) (hlog : Ordered s.succ log) :
    ∃ added, c.run g (s.after g log) = .ok (s.after g (log ++ added)) ∧
      Visited s.succ (c.targets g s) log added := by
  obtain ⟨added, hrun, hvisited⟩ := @visitAll_spec _ _ _ _ g.depth (c.targets g s)
    (fun n hn log hlog => visit_spec (h.acyclic hacyclic) (fun n _ d hd => h.closed hd) _
      (h.targets_mem hc hn)
      ((below_card_lt (h.acyclic hacyclic) (h.targets_mem hc hn)).trans_le (card_all_le g)) hlog)
    hlog
  refine ⟨added, ?_, hvisited⟩
  rw [c.run_after h hterm hc, hrun]
  rfl

/-- **A sequence of calls.** -/
theorem runCalls_spec (h : Registered g g.stages s) (hterm : Terminated g)
    (hacyclic : g.Acyclic) {calls : List (Call S)} (hcalls : ∀ c ∈ calls, c.Known g)
    (hlog : Ordered s.succ log) :
    ∃ log', runCalls g calls (s.after g log) = .ok (s.after g log') ∧ Ordered s.succ log' ∧
      log ⊆ log' ∧ ∀ c ∈ calls, ∀ n ∈ c.targets g s, n ∈ log' := by
  induction calls generalizing log with
  | nil => exact ⟨log, rfl, hlog, fun _ h => h, by simp⟩
  | cons c calls ih =>
    obtain ⟨added, hrun, hvisited⟩ :=
      c.run_spec h hterm hacyclic (hcalls c List.mem_cons_self) hlog
    obtain ⟨log', hruns, hordered, hsub, hmem⟩ :=
      ih (fun c hc => hcalls c (List.mem_cons_of_mem _ hc)) hvisited.ordered
    refine ⟨log', ?_, hordered, ?_, ?_⟩
    · rw [runCalls, List.foldlM_cons, hrun]
      exact hruns
    · exact fun n hn => hsub (List.mem_append_left _ hn)
    · intro c' hc' n hn
      rcases List.mem_cons.mp hc' with rfl | hc'
      · exact hsub (hvisited.mem n hn)
      · exact hmem c' hc' n hn

theorem Registered.after_nil (h : Registered g g.stages s) : s.after g [] = s := by
  obtain ⟨nodelist, deps, executed, calls, log⟩ := s
  obtain rfl : executed = fun _ => false := h.executed
  obtain rfl : calls = [] := h.calls
  obtain rfl : log = [] := h.log
  simp [State.after]

end Runs

/-! ## The order of initialization -/

/-- The nodes that have run did so once, each after all that it needs, and the functions called
are theirs, in this order. -/
structure InOrder (g : Graph N S) (s : State N) : Prop where
  nodup : s.log.Nodup
  after : ∀ pre n post, s.log = pre ++ n :: post → ∀ d, g.Needs n d → d ∈ pre
  calls : s.calls = s.log.filter g.func

/-- `init_setup` returns without a write beyond the array of a stage, and every sequence of
calls returns after it: in order, with all nodes that entail a stage that was run, and with all
nodes after `init_run_all`. -/
def Graph.Obeys (g : Graph N S) : Prop :=
  ∃ s₀, initSetup g = .ok s₀ ∧ ∀ calls, (∀ c ∈ calls, Call.Known g c) →
    ∃ s, runCalls g calls s₀ = .ok s ∧ InOrder g s ∧
      (∀ stage, .stageRun stage ∈ calls → ∀ n ∈ g.nodes, stage ∈ g.entailsStages n →
        n ∈ s.log) ∧
      (.runAll ∈ calls → ∀ n ∈ g.nodes, n ∈ s.log)

/-- The registration of every stage stays within its bounds, and what the first stage does not
collect is needed by something that it collects. -/
structure Graph.Fits (g : Graph N S) : Prop where
  early : ∀ stage ∈ g.stages, g.NamedEarly stage (g.scanned stage)
  terminated : Terminated g
  last : ∀ stage, g.stages.head? = some stage → ∀ n, g.nodes.getLast? = some n →
    stage ∈ g.entailsStages n → ∃ m ∈ g.entries stage, TransGen g.Needs m n

section Order

variable {g : Graph N S} {s : State N} {n d m : N} {stage : S} {log : List N}

/-- Below a node that a stage needs, every dependency is followed but those of the stage. -/
theorem Registered.reach_of_needs (h : Registered g g.stages s) (hacyclic : g.Acyclic)
    (hhead : g.stages.head? = some stage) (hm : g.Needs (g.phonyNode stage) m)
    (hn : TransGen g.Needs m n) : ReflTransGen (Dep s.succ) m n := by
  have hstep : ∀ x y, ReflTransGen g.Needs m x → g.Needs x y → Dep s.succ x y := by
    intro x y hx hxy
    rcases h.dep_of_needs hxy with hdep | ⟨stage', hhead', rfl, -⟩
    · exact hdep
    · obtain rfl := Option.some_inj.mp (hhead.symm.trans hhead')
      exact absurd (TransGen.head' hm hx) (hacyclic _)
  induction hn with
  | single hmn => exact .single (hstep _ _ .refl hmn)
  | tail hmn hstep' ih => exact ih.tail (hstep _ _ hmn.to_reflTransGen hstep')

/-- An ordered log has all that is needed, also where the registration has left it out. -/
theorem Graph.Fits.inOrder (hfits : g.Fits) (h : Registered g g.stages s)
    (hacyclic : g.Acyclic) (hlog : Ordered s.succ log) : InOrder g (s.after g log) := by
  refine ⟨hlog.nodup, ?_, rfl⟩
  rintro pre n post (rfl : log = _) d hneeds
  rcases h.dep_of_needs hneeds with hdep | ⟨stage, hhead, rfl, hlast, hentails⟩
  · exact hlog.after pre n post rfl d hdep
  · obtain ⟨m, hm, hreach⟩ := hfits.last stage hhead d hlast hentails
    have hstage : stage ∈ g.stages := List.mem_of_mem_head? hhead
    have hdep : Dep s.succ (g.phonyNode stage) m := by
      rw [Dep, h.succ_phony hstage]
      exact hm
    have hpre : m ∈ pre := hlog.after pre _ post rfl m hdep
    exact hlog.prefix.mem_of_reach hpre
      (h.reach_of_needs hacyclic hhead (h.needs_of_dep hdep) hreach)

omit [DecidableEq N] [DecidableEq S] in
theorem InOrder.mem_of_needs (h : InOrder g s) (hn : n ∈ s.log) (hneeds : g.Needs n d) :
    d ∈ s.log := by
  obtain ⟨pre, post, hsplit⟩ := List.append_of_mem hn
  rw [hsplit]
  exact List.mem_append_left _ (h.after pre n post hsplit d hneeds)

/-- What the first stage runs, it has collected or something that it has collected needs it. -/
theorem Registered.reach_of_run (h : Registered g g.stages s)
    (hhead : g.stages.head? = some stage) (hlast : g.nodes.getLast? = some n)
    (hreach : ReflTransGen (Dep s.succ) (g.phonyNode stage) n) :
    ∃ m ∈ g.entries stage, TransGen g.Needs m n := by
  have hstage : stage ∈ g.stages := List.mem_of_mem_head? hhead
  have hnode : n ∈ g.nodes := List.mem_of_mem_getLast? hlast
  rcases hreach.cases_head with rfl | ⟨m, hdep, hmn⟩
  · exact absurd hnode (g.phonyNode_notMem stage hstage)
  rw [Dep, h.succ_phony hstage] at hdep
  refine ⟨m, hdep, ?_⟩
  have hne : m ≠ n := by
    rintro rfl
    have hm := (mem_entriesOf.mp hdep).1
    rw [Graph.scanned, if_pos hhead] at hm
    have hnodup := g.nodes_nodup
    rw [← List.dropLast_append_getLast? m hlast, List.nodup_append] at hnodup
    exact hnodup.2.2 m hm m (List.mem_singleton_self m) rfl
  have hle : ∀ n d, Dep s.succ n d → g.Needs n d := fun _ _ => h.needs_of_dep
  rcases reflTransGen_iff_eq_or_transGen.mp hmn with heq | htrans
  · exact absurd heq.symm hne
  · exact TransGen.mono hle m n htrans

/-- **When initialization is in order.** -/
theorem obeys_iff (hacyclic : g.Acyclic) : g.Obeys ↔ g.Fits := by
  constructor
  · rintro ⟨s₀, hsetup, hcalls⟩
    obtain ⟨hreg, h⟩ := initSetup_registered hsetup
    have hterm : Terminated g := by
      intro stage hs
      by_contra hlen
      obtain ⟨s, hrun, -⟩ := hcalls [.stageRun stage] (by simpa [Call.Known] using hs)
      have hone : initStageRun g stage s₀ = .ok s := by
        rw [runCalls, List.foldlM_cons] at hrun
        cases hx : Call.run g s₀ (.stageRun stage) with
        | error e =>
          rw [hx] at hrun
          cases hrun
        | ok s₁ =>
          rw [hx] at hrun
          cases hrun
          exact hx
      have hexecuted : s₀.executed (g.phonyNode stage) = false := by rw [h.executed]
      rw [initStageRun, hexecuted] at hone
      have hdeps : s₀.deps (g.phonyNode stage) = some ⟨g.entries stage, false⟩ := by
        rw [h.phony stage hs, decide_eq_false hlen]
      exact initNodeRun_unterminated hexecuted hdeps hone
    refine ⟨fun stage hs => (hreg stage hs).1, hterm, ?_⟩
    intro stage hhead n hlast hentails
    have hs : stage ∈ g.stages := List.mem_of_mem_head? hhead
    have hknown : (Call.stageRun stage : Call S).Known g := hs
    obtain ⟨s, hrun, -, hmem, -⟩ := hcalls [.stageRun stage] (by simpa using hknown)
    obtain ⟨added, hrun', hvisited⟩ := Call.run_spec h hterm hacyclic hknown Ordered.nil
    rw [h.after_nil] at hrun'
    rw [runCalls, List.foldlM_cons, hrun'] at hrun
    cases hrun
    have hn : n ∈ added :=
      hmem stage List.mem_cons_self n (List.mem_of_mem_getLast? hlast) hentails
    obtain ⟨p, hp, hreach⟩ := hvisited.reach n hn
    rw [List.mem_singleton.mp hp] at hreach
    exact h.reach_of_run hhead hlast hreach
  · intro hfits
    obtain ⟨s₀, hsetup, h⟩ := initSetup_of_registers (fun stage hs =>
      ⟨hfits.early stage hs, (hfits.terminated stage hs).trans (Nat.le_succ _)⟩)
    refine ⟨s₀, hsetup, ?_⟩
    intro calls hcalls
    obtain ⟨log, hrun, hordered, -, hmem⟩ :=
      runCalls_spec h hfits.terminated hacyclic hcalls Ordered.nil
    rw [h.after_nil] at hrun
    have hin := hfits.inOrder h hacyclic hordered
    refine ⟨_, hrun, hin, ?_, ?_⟩
    · intro stage hc n hn hentails
      have hphony : g.phonyNode stage ∈ log := hmem _ hc _ List.mem_cons_self
      exact hin.mem_of_needs hphony (Or.inr ⟨stage, hcalls _ hc, rfl, hn, hentails⟩)
    · intro hc n hn
      refine hmem _ hc n ?_
      rw [Call.targets, h.nodelist]
      exact List.mem_append_left _ hn

/-- `count` nodes that entail the stage 0; the first needs the second if `chained`. -/
def fan (count : ℕ) (chained : Bool) : Graph ℕ ℕ where
  nodes := List.range (count + 2)
  stages := [0]
  deps := fun n => if n = 0 ∧ chained = true then [1] else []
  entailsStages := fun n => if n < count + 2 then [0] else []
  func := fun n => n < count + 2
  phonyNode := fun stage => count + 2 + stage
  nodes_nodup := List.nodup_range
  stages_nodup := List.nodup_singleton 0
  deps_mem := by
    intro n _ d hd
    left
    rw [List.mem_range]
    split at hd
    · rw [List.mem_singleton.mp hd]
      omega
    · simp at hd
  phonyNode_inj := by
    intro stage _ stage' _ h
    omega
  phonyNode_notMem := by
    intro stage _ h
    rw [List.mem_range] at h
    omega
  phonyNode_entails := by
    intro stage _
    rw [if_neg (by omega)]

theorem fan_acyclic (count : ℕ) (chained : Bool) : (fan count chained).Acyclic := by
  refine Graph.acyclic_of_rank (fun n => if n = 1 then 0 else if n < count + 2 then 1 else 2) ?_
  rintro n d (⟨-, hd⟩ | ⟨stage, hstage, rfl, hd, -⟩)
  · have hnd : n = 0 ∧ d = 1 := by
      simp only [fan] at hd
      split at hd
      · rename_i h
        exact ⟨h.1, List.mem_singleton.mp hd⟩
      · simp at hd
    obtain ⟨rfl, rfl⟩ := hnd
    simp
  · have hd' : d < count + 2 := List.mem_range.mp hd
    show (if d = 1 then 0 else if d < count + 2 then 1 else 2)
      < (if count + 2 + stage = 1 then 0 else if count + 2 + stage < count + 2 then 1 else 2)
    rw [if_neg (show ¬ count + 2 + stage = 1 by omega),
      if_neg (show ¬ count + 2 + stage < count + 2 by omega), if_pos hd']
    split
    · omega
    · omega

/-- Two nodes that entail a stage, of which the first needs the second. -/
theorem obeys_iff_fan : (fan 0 true).Obeys ↔ (fan 0 true).Fits := obeys_iff (fan_acyclic 0 true)

/-- **The last node is forgotten**: of two nodes that entail a stage, only the first is run with
it.  **The array overflows**: 67 nodes entail a stage. -/
theorem obeys_fails :
    ((fan 0 false).Acyclic ∧ ∃ s₀ s, initSetup (fan 0 false) = .ok s₀ ∧
        initStageRun (fan 0 false) 0 s₀ = .ok s ∧ s.log = [0, 2] ∧
        1 ∈ (fan 0 false).nodes ∧ 0 ∈ (fan 0 false).entailsStages 1 ∧
        ¬ (fan 0 false).Obeys) ∧
      (fan 65 false).Acyclic ∧ initSetup (fan 65 false) = .error .outOfBounds ∧
        ¬ (fan 65 false).Obeys := by
  refine ⟨⟨fan_acyclic 0 false, _, _, rfl, rfl, rfl, by decide, by decide, ?_⟩,
    fan_acyclic 65 false, rfl, ?_⟩
  · rintro ⟨s₀, hsetup, h⟩
    cases hsetup
    obtain ⟨s, hrun, -, hmem, -⟩ := h [.stageRun 0] (by simp [Call.Known, fan])
    cases hrun
    exact absurd (hmem 0 List.mem_cons_self 1 (by decide) (by decide)) (by decide)
  · rintro ⟨s₀, hsetup, -⟩
    cases hsetup

end Order

end InitNode
