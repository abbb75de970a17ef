/-
# The way up the process tree

A new process has a greater pid than its parent, and the children of a process that is destroyed go
to init, which is older than all of them.  So `parent_process` never leads back.
-/
import YakKernel.ProcTreeSteps

namespace ProcTree

open Function

variable {s s' : State} {t p c z : ℕ}

/-- Parents come before their children. -/
def State.Descends (s : State) : Prop := ∀ c p, s.parentProcess c = some p → p < c

theorem parentProcess_release {next : State → State} (h : ∀ s, (next s).parentProcess = s.parentProcess) :
    (s.release t p next).parentProcess = s.parentProcess := by
  unfold State.release
  split
  · exact h _
  · rfl

theorem parentProcess_semaphoreSignal : (s.semaphoreSignal p).parentProcess = s.parentProcess := by
  unfold State.semaphoreSignal
  split <;> rfl

/-- Only `fork` and the loop of `process_destroy` change a parent. -/
theorem parentProcess_cases {e : Event} (hs : step s e = some s') :
    s'.parentProcess = s.parentProcess ∨
    (∃ t, s.threads t = some .user ∧
      s'.parentProcess = update s.parentProcess s.nextPid (some t)) ∨
    ∃ t z c rest, s.threads t = some (.destroying z) ∧ s.childList z = c :: rest ∧
      s'.parentProcess = update s.parentProcess c (some 1) := by
  unfold step at hs
  split at hs
  · cases hs
  · cases e with
    | fork t =>
      obtain ⟨ht, hs⟩ := Option.ite_none_right_eq_some.mp hs
      obtain rfl := Option.some.inj hs
      exact .inr (.inl ⟨t, ht, rfl⟩)
    | exec t =>
      obtain ⟨-, hs⟩ := Option.ite_none_right_eq_some.mp hs
      left
      rw [← Option.some.inj hs, State.exec]
      split <;> rfl
    | exit t =>
      obtain ⟨-, hs⟩ := Option.ite_none_right_eq_some.mp hs
      obtain rfl := Option.some.inj hs
      exact .inl rfl
    | waitpid t req =>
      obtain ⟨-, hs⟩ := Option.ite_none_right_eq_some.mp hs
      left
      rw [← Option.some.inj hs, State.waitpid]
      split <;> rfl
    | kthreadDestroy p =>
      obtain ⟨-, hs⟩ := Option.ite_none_left_eq_some.mp hs
      left
      rw [← Option.some.inj hs, State.kthreadDestroy, State.becomeZombie]
      split_ifs
      all_goals (try split) <;> (try split) <;> first | rfl | exact parentProcess_semaphoreSignal
    | run t =>
      obtain ⟨thread, ht, hs⟩ := Option.bind_eq_some_iff.1 hs
      by_cases hd : ∃ z c rest, thread = .destroying z ∧ s.childList z = c :: rest
      · obtain ⟨z, c, rest, rfl, hc⟩ := hd
        obtain rfl : s.takeChild t z c rest = s' := by
          simpa [State.advance, State.destroyChild, hc] using hs
        exact .inr (.inr ⟨t, z, c, rest, ht, hc, rfl⟩)
      · left
        cases thread with
        | user | waiting => cases hs
        | forking | moving =>
          simp only [State.advance, State.insertChild, State.giveToInit] at hs
          rcases State.guarded_eq_some hs with ⟨-, rfl⟩ | ⟨-, rfl⟩ <;> rfl
        | locking =>
          simp only [State.advance] at hs
          rcases State.acquire_eq_some hs with ⟨-, rfl⟩ | ⟨-, rfl⟩ <;> rfl
        | inserted =>
          obtain rfl := Option.some.inj hs
          rfl
        | waitNext =>
          rw [← Option.some.inj hs, State.schedWait]
          split <;> rfl
        | scanning req rest found =>
          cases rest with
          | nil =>
            rw [← Option.some.inj hs]
            refine parentProcess_release fun s => ?_
            split <;> rfl
          | cons c rest =>
            rw [← Option.some.inj hs, State.lookAt]
            split_ifs <;> rfl
        | reaping z =>
          simp only [State.advance, State.lockZombie] at hs
          split_ifs at hs
          · rw [← Option.some.inj hs]
            rfl
          · rw [← Option.some.inj hs]
            rfl
          · rcases State.acquire_eq_some hs with ⟨-, rfl⟩ | ⟨-, rfl⟩ <;> rfl
        | destroying z =>
          cases hc : s.childList z with
          | cons c rest => exact absurd ⟨z, c, rest, rfl, hc⟩ hd
          | nil =>
            obtain rfl : s.release t z _ = s' := by
              simpa [State.advance, State.destroyChild, hc] using hs
            exact parentProcess_release fun _ => rfl
        | freeing z =>
          rw [← Option.some.inj hs, State.free]
          split
          · rfl
          · exact parentProcess_release fun _ => rfl

/-- **Step lemma.** New parents come before their children, too. -/
theorem step_descends (hinv : WellFormed s) (h : s.Descends) {e : Event}
    (hs : step s e = some s') : s'.Descends := by
  obtain ⟨place, hinv⟩ := hinv
  intro c p hp
  rcases parentProcess_cases hs with heq | ⟨t, ht, heq⟩ | ⟨t, z, c', rest, ht, hc, heq⟩
  · rw [heq] at hp
    exact h c p hp
  · -- the forking process is there, so that its pid is below the next one
    rw [heq] at hp
    by_cases hcn : c = s.nextPid
    · rw [hcn, update_self, Option.some.injEq] at hp
      rw [hcn, ← hp]
      by_contra hle
      cases (hinv.fresh t (not_lt.mp hle)).symm.trans (hinv.allocated ht)
    · rw [update_of_ne hcn] at hp
      exact h c p hp
  · -- the child of a zombie goes to init; the zombie is not the kernel
    rw [heq] at hp
    by_cases hcc : c = c'
    · rw [hcc, update_self, Option.some.injEq] at hp
      rw [hcc, ← hp]
      have hlist : place c' = some (.list z) := hinv.place_list (hc ▸ List.mem_cons_self)
      have hzero := ((hinv.placed c').mp (by rw [hlist]; rfl)).1
      have hlt := h c' z (hinv.named c' z hlist).1
      have hzombie : s.state z = .zombie := hinv.progress t _ ht
      have hz : z ≠ 0 := by
        rintro rfl
        cases hzombie.symm.trans hinv.kernel.2.2.2
      omega
    · rw [update_of_ne hcc] at hp
      exact h c p hp

/-- **Run lemma.** The invariant holds in every state reached, and parents come first. -/
theorem reachable_descends (h : system.Reachable s) : WellFormed s ∧ s.Descends := by
  apply h.invariant
  · rintro s rfl
    refine ⟨⟨_, boot_inv⟩, ?_⟩
    intro c p hp
    obtain ⟨rfl, hp⟩ := Option.ite_none_right_eq_some.mp hp
    rw [← Option.some.inj hp]
    exact Nat.zero_lt_one
  · rintro s e s' ⟨hinv, hdesc⟩ hs
    exact ⟨step_wellFormed hinv hs, step_descends hinv hdesc hs⟩

/-- **The parents form a tree.**  Whatever is forked, exits and is reaped, the way up from a process
by `parent_process` never comes back, and the parent of a process that is alive is there. -/
theorem parents_acyclic (h : system.Reachable s) :
    (∀ p, ¬ Relation.TransGen (fun c p => s.parentProcess c = some p) p p) ∧
    ∀ c, c ≠ 0 → s.pidTable c = true → s.state c = .alive →
      ∃ p, s.parentProcess c = some p ∧ s.pidTable p = true := by
  obtain ⟨⟨place, hinv⟩, hdesc⟩ := reachable_descends h
  constructor
  · intro p hp
    have hlt : ∀ {c p}, Relation.TransGen (fun c p => s.parentProcess c = some p) c p → p < c := by
      intro c p hcp
      induction hcp with
      | single hstep => exact hdesc _ _ hstep
      | tail _ hstep ih => exact (hdesc _ _ hstep).trans ih
    exact lt_irrefl p (hlt hp)
  · intro c hzero hc halive
    exact hinv.exists_parent halive hzero hc

theorem parents_acyclic_fork : ∃ s, system.Reachable s ∧ s.parentProcess 2 = some 1 ∧
    ¬ Relation.TransGen (fun c p => s.parentProcess c = some p) 2 2 := by
  obtain ⟨s, hs, hp⟩ := TransitionSystem.exists_reachable_of_run
    (show system.init boot from rfl) [.fork 1, .run 1, .run 1]
    (fun s => decide (s.parentProcess 2 = some 1)) (by decide +kernel)
  exact ⟨s, hs, of_decide_eq_true hp, (parents_acyclic hs).1 2⟩

end ProcTree
