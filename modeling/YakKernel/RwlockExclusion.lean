/-
# The reader-writer lock excludes

Whatever the threads do, with finite timeouts or without, the lock word, the exclusive
count and the owner of a `struct rwlock` say who holds the lock: at most one thread holds
it exclusively, then nobody holds it shared, and no check of `exclusive_owner` fails.
-/
import YakKernel.Rwlock

namespace Rwlock

variable {T : Type*} {timeouts : Bool} {s s' : State T}

/-! ## The owner -/

/-- The thread is the one stored in `exclusive_owner`. -/
def Pc.Owns : Pc → Prop
  | .exclusive | .releaseExclusiveAssert | .releaseExclusiveSub | .releaseExclusiveStore => True
  | _ => False

theorem Pc.Owns.holdsExclusive {p : Pc} (h : p.Owns) : p.HoldsExclusive := by
  cases p with
  | exclusive | releaseExclusiveAssert | releaseExclusiveSub | releaseExclusiveStore =>
    exact trivial
  | _ => exact h.elim

theorem owns_unwait (p : Pc) (status : Status) : (p.unwait status).Owns ↔ p.Owns := by
  cases p <;> exact Iff.rfl

/-- `exclusive_owner` names the owner, and nobody when there is none. -/
def OwnerNamed (owner : Option T) (pc : T → Pc) : Prop :=
  ∀ t, owner = some t ↔ (pc t).Owns

/-- The changes of the owner that one access of `t` can make. -/
inductive OwnerChange (t : T) (owner owner' : Option T) (p p' : Pc) : Prop where
  | same : owner' = owner → (p'.Owns ↔ p.Owns) → OwnerChange t owner owner' p p'
  | store : owner' = some t → p.HoldsExclusive → p'.Owns → OwnerChange t owner owner' p p'
  | clear : owner' = none → p.Owns → ¬ p'.Owns → OwnerChange t owner owner' p p'

variable {lock lock' : Rwlock T} {t : T} {p p' : Pc} {woken : List (WaitBlock T)}

theorem not_owns_afterReleaseShared (upgrade : Bool) : ¬ (afterReleaseShared upgrade).Owns := by
  cases upgrade <;> exact id

section Access

variable [DecidableEq T]

theorem runPc_ownerChange (h : runPc lock t p = .next lock' p' woken) :
    OwnerChange t lock.exclusiveOwner lock'.exclusiveOwner p p' := by
  cases p with
  | outside | shared | exclusive => simp [runPc] at h
  | sharedLoad | sharedCount | sharedCas | releaseSharedAssert | exclusiveLoad | exclusiveCas
  | exclusiveAssert | releaseExclusiveAssert | upgradeCas =>
    simp only [runPc] at h
    split_ifs at h <;> cases h <;> exact .same rfl Iff.rfl
  | sharedWait hasTimeout =>
    obtain ⟨event, rfl, -, ⟨-, -, rfl⟩ | ⟨-, -, rfl⟩⟩ := runWait_next h
    · exact .same rfl Iff.rfl
    · exact .same rfl Iff.rfl
  | exclusiveWait hasTimeout =>
    obtain ⟨event, rfl, -, ⟨-, -, rfl⟩ | ⟨-, -, rfl⟩⟩ := runWait_next h
    · exact .same rfl Iff.rfl
    · exact .same rfl Iff.rfl
  | sharedWaiting w =>
    obtain ⟨-, ⟨rfl, rfl⟩ | ⟨status, -, rfl, rfl⟩⟩ := runWaiting_next h
    · exact .same rfl Iff.rfl
    · split_ifs <;> exact .same rfl Iff.rfl
  | exclusiveWaiting w =>
    obtain ⟨-, ⟨rfl, rfl⟩ | ⟨status, -, rfl, rfl⟩⟩ := runWaiting_next h
    · exact .same rfl Iff.rfl
    · split_ifs <;> exact .same rfl Iff.rfl
  | releaseSharedSub upgrade =>
    simp only [runPc] at h
    split_ifs at h <;> cases h
    · exact .same rfl Iff.rfl
    · exact .same rfl (iff_of_false (not_owns_afterReleaseShared upgrade) id)
  | releaseSharedAlarm upgrade =>
    obtain ⟨event, -, rfl, rfl⟩ := runAlarm_next h
    exact .same rfl (iff_of_false (not_owns_afterReleaseShared upgrade) id)
  | releaseExclusiveAlarm =>
    obtain ⟨event, -, rfl, rfl⟩ := runAlarm_next h
    exact .same rfl Iff.rfl
  | exclusiveAdd | exclusiveSub | releaseExclusiveSub | releaseExclusiveAnd | upgradeLoad
  | upgradeAdd | upgradeSub =>
    cases h
    exact .same rfl Iff.rfl
  | exclusiveStore =>
    cases h
    exact .store rfl trivial trivial
  | releaseExclusiveStore =>
    cases h
    exact .clear rfl trivial id

variable {pc : T → Pc} {owner owner' : Option T} {state : ℕ}

omit [DecidableEq T] in
theorem StateCounts.exclusive_unique (h : StateCounts state pc) {u : T}
    (ht : (pc t).HoldsExclusive) (hu : (pc u).HoldsExclusive) : t = u := by
  rcases h with ⟨-, hex, -⟩ | ⟨-, hex, -⟩
  · exact absurd ht (Tally.zero_iff.mp hex t)
  · exact hex.eq_of_one ht hu

omit [DecidableEq T] in
theorem StateCounts.not_shared (h : StateCounts state pc) {u : T}
    (ht : (pc t).HoldsExclusive) : ¬ (pc u).HoldsShared := by
  rcases h with ⟨-, hex, -⟩ | ⟨hsh, -, -⟩
  · exact absurd ht (Tally.zero_iff.mp hex t)
  · exact Tally.zero_iff.mp hsh u

/-- **Step lemma for the owner.**  Whoever stores or clears it holds the exclusive bit, so
no other thread is the owner then. -/
theorem OwnerNamed.update (h : OwnerNamed owner pc) (hst : StateCounts state pc)
    (hc : OwnerChange t owner owner' (pc t) p') :
    OwnerNamed owner' (Function.update pc t p') := by
  intro u
  by_cases hu : u = t
  · subst hu
    rw [Function.update_self]
    cases hc with
    | same ho hp => rw [ho, hp, h u]
    | store ho _ hp => exact iff_of_true ho hp
    | clear ho _ hp =>
      rw [ho]
      exact iff_of_false nofun hp
  · rw [Function.update_of_ne hu]
    have hother : (pc t).HoldsExclusive → ¬ (pc u).Owns := by
      intro ht hown
      exact hu (hst.exclusive_unique hown.holdsExclusive ht)
    cases hc with
    | same ho _ => rw [ho, h u]
    | store ho ht _ =>
      rw [ho]
      refine iff_of_false ?_ (hother ht)
      rintro ⟨⟩
      exact hu rfl
    | clear ho ht _ =>
      rw [ho]
      exact iff_of_false nofun (hother ht.holdsExclusive)

theorem OwnerNamed.resumeAll (h : OwnerNamed owner pc) (woken : List (WaitBlock T)) :
    OwnerNamed owner (resumeAll Pc.unwait woken pc) := by
  intro u
  rw [h u]
  refine resumeAll_induction (Q := fun p : Pc => (pc u).Owns ↔ p.Owns) ?_ Iff.rfl
  intro wb _ p hp
  rw [hp, owns_unwait]

theorem OwnerNamed.move (h : OwnerNamed owner pc) (hp : p.Owns ↔ (pc t).Owns) :
    OwnerNamed owner (Function.update pc t p) := by
  intro u
  by_cases hu : u = t
  · subst hu
    rw [Function.update_self, hp, h u]
  · rw [Function.update_of_ne hu, h u]

/-- **Step lemma.**  Every step keeps the owner named. -/
theorem OwnerNamed.step {ev : Event T} (h : OwnerNamed s.lock.exclusiveOwner s.pc)
    (hcount : Counted s) (hs : step timeouts s ev = some s') :
    OwnerNamed s'.lock.exclusiveOwner s'.pc := by
  have hcall : ∀ {t before after}, s.call t before after = some s' →
      (after.Owns ↔ before.Owns) → OwnerNamed s'.lock.exclusiveOwner s'.pc := by
    intro t before after hs hp
    simp only [State.call] at hs
    split_ifs at hs with hb
    cases hs
    exact h.move (hb ▸ hp)
  simp only [Rwlock.step] at hs
  split_ifs at hs
  cases ev with
  | rwlockAcquireShared t hasTimeout =>
    simp only at hs
    split_ifs at hs
    exact hcall hs Iff.rfl
  | rwlockReleaseShared t => exact hcall hs Iff.rfl
  | rwlockAcquireExclusive t hasTimeout =>
    simp only at hs
    split_ifs at hs
    exact hcall hs Iff.rfl
  | rwlockReleaseExclusive t => exact hcall hs Iff.rfl
  | rwlockUpgradeToExclusive t => exact hcall hs Iff.rfl
  | run t =>
    simp only at hs
    cases hrun : runPc s.lock t (s.pc t) with
    | stuck => simp [hrun] at hs
    | panic =>
      simp only [hrun] at hs
      cases hs
      exact h
    | next lock p woken =>
      simp only [hrun] at hs
      cases hs
      exact (h.update hcount.state (runPc_ownerChange hrun)).resumeAll woken
  | timeout t =>
    simp only at hs
    cases hw : (s.pc t).waitState with
    | none => simp [hw] at hs
    | some w =>
      simp only [hw] at hs
      split_ifs at hs
      cases hs
      exact h.move (owns_unwait _ _)

/-- **Run lemma for the owner.** -/
theorem OwnerNamed.of_reachable (h : (system T timeouts).Reachable s) :
    OwnerNamed s.lock.exclusiveOwner s.pc := by
  have hI : Counted s ∧ OwnerNamed s.lock.exclusiveOwner s.pc := by
    apply TransitionSystem.Reachable.invariant ?_ ?_ h
    · rintro _ rfl
      exact ⟨counted_initial, fun _ => iff_of_false nofun id⟩
    · rintro _ _ _ ⟨hcount, hown⟩ hs
      exact ⟨hcount.step hs, hown.step hcount hs⟩
  exact hI.2

/-- The check of an acquirer finds no owner, the check of a releaser finds itself. -/
theorem runPc_owner_ne_panic (hcount : Counted s) (hown : OwnerNamed s.lock.exclusiveOwner s.pc)
    (ht : s.pc t = .exclusiveAssert ∨ s.pc t = .releaseExclusiveAssert) :
    runPc s.lock t (s.pc t) ≠ .panic := by
  rcases ht with ht | ht
  · have hnone : s.lock.exclusiveOwner = none := by
      refine Option.eq_none_iff_forall_ne_some.mpr (fun u hu => ?_)
      have howns := (hown u).mp hu
      have hself : (s.pc t).HoldsExclusive := by
        rw [ht]
        trivial
      obtain rfl := hcount.state.exclusive_unique hself howns.holdsExclusive
      rw [ht] at howns
      exact howns
    simp [ht, runPc, hnone]
  · have hself : s.lock.exclusiveOwner = some t := by
      rw [hown t, ht]
      trivial
    simp [ht, runPc, hself]

/-! ## Mutual exclusion -/

/-- **The lock excludes.**  In every reachable state at most one thread holds the lock
exclusively and then none holds it shared; the lock word is the number of shared holders, or
exactly the exclusive bit and one thread holds it; no check of `exclusive_owner` fails; and
`exclusive_count` counts, as a 32-bit counter, the exclusive holders (up to the decrement of
their release) and the pending acquirers. -/
theorem mutual_exclusion (h : (system T timeouts).Reachable s) :
    (∀ t u, (s.pc t).HoldsExclusive → (s.pc u).HoldsExclusive → t = u) ∧
    (∀ t u, (s.pc t).HoldsExclusive → ¬ (s.pc u).HoldsShared) ∧
    (Tally (fun t => (s.pc t).HoldsShared) s.lock.state ∨
      s.lock.state = rwlockExclusive ∧ Tally (fun t => (s.pc t).HoldsExclusive) 1) ∧
    (∀ t, s.pc t = .exclusiveAssert ∨ s.pc t = .releaseExclusiveAssert →
      runPc s.lock t (s.pc t) ≠ .panic) ∧
    ∃ n, Tally (fun t => (s.pc t).CountsExclusive) n ∧ s.lock.exclusiveCount = n % 2 ^ 32 := by
  have hcount := Counted.of_reachable h
  refine ⟨fun t u => hcount.state.exclusive_unique, fun t u => hcount.state.not_shared, ?_, ?_,
    hcount.count⟩
  · rcases hcount.state with ⟨hsh, -, -⟩ | ⟨-, hex, heq⟩
    · exact Or.inl hsh
    · exact Or.inr ⟨heq, hex⟩
  · exact fun t ht => runPc_owner_ne_panic hcount (OwnerNamed.of_reachable h) ht

end Access

/-- Thread 0 reads, thread 1 queues up to write, thread 0 upgrades. -/
def upgradeRun : List (Event ℕ) :=
  [Event.rwlockAcquireShared 0 true] ++ List.replicate 3 (Event.run 0) ++
    [Event.rwlockAcquireExclusive 1 true] ++ List.replicate 4 (Event.run 1) ++
    [Event.rwlockUpgradeToExclusive 0] ++ List.replicate 5 (Event.run 0)

/-- After the upgrade the reader alone holds the lock, and the writer is pending. -/
theorem mutual_exclusion_upgrade : ∃ s, (system ℕ true).Reachable s ∧
    s.pc 0 = .exclusive ∧ s.lock.exclusiveCount = 2 ∧
    (∀ t, (s.pc t).HoldsExclusive → t = 0) ∧ ∀ t, ¬ (s.pc t).HoldsShared := by
  obtain ⟨s, hs, hp⟩ := TransitionSystem.exists_reachable_of_run
    (show (system ℕ true).init initial from rfl) upgradeRun
    (fun s => s.pc 0 = .exclusive ∧ s.lock.exclusiveCount = 2) (by decide +kernel)
  simp only [decide_eq_true_eq] at hp
  obtain ⟨hone, hnone, -⟩ := mutual_exclusion hs
  have h0 : (s.pc 0).HoldsExclusive := by
    rw [hp.1]
    trivial
  exact ⟨s, hs, hp.1, hp.2, fun t ht => hone t 0 ht h0, fun t => hnone 0 t h0⟩

end Rwlock
