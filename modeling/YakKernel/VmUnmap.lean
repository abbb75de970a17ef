/-
# Unmapping a range

`vm_unmap` over the entries of one map: a round of the loop replaces an entry by its pieces
outside the range, and the loop leaves nothing inside.  The assertion of `carve_entry` on
`split_end` does not admit a cut at the end of the entry, which decides on which ranges the
function does what it is for.
-/
import YakKernel.VmCarve

namespace Vm

open Prog

variable {tree tree' : List MapEntry} {c e : MapEntry} {env : Env} {s s' : Vm}

/-! ## The loop -/

/-- An entry has addresses in `[start, endAddr)`, by the tests of the loop. -/
def Overlaps (start endAddr : ℕ) (e : MapEntry) : Prop := e.base < endAddr ∧ start < e.endAddr

instance (start endAddr : ℕ) (e : MapEntry) : Decidable (Overlaps start endAddr e) :=
  inferInstanceAs (Decidable (_ ∧ _))

/-- Where the loop stands in a tree that started as `tree₀`: what lies before `current` is out
of the range, what lies from there on is untouched, and `n` rounds suffice for it. -/
def Position (tree₀ tree : List MapEntry) (start endAddr n : ℕ) : Option MapEntry → Prop
  | none => (∀ e ∈ tree, ¬ Overlaps start endAddr e) ∧ 1 ≤ n
  | some current => current ∈ tree₀ ∧
      (∀ e, current.base ≤ e.base → (e ∈ tree ↔ e ∈ tree₀)) ∧
      (∀ e ∈ tree, e.base < current.base → ¬ Overlaps start endAddr e) ∧
      KeyedTree.countFrom key tree₀ current.base < n

section Loop

variable {tree₀ ps : List MapEntry} {start endAddr n fresh : ℕ}

/-- **A round moves on.**  It replaces the current entry by pieces outside the range. -/
theorem Position.advance (h : Position tree₀ tree start endAddr (n + 1) (some c))
    (hw : WellFormed tree) (hc : c ∈ tree) (hr : Replaced tree c ps tree')
    (hp : PiecesOf c fresh ps) (hout : ∀ p ∈ ps, ¬ Overlaps start endAddr p) :
    Position tree₀ tree' start endAddr n (rbtNext tree c) := by
  obtain ⟨hc₀, hsame, hbefore, hn⟩ := h
  have hpos : 0 < KeyedTree.countFrom key tree₀ c.base := by
    apply List.countP_pos_iff.mpr
    exact ⟨c, hc₀, by simp⟩
  cases hnx : rbtNext tree c with
  | none =>
    have hmax := KeyedTree.next_eq_none_iff.mp hnx
    refine ⟨?_, by omega⟩
    intro e he
    rcases (hr.mem e).mp he with ⟨het, hec⟩ | hep
    · apply hbefore e het
      apply lt_of_le_of_ne (hmax e het)
      intro hb
      exact hec (hw.sorted.eq_of_key het hc hb)
    · exact hout e hep
  | some nx =>
    obtain ⟨hnxt, hlt, hmin⟩ := hw.sorted.next_eq_some_iff.mp hnx
    simp only [key] at hlt hmin
    have hend := hw.endAddr_le hc hnxt hlt
    refine ⟨(hsame nx hlt.le).mp hnxt, ?_, ?_, ?_⟩
    · intro e he
      rw [← hsame e (hlt.le.trans he), hr.mem]
      constructor
      · rintro (⟨het, -⟩ | hep)
        · exact het
        · have h1 := (hp.sound e hep).lt
          have h2 := (hp.inside e hep).2
          omega
      · intro het
        left
        refine ⟨het, ?_⟩
        rintro rfl
        omega
    · intro e he hlt'
      rcases (hr.mem e).mp he with ⟨het, hec⟩ | hep
      · apply hbefore e het
        by_contra hge
        have hne : c.base ≠ e.base := fun hb => hec (hw.sorted.eq_of_key het hc hb.symm)
        have := hmin e het (by omega)
        omega
      · exact hout e hep
    · have hfewer : KeyedTree.countFrom key tree₀ nx.base
          < KeyedTree.countFrom key tree₀ c.base := KeyedTree.countFrom_lt hc₀ hlt
      omega

theorem Position.done (h : Position tree₀ tree start endAddr n (some c))
    (hbase : endAddr ≤ c.base) : ∀ e ∈ tree, ¬ Overlaps start endAddr e := by
  obtain ⟨-, -, hbefore, -⟩ := h
  intro e he
  by_cases hlt : e.base < c.base
  · exact hbefore e he hlt
  · rintro ⟨h1, -⟩
    omega

/-- An entry is what is left of an entry of `tree₀`, and ends where that ends, or at the range. -/
def LeftOf (tree₀ : List MapEntry) (start : ℕ) (e : MapEntry) : Prop :=
  ∃ c ∈ tree₀, c.base ≤ e.base ∧ e.endAddr ≤ c.endAddr ∧ e.type = c.type ∧
    (e.endAddr = c.endAddr ∨ e.endAddr = start)

/-- What `vm_unmap` keeps in every round: the thread's locks, a well-formed tree, and the
coverage outside the range. -/
structure Unmapping (s₀ : Vm) (m start endAddr : ℕ) (s : Vm) : Prop where
  held : s.held = s₀.held
  heap : s₀.heapNext ≤ s.heapNext
  wf : WellFormed (s.tree m)
  fresh : ∀ e ∈ s.tree m, e.ptr < s.heapNext
  outside : ∀ a, a < start ∨ endAddr ≤ a → coverage (s.tree m) a = coverage (s₀.tree m) a
  left : ∀ e ∈ s.tree m, LeftOf (s₀.tree m) start e

/-- The range cuts no entry at its end: an entry that it starts inside it also ends inside,
strictly. -/
def CutsInside (tree : List MapEntry) (start endAddr : ℕ) : Prop :=
  ∀ e ∈ tree, e.base < start → start < e.endAddr → start < endAddr ∧ endAddr < e.endAddr

instance (tree : List MapEntry) (start endAddr : ℕ) : Decidable (CutsInside tree start endAddr) :=
  inferInstanceAs (Decidable (∀ e ∈ tree, _))

variable {s₀ : Vm} {m : ℕ}

theorem Unmapping.replace (h : Unmapping s₀ m start endAddr s) (hc : c ∈ s.tree m)
    (hp : PiecesOf c s.heapNext ps) (hr : Replaced (s.tree m) c ps (s'.tree m))
    (hheld : s'.held = s.held) (hfresh : ∀ p ∈ ps, p.ptr < s'.heapNext)
    (hheap : s.heapNext ≤ s'.heapNext)
    (hcov : ∀ a, a < start ∨ endAddr ≤ a → c.Covers a → ∃ p ∈ ps, p.Covers a)
    (hends : ∀ p ∈ ps, p.endAddr = c.endAddr ∨ p.endAddr = start) :
    Unmapping s₀ m start endAddr s' := by
  have hw := hr.wellFormed h.wf hc h.fresh hp
  refine ⟨hheld.trans h.held, h.heap.trans hheap, hw, ?_, ?_, ?_⟩
  · intro e he
    rcases (hr.mem e).mp he with ⟨het, -⟩ | hep
    · exact (h.fresh e het).trans_le hheap
    · exact hfresh e hep
  · intro a ha
    rw [hr.coverage_eq h.wf hw hc hp (hcov a ha)]
    exact h.outside a ha
  · intro e he
    rcases (hr.mem e).mp he with ⟨het, -⟩ | hep
    · exact h.left e het
    · obtain ⟨c₀, hc₀, hbase, hend, htype, hedge⟩ := h.left c hc
      obtain ⟨hbase', hend'⟩ := hp.inside e hep
      have hview := hp.view e hep e.base ⟨le_rfl, (hp.sound e hep).lt⟩
      refine ⟨c₀, hc₀, by omega, by omega, (congrArg View.type hview).trans htype, ?_⟩
      rcases hends e hep with heq | heq
      · rw [heq]
        exact hedge
      · exact Or.inr heq

/-- **The piece to remove.**  `carve_entry` and the search after it leave in the tree the part
of the entry inside the range, and pieces outside. -/
theorem carveAndFind_spec (hq : env.Quiet) (hu : Unmapping s₀ m start endAddr s)
    (hc : c ∈ s.tree m) (hov : Overlaps start endAddr c)
    (hcut : c.base < start → start < endAddr ∧ endAddr < c.endAddr)
    (hlt : start ≤ endAddr) (hs : IsAligned start) (he : IsAligned endAddr) :
    (carveAndFind m c (max c.base start) (min c.endAddr endAddr)).Ends env s
      (fun r s' => ∃ x ps, r = (.success, some x) ∧ PiecesOf c s.heapNext (x :: ps) ∧
        Replaced (s.tree m) c (x :: ps) (s'.tree m) ∧
        (∀ p ∈ ps, ¬ Overlaps start endAddr p) ∧
        (∀ a, a < start ∨ endAddr ≤ a → c.Covers a → ∃ p ∈ ps, p.Covers a) ∧
        (∀ p ∈ ps, p.endAddr = c.endAddr ∨ p.endAddr = start) ∧
        s'.held = s.held ∧ s.heapNext ≤ s'.heapNext ∧
        (∀ p ∈ ps, p.ptr < s'.heapNext) ∧ WellFormed (s'.tree m))
      (fun _ => False) := by
  have hcs := hu.wf.sound c hc
  have hclt := hcs.lt
  obtain ⟨ho1, ho2⟩ := hov
  unfold carveAndFind
  by_cases hcarve : c.base ≠ max c.base start ∨ c.endAddr ≠ min c.endAddr endAddr
  · have hend : endAddr < c.endAddr := by
      by_cases hlt' : c.base < start
      · exact (hcut hlt').2
      · omega
    have hse : min c.endAddr endAddr = endAddr := min_eq_right hend.le
    have hsb : max c.base start < endAddr := by
      by_cases hlt' : c.base < start
      · have := (hcut hlt').1
        omega
      · omega
    have hsba : IsAligned (max c.base start) := by
      rcases max_choice c.base start with h | h
      · rw [h]
        exact hcs.base_aligned
      · rw [h]
        exact hs
    rw [if_pos hcarve, hse]
    generalize hsbdef : max c.base start = sb at *
    have h1 : c.base ≤ sb := by omega
    simp only [ends_bind]
    refine (carveEntry_spec hq h1 (by omega) (by omega) hend).imp ?_
    rintro _ s' ⟨rfl, ht, hheld, hheap⟩
    have hp := splitPieces hcs (hu.fresh c hc) h1 hsb hend hsba he
    have hr := carveTree_replaced hu.wf hc hu.fresh h1 hsb hend hsba he
    have hw := hr.wellFormed hu.wf hc hu.fresh hp
    rw [← ht] at hr hw
    obtain ⟨-, m2, -⟩ := middlePiece_fields endAddr h1
    obtain ⟨r1, r2, r3⟩ := rightPiece_fields c sb endAddr
      (s.heapNext + (leftPieces c sb s.heapNext).length)
    simp only [ends_getState, ends_pure]
    refine ⟨middlePiece c sb endAddr, outerPieces c sb endAddr s.heapNext, ?_, hp, hr, ?_, ?_, ?_,
      hheld, by omega, ?_, hw⟩
    · congr 1
      rw [mapLowerBound, hw.sorted.lowerBound_eq_some_iff]
      refine ⟨(hr.mem _).mpr (Or.inr List.mem_cons_self), m2.ge, ?_⟩
      intro y _ hy
      exact m2.le.trans hy
    · intro p hps
      rcases List.mem_cons.mp hps with rfl | hps
      · rintro ⟨h2, -⟩
        omega
      · obtain ⟨-, -, l3, -, l5⟩ := mem_leftPieces hps
        rintro ⟨-, h2⟩
        omega
    · rintro a ha ⟨ha1, ha2⟩
      by_cases hleft : a < start
      · have hl : c.base < sb := by omega
        obtain ⟨l1, l2, l3⟩ := leftPiece_fields c sb s.heapNext
        refine ⟨leftPiece c sb s.heapNext, ?_, by omega, by omega⟩
        rw [outerPieces, leftPieces, if_pos hl]
        simp
      · exact ⟨_, List.mem_cons_self, by omega, by omega⟩
    · intro p hps
      rcases List.mem_cons.mp hps with rfl | hps
      · exact Or.inl r3
      · obtain ⟨-, -, l3, -, l5⟩ := mem_leftPieces hps
        exact Or.inr (by omega)
    · intro p hps
      rcases List.mem_cons.mp hps with rfl | hps
      · omega
      · obtain ⟨l1, -, -, -, -⟩ := mem_leftPieces hps
        omega
  · rw [if_neg hcarve, ends_pure]
    refine ⟨c, [], rfl, PiecesOf.self _ hcs, Replaced.self hu.wf hc, by simp, ?_, by simp, rfl,
      le_rfl, by simp, hu.wf⟩
    rintro a ha ⟨ha1, ha2⟩
    omega

/-- **One round.** -/
theorem unmapRound_spec (hq : env.Quiet) (hn : NoMutex s₀.held)
    (hcut : CutsInside (s₀.tree m) start endAddr) (hlt : start ≤ endAddr) (hs : IsAligned start)
    (he : IsAligned endAddr) {current : Option MapEntry}
    (hu : Unmapping s₀ m start endAddr s)
    (hp : Position (s₀.tree m) (s.tree m) start endAddr (n + 1) current) :
    (unmapRound m start endAddr current).Ends env s
      (fun r s' => Unmapping s₀ m start endAddr s' ∧
        match r with
        | .inl next => Position (s₀.tree m) (s'.tree m) start endAddr n next
        | .inr rv => rv = .success ∧ ∀ e ∈ s'.tree m, ¬ Overlaps start endAddr e)
      (fun _ => False) := by
  cases current with
  | none => exact ⟨hu, rfl, hp.1⟩
  | some c =>
    have hc₀ : c ∈ s₀.tree m := hp.1
    have hc : c ∈ s.tree m := (hp.2.1 c le_rfl).mpr hc₀
    simp only [unmapRound, ends_ite, ends_bind, ends_getState, ends_pure]
    refine ⟨fun h => ⟨hu, trivial, hp.done h⟩, fun hbase => ⟨fun hskip => ⟨hu, ?_⟩, fun hov => ?_⟩⟩
    · refine hp.advance hu.wf hc (Replaced.self hu.wf hc)
        (PiecesOf.self s.heapNext (hu.wf.sound c hc)) ?_
      intro p hpc
      rw [List.mem_singleton.mp hpc]
      rintro ⟨h1, h2⟩
      omega
    · have hov' : Overlaps start endAddr c := ⟨by omega, by omega⟩
      refine (carveAndFind_spec hq hu hc hov' ?_ hlt hs he).imp ?_
      · intro hbs
        exact hcut c hc₀ hbs hov'.2
      · rintro _ s₁ ⟨x, ps, rfl, hpx, hrx, hout, hcov, hends, hheld, hheap, hfresh, hw⟩
        simp only [Status.isErr_success, Bool.false_eq_true, not_false_eq_true, false_imp_iff,
          true_and, forall_const, ends_bind, pmapUnmapRange, ends_change]
        have hx := hpx.sound x List.mem_cons_self
        refine (derefEntry_same hq ?_ hx).imp ?_
        · show NoMutex s₁.held
          rw [hheld, hu.held]
          exact hn
        intro _ s₂ h₂
        have ht : (s₂.setTree m (rbtRemove (s₂.tree m) x)).tree m = rbtRemove (s₁.tree m) x := by
          rw [tree_setTree, h₂.tree_eq, tree_setPmap]
        have hdrop := hrx.drop hu.wf hw hc hpx
        rw [← ht] at hdrop
        rw [ends_pure]
        refine ⟨hu.replace hc hpx.of_cons hdrop ?_ ?_ ?_ hcov hends, ?_⟩
        · exact h₂.held.trans hheld
        · intro p hp
          show p.ptr < s₂.heapNext
          rw [h₂.heapNext]
          exact hfresh p hp
        · show s.heapNext ≤ s₂.heapNext
          rw [h₂.heapNext]
          exact hheap
        · exact hp.advance hu.wf hc hdrop hpx.of_cons hout

theorem firstOverlap_spec (start : ℕ) (hw : WellFormed tree) (hne : tree ≠ []) :
    ∃ c, firstOverlap tree start = some c ∧ c ∈ tree ∧
      (∀ e ∈ tree, e.base < c.base → e.endAddr ≤ start) ∧
      (start < c.endAddr ∨ start ≤ c.base ∨ ∀ e ∈ tree, e.base ≤ c.base) := by
  have hprev : ∀ c ∈ tree, (∀ e ∈ tree, e.base < c.base → e.base < start) →
      (start ≤ c.base ∨ ∀ e ∈ tree, e.base ≤ c.base) →
      ∃ c', (match rbtPrev tree c with
        | none => some c
        | some prev => if start < prev.endAddr then some prev else some c) = some c' ∧
        c' ∈ tree ∧ (∀ e ∈ tree, e.base < c'.base → e.endAddr ≤ start) ∧
        (start < c'.endAddr ∨ start ≤ c'.base ∨ ∀ e ∈ tree, e.base ≤ c'.base) := by
    intro c hc hbelow hlast
    cases hp : rbtPrev tree c with
    | none =>
      refine ⟨c, rfl, hc, ?_, Or.inr hlast⟩
      intro e he hlt
      exact absurd hlt (KeyedTree.prev_eq_none_iff.mp hp e he).not_gt
    | some p =>
      obtain ⟨hpt, hpc, hpmax⟩ := hw.sorted.prev_eq_some hp
      have hps : p.base < start := hbelow p hpt hpc
      by_cases hov : start < p.endAddr
      · refine ⟨p, if_pos hov, hpt, ?_, Or.inl hov⟩
        intro e he hlt
        have := hw.endAddr_le he hpt hlt
        omega
      · refine ⟨c, if_neg hov, hc, ?_, Or.inr hlast⟩
        intro e he hlt
        by_cases hep : e = p
        · rw [hep]
          omega
        · have hle : e.base ≤ p.base := hpmax e he hlt
          have hne' : e.base ≠ p.base := fun hb => hep (hw.sorted.eq_of_key he hpt hb)
          have := hw.endAddr_le he hpt (by omega)
          omega
  unfold firstOverlap
  cases hlb : mapLowerBound tree start with
  | some lb =>
    obtain ⟨hlbt, hge, hmin⟩ := hw.sorted.lowerBound_eq_some_iff.mp hlb
    refine hprev lb hlbt ?_ (Or.inl hge)
    intro e he hlt
    by_contra hge'
    exact absurd hlt (hmin e he (not_lt.mp hge')).not_gt
  | none =>
    have hall := KeyedTree.lowerBound_eq_none_iff.mp hlb
    obtain ⟨mx, hmx⟩ := Option.ne_none_iff_exists'.mp (mt List.getLast?_eq_none_iff.mp hne)
    obtain ⟨hmxt, hmax⟩ := hw.sorted.getLast?_eq_some hmx
    rw [hmx]
    exact hprev mx hmxt (fun e he _ => hall e he) (Or.inr hmax)

theorem Position.initial (hc : c ∈ tree)
    (hbefore : ∀ e ∈ tree, e.base < c.base → e.endAddr ≤ start) :
    Position tree tree start endAddr (tree.length + 1) (some c) := by
  refine ⟨hc, fun _ _ => Iff.rfl, ?_, ?_⟩
  · intro e he hlt
    have := hbefore e he hlt
    rintro ⟨-, h2⟩
    omega
  · exact Nat.lt_succ_of_le (KeyedTree.countFrom_le _ _)

/-- **The loop of `vm_unmap`** on a range that cuts no entry at its end. -/
theorem unmapLoop_spec (hq : env.Quiet) (hn : NoMutex s.held) (hw : WellFormed (s.tree m))
    (hf : ∀ e ∈ s.tree m, e.ptr < s.heapNext) (hne : s.tree m ≠ [])
    (hcut : CutsInside (s.tree m) start endAddr) (hlt : start ≤ endAddr) (hs : IsAligned start)
    (he : IsAligned endAddr) :
    (loop (unmapRound m start endAddr) .diverges ((s.tree m).length + 1)
        (firstOverlap (s.tree m) start)).Ends env s
      (fun rv s' => Unmapping s m start endAddr s' ∧ rv = .success ∧
        ∀ e ∈ s'.tree m, ¬ Overlaps start endAddr e)
      (fun _ => False) := by
  obtain ⟨c, hc, hct, hbefore, -⟩ := firstOverlap_spec start hw hne
  rw [hc]
  refine Ends.loop (I := fun n current s' => Unmapping s m start endAddr s' ∧
    Position (s.tree m) (s'.tree m) start endAddr n current) _ ?_ ?_ ?_
  · have hself : ∀ e ∈ s.tree m, LeftOf (s.tree m) start e :=
      fun e he => ⟨e, he, le_rfl, le_rfl, rfl, Or.inl rfl⟩
    exact ⟨⟨rfl, le_rfl, hw, hf, fun _ _ => rfl, hself⟩, Position.initial hct hbefore⟩
  · rintro (_ | c) s' ⟨-, hpos⟩
    · exact absurd hpos.2 (by omega)
    · exact absurd hpos.2.2.2 (by omega)
  · rintro n current s' ⟨hu, hpos⟩
    refine (unmapRound_spec hq hn hcut hlt hs he hu hpos).imp ?_
    rintro (next | rv) s'' ⟨hu', hr⟩
    · exact ⟨hu', hr⟩
    · exact ⟨hu', hr⟩

/-! ## Ranges that cut an entry at its end -/

/-- From an entry at or behind the end of the range on, the loop changes nothing. -/
theorem unmapLoop_idle {current : Option MapEntry}
    (h : ∀ c, current = some c → endAddr ≤ c.base) :
    (loop (unmapRound m start endAddr) .diverges n current).Ends env s
      (fun _ s' => s' = s) (fun _ => True) := by
  cases n with
  | zero => trivial
  | succ n =>
    rw [loop, ends_bind]
    cases current with
    | none => rfl
    | some c =>
      simp only [unmapRound, if_pos (h c rfl), ends_pure]

theorem firstOverlap_eq (hw : WellFormed tree) (he : e ∈ tree) (h1 : e.base ≤ start)
    (h2 : start < e.endAddr) : firstOverlap tree start = some e := by
  obtain ⟨c, hc, hct, hbefore, hlast⟩ := firstOverlap_spec start hw
    (List.ne_nil_of_mem he)
  rw [hc]
  by_contra hne
  have hce : c ≠ e := fun h => hne (h ▸ rfl)
  have hge : c.base ≤ e.base := by
    by_contra hlt
    have := hbefore e he (by omega)
    omega
  have hneb : c.base ≠ e.base := fun hb => hce (hw.sorted.eq_of_key hct he hb)
  have hend := hw.endAddr_le hct he (by omega)
  rcases hlast with h | h | h
  · omega
  · omega
  · have := h e he
    omega

theorem unmapLoop_assertion (hw : WellFormed (s.tree m)) (hc : c ∈ s.tree m)
    (h1 : c.base < start) (h2 : start < c.endAddr) (h3 : c.endAddr ≤ endAddr) :
    (loop (unmapRound m start endAddr) .diverges (n + 1) (firstOverlap (s.tree m) start)).Ends
      env s (fun _ _ => False) (fun _ => True) := by
  have hmax : max c.base start = start := max_eq_right h1.le
  have hmin : min c.endAddr endAddr = c.endAddr := min_eq_left h3
  rw [firstOverlap_eq hw hc h1.le h2, loop, ends_bind]
  simp only [unmapRound, if_neg (show ¬ endAddr ≤ c.base by omega), ends_bind, ends_getState,
    if_neg (show ¬ (c.endAddr ≤ start ∨ endAddr ≤ c.base) by omega), carveAndFind, hmax, hmin,
    if_pos (show c.base ≠ start ∨ c.endAddr ≠ c.endAddr from Or.inl h1.ne), carveEntry,
    ends_check]
  refine ⟨fun _ => ⟨fun h => ?_, fun _ => trivial⟩, fun _ => trivial⟩
  exact absurd h.2 (lt_irrefl _)

/-- After an empty cut the entry is not in the tree: its key is taken by the right piece. -/
theorem carveTree_replaced_empty (fresh : ℕ) (hw : WellFormed tree) (hc : c ∈ tree)
    (h1 : c.base < start)
    (h2 : start < c.endAddr) (hs : IsAligned start) :
    Replaced tree c (outerPieces c start start fresh) (carveTree tree c start start fresh) := by
  have hp := outerPieces_piecesOf fresh (hw.sound c hc) h1.le le_rfl h2 hs hs
  have hleft : Replaced tree c (leftPieces c start fresh)
      ((leftPieces c start fresh).foldl rbtInsert (rbtRemove tree c)) := by
    have hpl := hp.of_cons
    rw [leftPieces, if_pos h1] at hpl ⊢
    exact (Replaced.remove hw hc).insert hw hc hpl
  have hright := hleft.insert hw hc hp
  have htaken : carveTree tree c start start fresh
      = rbtInsert ((leftPieces c start fresh).foldl rbtInsert (rbtRemove tree c))
        (rightPiece c start start (fresh + (leftPieces c start fresh).length)) := by
    refine KeyedTree.insert_of_taken ((hright.mem _).mpr (Or.inr List.mem_cons_self)) ?_
    obtain ⟨-, r2, -⟩ := rightPiece_fields c start start
      (fresh + (leftPieces c start fresh).length)
    obtain ⟨-, m2, -⟩ := middlePiece_fields start h1.le
    exact r2.trans m2.symm
  rw [htaken]
  exact hright

/-- An empty range inside an entry takes the part behind it out of the map. -/
theorem unmapLoop_empty (hq : env.Quiet) (hn : NoMutex s.held) (hw : WellFormed (s.tree m))
    (hf : ∀ e ∈ s.tree m, e.ptr < s.heapNext) (hc : c ∈ s.tree m) (h1 : c.base < start)
    (h2 : start < c.endAddr) (hs : IsAligned start) :
    (loop (unmapRound m start start) .diverges (n + 1) (firstOverlap (s.tree m) start)).Ends
      env s (fun _ s' => (∀ e ∈ s'.tree m, ¬ e.Covers start) ∧ s'.held = s.held)
      (fun _ => True) := by
  have hmax : max c.base start = start := max_eq_right h1.le
  have hmin : min c.endAddr start = start := min_eq_right h2.le
  rw [firstOverlap_eq hw hc h1.le h2, loop, ends_bind]
  simp only [unmapRound, if_neg (show ¬ start ≤ c.base by omega), ends_bind, ends_getState,
    if_neg (show ¬ (c.endAddr ≤ start ∨ start ≤ c.base) by omega), carveAndFind, hmax, hmin,
    if_pos (show c.base ≠ start ∨ c.endAddr ≠ start from Or.inl h1.ne)]
  refine (carveEntry_spec hq h1.le h2 h1.le h2).mono ?_ (fun _ h => h.elim)
  rintro _ s₁ ⟨rfl, ht, hheld, -⟩
  have hp := outerPieces_piecesOf s.heapNext (hw.sound c hc) h1.le le_rfl h2 hs hs
  have hr := carveTree_replaced_empty s.heapNext hw hc h1 h2 hs
  rw [← ht] at hr
  have hw₁ := hr.wellFormed hw hc hf hp
  obtain ⟨-, r2, -⟩ := rightPiece_fields c start start
    (s.heapNext + (leftPieces c start s.heapNext).length)
  have hfind : mapLowerBound (s₁.tree m) start = some (rightPiece c start start
      (s.heapNext + (leftPieces c start s.heapNext).length)) := by
    rw [mapLowerBound, hw₁.sorted.lowerBound_eq_some_iff]
    refine ⟨(hr.mem _).mpr (Or.inr List.mem_cons_self), r2.ge, ?_⟩
    intro y _ hy
    exact r2.le.trans hy
  have hdrop := hr.drop hw hw₁ hc hp
  simp only [ends_bind, ends_pure, hfind, Status.isErr_success, Bool.false_eq_true, if_false,
    pmapUnmapRange, ends_change]
  refine (derefEntry_same hq ?_ (hp.sound _ List.mem_cons_self)).mono ?_ (fun _ h => h.elim)
  · show NoMutex s₁.held
    rw [hheld]
    exact hn
  intro _ s₂ h₂
  refine (unmapLoop_idle ?_).imp ?_
  · intro nx hnx
    obtain ⟨hnxt, hlt, -⟩ := hw.sorted.next_eq_some_iff.mp hnx
    have := hw.endAddr_le hc hnxt hlt
    omega
  · rintro _ _ rfl
    refine ⟨?_, h₂.held.trans hheld⟩
    rintro e he ⟨he1, he2⟩
    rw [tree_setTree, h₂.tree_eq, tree_setPmap] at he
    rcases (hdrop.mem e).mp he with ⟨het, hec⟩ | hep
    · exact hec (hw.eq_of_covers het hc ⟨he1, he2⟩ ⟨h1.le, h2⟩)
    · obtain ⟨-, -, l3, -, -⟩ := mem_leftPieces hep
      omega

end Loop

/-! ## Exactness -/

/-- `vm_unmap` is exact on one call: it returns `YAK_SUCCESS`, nothing covers the range
afterwards, every address outside is covered as before, and the entries are disjoint. -/
def UnmapExact (env : Env) (s : Vm) (m va length : ℕ) (flags : MapFlags) : Prop :=
  ∃ s', vmUnmap m va length flags env s = .ok (.success, s') ∧
    (∀ a, va ≤ a → a < va + length → ∀ e ∈ s'.tree m, ¬ e.Covers a) ∧
    (∀ a, a < va ∨ va + length ≤ a → coverage (s'.tree m) a = coverage (s.tree m) a) ∧
    (∀ e ∈ s'.tree m, ∀ e' ∈ s'.tree m, e ≠ e' → e.Apart e')

/-- A state in which `vm_unmap` may be called on `m`: the map is well-formed, the heap does not
give out the address of an entry again, and the thread holds no mutex, and the map lock only
when it says so. -/
structure UnmapReady (s : Vm) (m : ℕ) (flags : MapFlags) : Prop where
  wf : WellFormed (s.tree m)
  fresh : ∀ e ∈ s.tree m, e.ptr < s.heapNext
  noMutex : NoMutex s.held
  unlocked : flags.lockHeld = false → s.held (.map m) = none

section Exact

variable {m va length : ℕ} {flags : MapFlags}

theorem alignDown_of_isAligned (h : IsAligned va) : alignDown va = va := by
  unfold IsAligned at h
  unfold alignDown
  simp only [pageSize] at *
  omega

theorem alignUp_of_isAligned (h : IsAligned length) (hlt : length < 2 ^ 64) :
    alignUp length = length := by
  unfold IsAligned at h
  unfold alignUp wadd
  simp only [pageSize] at *
  omega

/-- The guard of `vm_unmap`: what its body does from a state with the same entries. -/
theorem ends_vmUnmap (hq : env.Quiet) (hr : UnmapReady s m flags) (hva : IsAligned va)
    (hlen : IsAligned length) (hwrap : va + length < 2 ^ 64) {Q : Status → List MapEntry → Prop}
    {R : Failure → Prop}
    (hbody : ∀ s₁, UnmapReady s₁ m { flags with lockHeld := true } → s₁.tree m = s.tree m →
      (if s₁.tree m = [] then pure .success else
        loop (unmapRound m va (va + length)) .diverges ((s₁.tree m).length + 1)
          (firstOverlap (s₁.tree m) va)).Ends env s₁
        (fun rv s' => Q rv (s'.tree m) ∧ s'.held = s₁.held) R) :
    (vmUnmap m va length flags).Ends env s (fun rv s' => Q rv (s'.tree m)) R := by
  simp only [vmUnmap, alignDown_of_isAligned hva, alignUp_of_isAligned hlen (by omega),
    show wadd va length = va + length from Nat.mod_eq_of_lt hwrap]
  have hbody' : ∀ s₁, UnmapReady s₁ m { flags with lockHeld := true } →
      s₁.tree m = s.tree m →
      (do
        let s ← getState
        if s.tree m = [] then
          return .success
        loop (unmapRound m va (va + length)) .diverges ((s.tree m).length + 1)
          (firstOverlap (s.tree m) va) : VmM Status).Ends env s₁
        (fun rv s' => Q rv (s'.tree m) ∧ s'.held = s₁.held) R := by
    intro s₁ h₁ ht
    rw [ends_bind, ends_getState]
    exact hbody s₁ h₁ ht
  cases hf : flags.lockHeld with
  | true =>
    refine (hbody' s ?_ rfl).imp (fun _ _ h => h.1)
    exact ⟨hr.wf, hr.fresh, hr.noMutex, by simp⟩
  | false =>
    have htree : ((granted env s).setHeld (.map m) (some .exclusive)).tree m = s.tree m := by
      simp [tree, hq.interfere]
    refine ends_guardRwlock (hr.unlocked hf) ((hbody' _ ?_ htree).imp ?_)
    · refine ⟨?_, ?_, ?_, by simp⟩
      · rw [htree]
        exact hr.wf
      · rw [htree]
        simpa [hq.interfere] using hr.fresh
      · intro l hl
        simp [hr.noMutex l hl, hl m]
    · rintro rv s' ⟨hQ, hheld⟩
      refine ⟨?_, hQ⟩
      rw [hheld]
      simp

/-- **When `vm_unmap` is exact.**  On page-aligned ranges that do not wrap, it is exact if and
only if an entry that the range starts inside also reaches beyond a range that is not empty. -/
theorem vmUnmap_exact_iff (hq : env.Quiet) (hr : UnmapReady s m flags) (hva : IsAligned va)
    (hlen : IsAligned length) (hwrap : va + length < 2 ^ 64) :
    UnmapExact env s m va length flags ↔ CutsInside (s.tree m) va (va + length) := by
  have hend : IsAligned (va + length) := by
    unfold IsAligned pageSize at *
    omega
  constructor
  · rintro ⟨s', hs', hinside, hout, -⟩ e he h1 h2
    by_contra hcut
    have hcov : coverage (s'.tree m) va = none → length ≠ 0 := by
      rintro hnone rfl
      have h3 : coverage (s.tree m) va = some (e.view va) :=
        hr.wf.coverage_iff.mpr ⟨e, he, ⟨h1.le, h2⟩, rfl⟩
      rw [← hout va (Or.inr (by omega)), hnone] at h3
      cases h3
    refine (ends_vmUnmap (Q := fun _ tree' => coverage tree' va = none ∧ length = 0)
      (R := fun _ => True) hq hr hva hlen hwrap ?_).of_ok hs' |>.elim hcov
    intro s₁ hr₁ ht₁
    rw [← ht₁] at he
    rw [if_neg (List.ne_nil_of_mem he)]
    by_cases h3 : e.endAddr ≤ va + length
    · exact (unmapLoop_assertion hr₁.wf he h1 h2 h3).imp (fun _ _ h => h.elim)
    · have h4 : length = 0 := by omega
      subst h4
      refine (unmapLoop_empty hq hr₁.noMutex hr₁.wf hr₁.fresh he h1 h2 hva).imp ?_
      rintro _ s₂ ⟨hnone, hheld⟩
      refine ⟨⟨?_, rfl⟩, hheld⟩
      simpa [coverage, vmMapLookupEntryLocked] using hnone
  · intro hcut
    have hspec := ends_vmUnmap (Q := fun rv tree' => rv = .success ∧ WellFormed tree' ∧
        (∀ e ∈ tree', ¬ Overlaps va (va + length) e) ∧
        ∀ a, a < va ∨ va + length ≤ a → coverage tree' a = coverage (s.tree m) a)
      (R := fun _ => False) hq hr hva hlen hwrap ?_
    · obtain ⟨rv, s', hs', rfl, hw', hno, hout⟩ := hspec.exists_ok
      refine ⟨s', hs', ?_, hout, hw'.apart⟩
      rintro a h1 h2 e he ⟨h3, h4⟩
      exact hno e he ⟨by omega, by omega⟩
    · intro s₁ hr₁ ht₁
      by_cases hne : s₁.tree m = []
      · rw [if_pos hne]
        refine ⟨⟨rfl, hr₁.wf, by simp [hne], fun _ _ => by rw [ht₁]⟩, rfl⟩
      · rw [if_neg hne]
        rw [← ht₁] at hcut
        refine (unmapLoop_spec hq hr₁.noMutex hr₁.wf hr₁.fresh hne hcut (by omega) hva
          hend).imp ?_
        rintro rv s' ⟨hu, rfl, hno⟩
        refine ⟨⟨rfl, hu.wf, hno, ?_⟩, hu.held⟩
        rw [← ht₁]
        exact hu.outside

/-- Two anonymous mappings of two pages each, in map 1. -/
def twoEntries : Vm :=
  { empty.setTree 1
      [{ initMapEntry 1 0 0x1000 0x3000 ⟨true, true, false, true, false⟩ .shared 3 .obj with
          object := some 3 },
        { initMapEntry 2 0 0x4000 0x6000 ⟨true, false, false, true, false⟩ .shared 3 .obj with
          object := some 4 }] with
    objects := fun _ => ⟨∅, 1⟩
    heapNext := 5 }

theorem twoEntries_ready : UnmapReady twoEntries 1 {} where
  wf :=
    { sorted := by
        show List.Pairwise _ [_, _]
        simp [initMapEntry, key]
      sound := by
        intro e he
        have he' : e ∈ [_, _] := he
        simp only [List.mem_cons, List.not_mem_nil, or_false] at he'
        rcases he' with rfl | rfl
        · constructor <;> simp [initMapEntry, IsAligned, pageSize]
        · constructor <;> simp [initMapEntry, IsAligned, pageSize]
      apart := by
        show ∀ e ∈ [_, _], ∀ e' ∈ [_, _], _
        simp [initMapEntry, MapEntry.Apart]
      ptr := by
        show ∀ e ∈ [_, _], ∀ e' ∈ [_, _], _
        simp [initMapEntry] }
  fresh := by
    show ∀ e ∈ [_, _], _
    simp [initMapEntry, twoEntries]
  noMutex := fun _ _ => rfl
  unlocked := fun _ => rfl

/-- The whole of the first mapping and the head of the second go. -/
theorem vmUnmap_exact_twoEntries :
    UnmapExact (.alone (fun _ => none)) twoEntries 1 0x1000 0x4000 {} :=
  (vmUnmap_exact_iff ⟨fun _ _ => rfl, fun _ => rfl⟩ twoEntries_ready (by decide) (by decide)
    (by decide)).mpr (by decide)

/-- **The tail of a mapping cannot be unmapped**: the assertion of `carve_entry` fails. -/
theorem vmUnmap_tail_fails :
    UnmapReady twoEntries 1 {} ∧ IsAligned 0x2000 ∧ IsAligned 0x1000 ∧
      0x2000 + 0x1000 < 2 ^ 64 ∧
      ¬ UnmapExact (.alone (fun _ => none)) twoEntries 1 0x2000 0x1000 {} := by
  refine ⟨twoEntries_ready, by decide, by decide, by decide, ?_⟩
  rintro ⟨s', hs', -⟩
  have hfail : (vmUnmap 1 0x2000 0x1000 {} (.alone (fun _ => none)) twoEntries).toOption.isNone
      = true := by decide
  rw [hs'] at hfail
  exact absurd hfail (by simp [Except.toOption])

end Exact

end Vm
