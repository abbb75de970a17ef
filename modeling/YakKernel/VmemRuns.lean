/-
# Runs of an arena

Every call keeps the invariant of an arena if the spans that come in fit and no allocation
leaves a free segment of one byte.
-/
import YakKernel.VmemFree

namespace Vmem

open SegmentQueue

variable {spans : List Span} {s s' : Arena} {size minaddr maxaddr : ℕ} {flags : Flags}

/-! ## The condition -/

/-- The allocation leaves neither one byte before it nor one behind it in its segment. -/
def LeavesNoByte (s : Arena) (size best at_ : ℕ) : Prop :=
  at_ - (s.tags best).start ≠ 1 ∧ (s.tags best).start + (s.tags best).size - (at_ + size) ≠ 1

/-- **The condition on a call.**  A span that is added or imported fits; the bounds of an
allocation are in order, or at least do not make it wrap around; and what it leaves of the segment
it is cut from is not a single byte. -/
def Careful (source : Option ℕ) (s : Arena) : Event → Prop
  | .add addr size _ => Fits s addr size
  | .xalloc size minaddr maxaddr flags rv =>
    (maxaddr = 0 ∨ minaddr ≤ maxaddr ∨ minaddr + size < 2 ^ 64) ∧
    match search s size minaddr maxaddr flags, source with
    | some (best, at_), _ => LeavesNoByte s size best at_
    | none, none => True
    | none, some k => minaddr = 0 → maxaddr = 0 → rv ≠ 0 → Fits s rv (alignUp size (2 ^ k))
  | .xfree _ _ => True

/-! ## Sizes of imports -/

/-- An import that is not empty is large enough, and leaves no single byte. -/
theorem alignUp_spec {k : ℕ} (h8 : size % 8 = 0) (hlt : size < 2 ^ 64)
    (hpos : 0 < alignUp size (2 ^ k)) :
    size ≤ alignUp size (2 ^ k) ∧ alignUp size (2 ^ k) - size ≠ 1 := by
  have hq : 0 < 2 ^ k := Nat.two_pow_pos k
  unfold alignUp wadd at *
  generalize hqk : 2 ^ k = q at *
  have hdiv : 0 < (size + (q - 1)) % 2 ^ 64 / q := Nat.pos_of_mul_pos_right hpos
  have hle : q ≤ (size + (q - 1)) % 2 ^ 64 := (Nat.div_pos_iff.mp hdiv).2
  have hmod : (size + (q - 1)) % 2 ^ 64 = size + (q - 1) := by
    by_cases hwrap : size + (q - 1) < 2 ^ 64
    · exact Nat.mod_eq_of_lt hwrap
    · have hql : q < 2 ^ 64 := by
        have := Nat.mod_lt (size + (q - 1)) (show 0 < 2 ^ 64 by decide)
        omega
      have : (size + (q - 1)) % 2 ^ 64 = size + (q - 1) - 2 ^ 64 := by
        rw [Nat.mod_eq_sub_mod (by omega)]
        exact Nat.mod_eq_of_lt (by omega)
      omega
  rw [hmod]
  have hup : size ≤ (size + (q - 1)) / q * q := by
    have := Nat.div_add_mod (size + (q - 1)) q
    have hr := Nat.mod_lt (size + (q - 1)) hq
    rw [Nat.mul_comm] at this
    omega
  refine ⟨hup, ?_⟩
  by_cases hk : 3 ≤ k
  · -- both are multiples of 8
    have h8q : (size + (q - 1)) / q * q % 8 = 0 := by
      obtain ⟨j, rfl⟩ := Nat.exists_eq_add_of_le hk
      rw [← hqk, Nat.pow_add, show (2 : ℕ) ^ 3 = 8 from rfl, Nat.mul_comm 8, ← Nat.mul_assoc]
      exact Nat.mul_mod_left _ 8
    omega
  · have hk' : k = 0 ∨ k = 1 ∨ k = 2 := by omega
    rcases hk' with rfl | rfl | rfl
    · simp at hqk
      subst hqk
      simp
    · simp at hqk
      subst hqk
      omega
    · simp at hqk
      subst hqk
      omega

/-! ## Allocating -/

theorem search_congr (htags : s'.tags = s.tags) (hfree : s'.freelists = s.freelists) :
    search s' size minaddr maxaddr flags = search s size minaddr maxaddr flags := by
  have hround : ∀ fit, betterFit s' fit = betterFit s fit := by
    intro fit
    funext best elm
    rw [betterFit, betterFit, htags]
  unfold search searchList
  rw [hfree, htags]
  simp only [hround]

theorem Sound.takeSeg {left right best at_ : ℕ} {res : Option ℕ}
    (hcore : Core spans [left, right] s)
    (hledger : s.imports.Perm (s.releases ++ importedOf s.tags s.spanlist))
    (hused : ∀ sp ∈ spans, best ∉ sp.segs → Used s.tags sp)
    (hbest : ∃ i, best ∈ s.freelists i ∧
      fitStart size minaddr maxaddr (s.tags best) = some at_)
    (hsize : 2 ≤ size) (hmin : minaddr < 2 ^ 64) (hmax : maxaddr < 2 ^ 64)
    (hrange : maxaddr = 0 ∨ minaddr ≤ maxaddr ∨ minaddr + size < 2 ^ 64)
    (hbyte : LeavesNoByte s size best at_)
    (hs : Vmem.takeSeg s size minaddr maxaddr left right best at_ = some (res, s')) :
    res = some at_ ∧ s'.live = s.live ∧
      ∃ spans', Sound spans' { s' with live := (at_, size) :: s.live } := by
  obtain ⟨hres, spans', hcore', hbooks, hlist, hsame, hused'⟩ :=
    hcore.takeSeg hbest hsize hmin hmax hrange hbyte.1 hbyte.2 hs
  refine ⟨hres, hbooks.live, spans', ?_⟩
  rw [hbooks.live] at hcore'
  refine ⟨hcore', hused' hused, ?_⟩
  show s'.imports.Perm (s'.releases ++ importedOf s'.tags s'.spanlist)
  rw [hbooks.imports, hbooks.releases, hlist, importedOf_congr hsame]
  exact hledger

/-- **Importing a span** for an allocation that nothing on the lists fits. -/
theorem Sound.importSpan {left right rv len : ℕ} {populate : Bool} (h : Sound spans s)
    (hcore : Core spans [left, right] s') (htags : s'.tags = s.tags)
    (hlist : s'.spanlist = s.spanlist)
    (himports : s'.imports = (rv, len) :: s.imports) (hreleases : s'.releases = s.releases)
    (hnone : search s' size 0 0 flags = none) (hfit : Fits s' rv len) (hsize : 2 ≤ size)
    (hle : size ≤ len) (hbyte : len - size ≠ 1) {s₁ : Arena}
    (hs : Vmem.vmemAddLocked s' rv len .spanImported populate = some s₁) :
    ∃ spans' best at_, Core spans' [left, right] s₁ ∧ s₁.live = s'.live ∧
      s₁.imports.Perm (s₁.releases ++ importedOf s₁.tags s₁.spanlist) ∧
      (∀ sp ∈ spans', best ∉ sp.segs → Used s₁.tags sp) ∧
      (∃ i, best ∈ s₁.freelists i ∧ fitStart size 0 0 (s₁.tags best) = some at_) ∧
      LeavesNoByte s₁ size best at_ ∧ search s₁ size 0 0 flags = some (best, at_) := by
  obtain ⟨a, b, g, f, rfl, hcore₁, hbooks, hsame, hg, hf⟩ :=
    hcore.vmemAddLocked hfit (by omega) (Or.inr rfl) hs
  have hflt : len < 2 ^ 64 := by
    have := hfit.2.1
    omega
  have hffit : fitStart size 0 0 (s₁.tags f) = some rv := by
    rw [fitStart_unbounded, hf]
    simp [hle]
  -- the new segment is the only one that fits
  have honly : ∀ best at_, search s₁ size 0 0 flags = some (best, at_) →
      best = f ∧ ∃ i, best ∈ s₁.freelists i ∧ fitStart size 0 0 (s₁.tags best) = some at_ := by
    intro best at_ hsearch
    obtain ⟨i, hi, hilt, hm, hfits⟩ := search_eq_some hsearch
    refine ⟨?_, i, hm, hfits⟩
    by_contra hne
    obtain ⟨hall, -, htype, hidx⟩ := (hcore₁.linked.freelist i best).mp hm
    have hgne : best ≠ g := by
      rintro rfl
      rw [hg] at htype
      cases htype
    have hold : best ∈ s'.allTags := by
      rw [hcore₁.linked.allTags] at hall
      rw [hcore.linked.allTags]
      simpa [hne, hgne] using hall
    rw [hsame best hold] at htype hidx hfits
    have hm' := (hcore.linked.freelist i best).mpr ⟨hold, by simp, htype, hidx⟩
    rw [search_eq_none hnone hi hilt hm'] at hfits
    cases hfits
  have hsearch : ∃ at_, search s₁ size 0 0 flags = some (f, at_) := by
    cases hr : search s₁ size 0 0 flags with
    | some r =>
      obtain ⟨best, at_⟩ := r
      obtain ⟨rfl, -⟩ := honly best at_ hr
      exact ⟨at_, rfl⟩
    | none =>
      have hpos : 1 ≤ freelistIdx len := Nat.log_pos (by decide) (by omega)
      have hfm : f ∈ s₁.freelists (freelistIdx len - 1) := by
        rw [hcore₁.linked.freelist]
        refine ⟨?_, by simp, by rw [hf], ?_⟩
        · rw [hcore₁.linked.allTags]
          simp
        · rw [hf]
          simp only []
          omega
      have hmono : freelistIdx size ≤ freelistIdx len := Nat.log_mono_right hle
      have hclass : freelistIdx len - 1 < freelistCount := by
        have : Nat.log 2 len < 64 := Nat.log_lt_of_lt_pow (by omega) hflt
        unfold freelistIdx freelistCount
        omega
      rw [search_eq_none hr (by omega) hclass hfm] at hffit
      cases hffit
  obtain ⟨at_, hsearch⟩ := hsearch
  obtain ⟨-, i, hm, hfits⟩ := honly f at_ hsearch
  have hat : at_ = rv := by
    rw [hffit, Option.some.injEq] at hfits
    exact hfits.symm
  subst hat
  refine ⟨_, f, at_, hcore₁, hbooks.live, ?_, ?_, ⟨i, hm, hfits⟩, ?_, hsearch⟩
  · have hperm : s₁.spanlist.Perm (g :: s.spanlist) := by
      rw [hcore₁.linked.spanlist, ← hlist, hcore.linked.spanlist, List.map_append,
        List.map_append]
      exact List.perm_middle
    have hspans : ∀ g' ∈ s.spanlist, s₁.tags g' = s.tags g' := by
      intro g' hg'
      rw [← hlist, hcore.linked.spanlist] at hg'
      obtain ⟨sp, hsp, rfl⟩ := List.mem_map.mp hg'
      rw [hsame, htags]
      rw [hcore.linked.allTags]
      exact mem_queue_of_tag hsp
    have hbook : (importedOf s₁.tags s₁.spanlist).Perm
        ((at_, len) :: importedOf s.tags s.spanlist) := by
      rw [← importedOf_congr hspans]
      have := (hperm.filter (fun g => (s₁.tags g).type = .spanImported)).map (range s₁.tags)
      simpa [importedOf, hg, range] using this
    rw [hbooks.imports, hbooks.releases, himports, hreleases]
    refine ((h.ledger.cons _).trans ?_).trans (hbook.symm.append_left _)
    exact List.perm_middle.symm
  · intro sp hsp hnot himp
    have hold : sp ∈ a ++ b := by
      simp only [List.mem_append, List.mem_cons] at hsp ⊢
      rcases hsp with hsp | rfl | hsp
      · exact Or.inl hsp
      · simp at hnot
      · exact Or.inr hsp
    have hall : ∀ u ∈ sp.tag :: sp.segs, s₁.tags u = s.tags u := by
      intro u hu
      rw [hsame, htags]
      rw [hcore.linked.allTags]
      rcases List.mem_cons.mp hu with rfl | hu
      · exact mem_queue_of_tag hold
      · exact mem_queue_of_seg hold hu
    rw [hall _ List.mem_cons_self] at himp
    obtain ⟨u, hu, hua⟩ := h.used sp hold himp
    exact ⟨u, hu, by rw [hall u (List.mem_cons_of_mem _ hu)]; exact hua⟩
  · rw [LeavesNoByte, hf]
    simp only []
    omega

/-- **`vmem_xalloc`** keeps the invariant under the condition. -/
theorem Sound.vmemXalloc {source : Option ℕ} {rv : ℕ} {res : Option ℕ} (h : Sound spans s)
    (h8 : size % 8 = 0) (hlt : size < 2 ^ 64) (hmin : minaddr < 2 ^ 64) (hmax : maxaddr < 2 ^ 64)
    (hc : Careful source s (.xalloc size minaddr maxaddr flags rv))
    (hs : Vmem.vmemXalloc source s size minaddr maxaddr flags rv = some (res, s')) :
    (res = none → ∃ spans', Sound spans' s') ∧
      ∀ at_, res = some at_ → ∃ spans', Sound spans' { s' with live := (at_, size) :: s.live } := by
  obtain ⟨hrange, hcare⟩ := hc
  unfold Vmem.vmemXalloc at hs
  by_cases hz : size = 0
  · simp [hz] at hs
  simp only [hz, if_false, Option.bind_eq_bind, Option.bind_eq_some_iff, Prod.exists] at hs
  obtain ⟨left, s₁, hleft, right, s₂, hright, hs⟩ := hs
  have hsize : 2 ≤ size := by omega
  obtain ⟨htags₁, hfree₁, hlist₁, -, hbooks₁⟩ := tagAlloc_frame hleft
  obtain ⟨htags₂, hfree₂, hlist₂, -, hbooks₂⟩ := tagAlloc_frame hright
  have hbooks := hbooks₁.trans hbooks₂
  have htags : s₂.tags = s.tags := htags₂.trans htags₁
  have hlist : s₂.spanlist = s.spanlist := hlist₂.trans hlist₁
  have hcore₀ := (h.core.tagAlloc hleft).tagAlloc hright
  have hcore : Core spans [left, right] s₂ :=
    ⟨hcore₀.linked.perm (List.Perm.swap right left []), hcore₀.span, hcore₀.apart, hcore₀.live,
      hcore₀.clobbered⟩
  have hledger : s₂.imports.Perm (s₂.releases ++ importedOf s₂.tags s₂.spanlist) := by
    rw [hbooks.imports, hbooks.releases, htags, hlist]
    exact h.ledger
  have hused : ∀ sp ∈ spans, Used s₂.tags sp := by
    rw [htags]
    exact h.used
  have hsound : Sound spans s₂ :=
    ⟨⟨hcore.linked.drop.drop, hcore.span, hcore.apart, hcore.live, hcore.clobbered⟩, hused,
      hledger⟩
  have hsame : search s₂ size minaddr maxaddr flags = search s size minaddr maxaddr flags :=
    search_congr htags (hfree₂.trans hfree₁)
  cases hsearch : search s₂ size minaddr maxaddr flags with
  | some r =>
    obtain ⟨best, at_⟩ := r
    rw [← hsame, hsearch] at hcare
    simp only [hsearch] at hs
    have hbyte : LeavesNoByte s₂ size best at_ := by
      rw [LeavesNoByte, htags]
      exact hcare
    obtain ⟨i, -, -, hm, hfits⟩ := search_eq_some hsearch
    obtain ⟨rfl, -, spans', hs'⟩ := Sound.takeSeg hcore hledger
      (fun sp hsp _ => hused sp hsp) ⟨i, hm, hfits⟩ hsize hmin hmax hrange hbyte hs
    rw [hbooks.live] at hs'
    refine ⟨fun hn => (by cases hn), fun at_' he => ?_⟩
    cases he
    exact ⟨spans', hs'⟩
  | none =>
    simp only [hsearch] at hs
    cases source with
    | none =>
      simp only [Option.pure_def, Option.some.injEq, Prod.mk.injEq] at hs
      obtain ⟨rfl, rfl⟩ := hs
      exact ⟨fun _ => ⟨spans, hsound⟩, fun at_ he => by cases he⟩
    | some k =>
      rw [← hsame, hsearch] at hcare
      by_cases hbounds : minaddr ≠ 0 ∨ maxaddr ≠ 0
      · simp [hbounds] at hs
      · by_cases hrv : rv = 0
        · simp only [hbounds, hrv, if_true, if_false, Option.pure_def, Option.some.injEq,
            Prod.mk.injEq] at hs
          obtain ⟨rfl, rfl⟩ := hs
          exact ⟨fun _ => ⟨spans, hsound⟩, fun at_ he => by cases he⟩
        · simp only [hbounds, hrv, if_false, Option.bind_eq_some_iff] at hs
          rw [not_or, not_ne_iff, not_ne_iff] at hbounds
          obtain ⟨rfl, rfl⟩ := hbounds
          obtain ⟨s₃, hadd, hs⟩ := hs
          have hfit := hcare rfl rfl hrv
          obtain ⟨hle, hbyte⟩ := alignUp_spec h8 hlt hfit.1
          have hcore' : Core spans [left, right]
              { s₂ with imports := (rv, alignUp size (2 ^ k)) :: s₂.imports } :=
            ⟨⟨hcore.linked.allTags, hcore.linked.spanlist, hcore.linked.nodup,
              hcore.linked.fresh, hcore.linked.freelistNodup, hcore.linked.freelist,
              hcore.linked.hashlistNodup, hcore.linked.hashlist⟩, hcore.span, hcore.apart,
              hcore.live, hcore.clobbered⟩
          obtain ⟨spans', best, at_, hcore₃, hlive₃, hledger₃, hused₃, hbest, hbyte₃, hsearch₃⟩ :=
            h.importSpan hcore' htags hlist
              (show (rv, alignUp size (2 ^ k)) :: s₂.imports = _ by rw [hbooks.imports])
              hbooks.releases
              (show search s₂ size 0 0 flags = none from hsearch)
              (by
                refine ⟨hfit.1, hfit.2.1, fun g hg => ?_⟩
                have hg' : g ∈ s.spanlist := hlist ▸ hg
                show _ ≤ (s₂.tags g).start ∨ _
                rw [htags]
                exact hfit.2.2 g hg') hsize hle hbyte hadd
          simp only [hsearch₃] at hs
          obtain ⟨rfl, -, spans'', hs'⟩ := Sound.takeSeg hcore₃ hledger₃ hused₃ hbest hsize hmin
            hmax (Or.inl rfl) hbyte₃ hs
          rw [hlive₃] at hs'
          refine ⟨fun hn => (by cases hn), fun at_' he => ?_⟩
          cases he
          refine ⟨spans'', ?_⟩
          rw [← hbooks.live]
          exact hs'

/-! ## Runs -/

theorem sound_initial : Sound [] initial := by
  refine ⟨⟨⟨rfl, rfl, List.nodup_nil, by simp [initial], fun _ => List.nodup_nil, ?_,
    fun _ => List.nodup_nil, ?_⟩, by simp, List.Pairwise.nil, List.Perm.refl _, rfl⟩, by simp,
    List.Perm.refl _⟩
  · simp [initial]
  · simp [initial]

/-- **Every careful call keeps the invariant.** -/
theorem Sound.step {source : Option ℕ} {ev : Event} (h : Sound spans s)
    (hc : Careful source s ev) (hs : Vmem.step source s ev = some s') :
    ∃ spans', Sound spans' s' := by
  cases ev with
  | add addr size populate =>
    unfold Vmem.step at hs
    simp only [Option.ite_none_right_eq_some] at hs
    obtain ⟨⟨-, h8, -, -⟩, hs⟩ := hs
    have hsize : 2 ≤ size := by
      have := hc.1
      omega
    obtain ⟨a, b, g, f, rfl, hcore, hbooks, hsame, hg, hf⟩ :=
      h.core.vmemAddLocked hc hsize (Or.inl rfl) hs
    have hold : ∀ sp ∈ a ++ b, ∀ u ∈ sp.tag :: sp.segs, s'.tags u = s.tags u := by
      intro sp hsp u hu
      refine hsame u ?_
      rw [h.core.linked.allTags]
      rcases List.mem_cons.mp hu with rfl | hu
      · exact mem_queue_of_tag hsp
      · exact mem_queue_of_seg hsp hu
    refine ⟨a ++ ⟨g, [f]⟩ :: b, hcore, ?_, ?_⟩
    · intro sp hsp himp
      by_cases hnew : sp = ⟨g, [f]⟩
      · subst hnew
        rw [hg] at himp
        cases himp
      · have hsp' : sp ∈ a ++ b := by
          simp only [List.mem_append, List.mem_cons] at hsp ⊢
          tauto
        rw [hold sp hsp' _ List.mem_cons_self] at himp
        obtain ⟨u, hu, hua⟩ := h.used sp hsp' himp
        exact ⟨u, hu, by rw [hold sp hsp' u (List.mem_cons_of_mem _ hu)]; exact hua⟩
    · have hspans : ∀ g' ∈ s.spanlist, s'.tags g' = s.tags g' := by
        intro g' hg'
        rw [h.core.linked.spanlist] at hg'
        obtain ⟨sp, hsp, rfl⟩ := List.mem_map.mp hg'
        exact hold sp hsp _ List.mem_cons_self
      have hperm : s'.spanlist.Perm (g :: s.spanlist) := by
        rw [hcore.linked.spanlist, h.core.linked.spanlist, List.map_append, List.map_append]
        exact List.perm_middle
      have hbook : (importedOf s'.tags s'.spanlist).Perm (importedOf s.tags s.spanlist) := by
        rw [← importedOf_congr hspans]
        have := (hperm.filter (fun g => (s'.tags g).type = .spanImported)).map (range s'.tags)
        simpa [importedOf, hg] using this
      rw [hbooks.imports, hbooks.releases]
      exact h.ledger.trans (hbook.symm.append_left _)
  | xalloc size minaddr maxaddr flags rv =>
    unfold Vmem.step at hs
    simp only [Option.ite_none_right_eq_some] at hs
    obtain ⟨⟨-, h8, hlt, hmin, hmax, -⟩, hs⟩ := hs
    obtain ⟨⟨res, s₁⟩, hrun, hres⟩ := Option.map_eq_some_iff.mp hs
    obtain ⟨hnone, hsome⟩ := h.vmemXalloc h8 hlt hmin hmax hc hrun
    cases res with
    | none =>
      subst hres
      exact hnone rfl
    | some addr =>
      subst hres
      exact hsome addr rfl
  | xfree addr size =>
    unfold Vmem.step at hs
    simp only [Option.ite_none_right_eq_some] at hs
    obtain ⟨⟨-, hlive⟩, hs⟩ := hs
    obtain ⟨s₁, hrun, hres⟩ := Option.map_eq_some_iff.mp hs
    have haddr : addr ≠ 0 := by
      rintro rfl
      simp [Vmem.vmemXfree] at hrun
    obtain ⟨s₂, spans', hrun', hs₂⟩ := h.vmemXfree haddr hlive
    rw [hrun', Option.some.injEq] at hrun
    subst hrun
    subst hres
    exact ⟨spans', hs₂⟩

theorem Sound.of_reachable {source : Option ℕ}
    (h : (system source).ReachableUnder (Careful source) s) : ∃ spans, Sound spans s := by
  have hinit : ∀ s, (system source).init s → ∃ spans, Sound spans s := by
    rintro s rfl
    exact ⟨[], sound_initial⟩
  have hstep : ∀ s ev s', (∃ spans, Sound spans s) → Careful source s ev →
      (system source).step s ev = some s' → ∃ spans, Sound spans s' := by
    rintro s ev s' ⟨spans, hs⟩ hc hrun
    exact hs.step hc hrun
  exact h.invariant hinit hstep

/-- **What an arena looks like between two calls.**  The last part says that an imported span is
there as long as something in it is allocated, and back at the source otherwise. -/
structure Intact (s : Arena) (spans : List Span) : Prop where
  queue : s.allTags = queue spans
  spanlist : s.spanlist = spans.map Span.tag
  segments : ∀ sp ∈ spans, ∀ t ∈ sp.segs,
    (s.tags t).type = .free ∨ (s.tags t).type = .allocated
  tiles : ∀ sp ∈ spans, Tiles (s.tags sp.tag).start (sp.segs.map (range s.tags))
    ((s.tags sp.tag).start + (s.tags sp.tag).size)
  disjoint : ∀ t ∈ s.allTags, ∀ u ∈ s.allTags, (s.tags t).type = .allocated →
    (s.tags u).type = .allocated → t ≠ u → Apart s.tags t u
  merged : ∀ sp ∈ spans, sp.segs.IsChain (NotBothFree s.tags)
  freelistNodup : ∀ i, (s.freelists i).Nodup
  freelist : ∀ t ∈ s.allTags, (s.tags t).type = .free →
    ∃ i, freelistIdx (s.tags t).size = i + 1 ∧ ∀ j, t ∈ s.freelists j ↔ j = i
  freelistFree : ∀ i, ∀ t ∈ s.freelists i, t ∈ s.allTags ∧ (s.tags t).type = .free
  hashlistNodup : ∀ i, (s.hashlists i).Nodup
  hashlist : ∀ i t, t ∈ s.hashlists i ↔
    t ∈ s.allTags ∧ (s.tags t).type = .allocated ∧ hashIndex (s.tags t).start = i
  live : s.live.Perm (allocs s.tags s.allTags)
  freeable : ∀ addr size, (addr, size) ∈ s.live → addr ≠ 0 → (vmemXfree s addr size).isSome
  ledger : s.imports.Perm (s.releases ++ importedOf s.tags s.spanlist)
  used : ∀ sp ∈ spans, Used s.tags sp

theorem Sound.intact (h : Sound spans s) : Intact s spans where
  queue := h.core.linked.allTags
  spanlist := h.core.linked.spanlist
  segments := fun sp hsp => (h.core.span sp hsp).seg
  tiles := fun sp hsp => (h.core.span sp hsp).tiles
  disjoint := by
    intro t ht u hu htype hutype hne
    have hseg : ∀ v ∈ s.allTags, (s.tags v).type = .allocated → ∃ sp ∈ spans, v ∈ sp.segs := by
      intro v hv hvt
      rcases h.core.type_cases hv with hsp | hspan
      · exact hsp
      · rcases hspan with hspan | hspan <;> rw [hvt] at hspan <;> cases hspan
    obtain ⟨sp, hsp, hts⟩ := hseg t ht htype
    obtain ⟨sp', hsp', hus⟩ := hseg u hu hutype
    exact h.core.apart_segs hsp hsp' hts hus hne
  merged := fun sp hsp => (h.core.span sp hsp).alternate
  freelistNodup := h.core.linked.freelistNodup
  freelist := by
    intro t ht htype
    obtain ⟨sp, hsp, hts⟩ : ∃ sp ∈ spans, t ∈ sp.segs := by
      rcases h.core.type_cases ht with hsp | hspan
      · exact hsp
      · rcases hspan with hspan | hspan <;> rw [htype] at hspan <;> cases hspan
    have hpos : 0 < freelistIdx (s.tags t).size :=
      Nat.log_pos (by decide) ((h.core.span sp hsp).size t hts)
    refine ⟨freelistIdx (s.tags t).size - 1, by omega, fun j => ?_⟩
    rw [h.core.linked.freelist]
    constructor
    · rintro ⟨-, -, -, hj⟩
      omega
    · rintro rfl
      exact ⟨ht, by simp, htype, by omega⟩
  freelistFree := by
    intro i t ht
    obtain ⟨hall, -, htype, -⟩ := (h.core.linked.freelist i t).mp ht
    exact ⟨hall, htype⟩
  hashlistNodup := h.core.linked.hashlistNodup
  hashlist := by
    intro i t
    rw [h.core.linked.hashlist]
    simp
  live := h.core.live
  freeable := by
    intro addr size hlive haddr
    obtain ⟨s', spans', hrun, -⟩ := h.vmemXfree haddr hlive
    rw [hrun]
    rfl
  ledger := h.ledger
  used := h.used

/-- **Arenas stay intact** in every run of careful calls. -/
theorem arena_intact {source : Option ℕ}
    (h : (system source).ReachableUnder (Careful source) s) : ∃ spans, Intact s spans := by
  obtain ⟨spans, hs⟩ := Sound.of_reachable h
  exact ⟨spans, hs.intact⟩

instance (s : Arena) (addr size : ℕ) : Decidable (Fits s addr size) := by
  unfold Fits
  infer_instance

instance (s : Arena) (size best at_ : ℕ) : Decidable (LeavesNoByte s size best at_) := by
  unfold LeavesNoByte
  infer_instance

instance (source : Option ℕ) (s : Arena) : (ev : Event) → Decidable (Careful source s ev)
  | .add addr size _ => inferInstanceAs (Decidable (Fits s addr size))
  | .xalloc size minaddr maxaddr flags rv => by
    unfold Careful
    refine @instDecidableAnd _ _ inferInstance ?_
    split <;> infer_instance
  | .xfree _ _ => inferInstanceAs (Decidable True)

/-- An arena with a source imports a span, hands out two segments of it, and takes them back. -/
def importRun : List Event :=
  [.xalloc 64 0 0 ⟨false, true, false⟩ 0x10000, .xalloc 128 0x10080 0x10180 ⟨false, false, true⟩ 0,
    .add 0x4000 0x2000 false, .xfree 0x10080 128, .xfree 0x10000 64]

theorem arena_intact_import : ∃ s, (system (some 12)).Reachable s ∧
    s.imports = [(0x10000, 0x1000)] ∧ s.releases = [(0x10000, 0x1000)] ∧ s.live = [] ∧
    ∃ spans, Intact s spans := by
  obtain ⟨s, hs, hp⟩ := TransitionSystem.exists_reachableUnder_of_runUnder
    (C := Careful (some 12)) (show (system (some 12)).init initial from rfl) importRun
    (fun s => decide (s.imports = [(0x10000, 0x1000)] ∧ s.releases = [(0x10000, 0x1000)] ∧
      s.live = [])) (by decide +kernel)
  obtain ⟨himports, hreleases, hlive⟩ := of_decide_eq_true hp
  exact ⟨s, hs.reachable, himports, hreleases, hlive, arena_intact hs⟩

/-- One byte before an allocation is a segment that stands on no free list. -/
theorem arena_loses_byte :
    ¬ ∀ (source : Option ℕ) (s : Arena), (system source).Reachable s →
      ∃ spans, Intact s spans := by
  intro h
  obtain ⟨s, hs, hp⟩ := TransitionSystem.exists_reachable_of_run
    (show (system none).init initial from rfl)
    [.add 0x4000 0x1000 false, .xalloc 8 0x4001 0 ⟨false, true, false⟩ 0]
    (fun s => s.allTags.any (fun t => s.tags t = ⟨.free, 0x4000, 1⟩)) (by decide +kernel)
  obtain ⟨t, ht, htag⟩ := List.any_eq_true.mp hp
  have htag := of_decide_eq_true htag
  obtain ⟨spans, hintact⟩ := h none s hs
  obtain ⟨i, hi, -⟩ := hintact.freelist t ht (by rw [htag])
  rw [htag] at hi
  simp [freelistIdx] at hi

end Vmem
