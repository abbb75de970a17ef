/-
# Tearing an object down

The walk of `anon_pager_cleanup` reads the links of pages that it has freed already: those of
the page it has just dereferenced, and of its ancestors in the tree on the way up.  As long as
none of these is put into the tree of another object meanwhile, every page of the object is
dereferenced exactly once; otherwise the walk continues in that tree.
-/
import YakKernel.VmObject

namespace VmObject

open RbTree

variable {P O : Type*} [DecidableEq P] [DecidableEq O] {target : O} {own : O → List P}
  {s s' : State P O} {p : P} {o : O}

/-! ## Pages change hands -/

omit [DecidableEq P] [DecidableEq O] in
theorem ObjectOk.mem_iff (h : ObjectOk own s o) :
    p ∈ own o ↔ p ∈ (s.memq o).inorder ∨ s.pending o = some p := by
  rw [h.perm.mem_iff, List.mem_append, Option.mem_toList]

omit [DecidableEq P] [DecidableEq O] in
theorem ObjectOk.congr (h : ObjectOk own s o) {own' : O → List P} (hown : own' o = own o)
    (hmemq : s'.memq o = s.memq o) (hpending : s'.pending o = s.pending o)
    (hlinks : ∀ q ∈ own o, s'.links q = s.links q)
    (hoffset : ∀ q ∈ own o, s'.offset q = s.offset q) : ObjectOk own' s' o := by
  have hmem : ∀ q ∈ (s.memq o).inorder, q ∈ own o :=
    fun q hq => h.perm.mem_iff.mpr (List.mem_append_left _ hq)
  refine ⟨?_, ?_, ?_⟩
  · rw [hown, hmemq, hpending]
    exact h.perm
  · rw [hmemq]
    exact h.stored.congr (fun q hq => hlinks q (hmem q hq))
  · intro q hq
    rw [hpending] at hq
    have hqo : q ∈ own o := h.perm.mem_iff.mpr (List.mem_append_right _ (by rw [hq]; simp))
    rw [hmemq, hoffset q hqo, find_congr (fun b hb => hoffset b (hmem b hb))]
    exact h.fresh q hq

omit [DecidableEq P] [DecidableEq O] in
theorem CleanupOk.congr {w : Walk P} (h : CleanupOk target own s w) {own' : O → List P}
    (hown : own' target = own target) (hmemq : s'.memq target = s.memq target)
    (hpending : s'.pending target = s.pending target) (hderefs : s'.derefs = s.derefs)
    (hsteps : s'.steps = s.steps) (hlinks : ∀ q ∈ own target, s'.links q = s.links q)
    (hdead : ∀ dead n, At s.links (s.memq target).root w (own target) dead n →
      (∀ q ∈ dead, ∀ o, q ∉ own o) →
      ∀ q ∈ dead, s'.links q = s.links q ∧ ∀ o, q ∉ own' o) :
    CleanupOk target own' s' w := by
  obtain ⟨hp, ⟨dead, n, hat, hd, hn⟩, hder, hnd⟩ := h
  have hsafe := hdead dead n hat hd
  refine ⟨hpending.trans hp, ⟨dead, n, ?_, fun q hq => (hsafe q hq).2, ?_⟩, ?_, ?_⟩
  · rw [hown, hmemq]
    exact hat.congr hlinks (fun q hq => (hsafe q hq).1)
  · rw [hsteps, hmemq]
    exact hn
  · rw [hderefs, hown, hmemq]
    exact hder
  · rw [hmemq]
    exact hnd

/-- The page is one of those whose links the cleanup still reads: where it stands, or an
ancestor of that page. -/
def Unread (s : State P O) (p : P) : Prop :=
  ∃ w a, s.cleanup = some w ∧ w.elm = some a ∧
    Relation.ReflTransGen (fun x y => (s.links x).parent = some y) a p

/-- `vm_lookuppage` reuses a page whose links the cleanup still reads. -/
def reusesUnread (s : State P O) : Event P O → Prop
  | .lookupAlloc _ _ p => Unread s p
  | _ => False

/-- **`vm_lookuppage` allocates a page.** -/
theorem Ok.lookupAlloc (h : Ok target own s) {offset : ℕ}
    (hlive : o = target → s.cleanup = none) (hpending : s.pending o = none)
    (hfind : (s.memq o).find s.offset offset = none) (hfree : s.isFree p = true)
    (hsafe : ¬ Unread s p) :
    Ok target (Function.update own o (own o ++ [p])) (VmObject.lookupAlloc s o offset p) := by
  have hnot : ∀ o', p ∉ own o' := (h.page p).notMem hfree
  have hown : ∀ o' q, q ∈ Function.update own o (own o ++ [p]) o' ↔
      q ∈ own o' ∨ (o' = o ∧ q = p) := by
    intro o' q
    by_cases ho : o' = o
    · subst ho
      rw [Function.update_self, List.mem_append, List.mem_singleton]
      simp
    · rw [Function.update_of_ne ho]
      simp [ho]
  have hoff : ∀ q, q ≠ p → (VmObject.lookupAlloc s o offset p).offset q = s.offset q := by
    intro q hq
    simp [VmObject.lookupAlloc, pmmAlloc, State.offset, hq]
  refine ⟨?_, ?_, ?_, ?_, ?_, h.before⟩
  · intro o'
    by_cases ho : o' = o
    · subst ho
      rw [Function.update_self, List.nodup_append]
      refine ⟨h.nodup o', List.nodup_singleton p, ?_⟩
      rintro q hq _ hp rfl
      rw [List.mem_singleton] at hp
      exact hnot o' (hp ▸ hq)
    · rw [Function.update_of_ne ho]
      exact h.nodup o'
  · intro o₁ o₂ q h₁ h₂
    rw [hown] at h₁ h₂
    rcases h₁ with h₁ | ⟨rfl, rfl⟩
    · rcases h₂ with h₂ | ⟨rfl, rfl⟩
      · exact h.disjoint _ _ _ h₁ h₂
      · exact absurd h₁ (hnot _)
    · rcases h₂ with h₂ | ⟨rfl, -⟩
      · exact absurd h₂ (hnot _)
      · rfl
  · intro q
    by_cases hq : q = p
    · subst hq
      have hextra : s.extra q = 0 := ((h.page q).unheld hnot).2.mp hfree
      refine ⟨fun o' ho' => ?_, fun hno => absurd ((hown o q).mpr (Or.inr ⟨rfl, rfl⟩)) (hno o)⟩
      rw [hown] at ho'
      obtain ⟨rfl, -⟩ := ho'.resolve_left (hnot o')
      simp [VmObject.lookupAlloc, pmmAlloc, hextra]
    · have hmem : ∀ o', q ∈ Function.update own o (own o ++ [p]) o' ↔ q ∈ own o' := by
        intro o'
        rw [hown]
        simp [hq]
      refine ⟨fun o' ho' => ?_, fun hno => ?_⟩
      · have := (h.page q).held o' ((hmem o').mp ho')
        simpa [VmObject.lookupAlloc, pmmAlloc, hq] using this
      · have := (h.page q).unheld (fun o' ho' => hno o' ((hmem o').mpr ho'))
        simpa [VmObject.lookupAlloc, pmmAlloc, hq] using this
  · intro o' hlive'
    have hok := h.object o' hlive'
    have hne : ∀ q ∈ own o', q ≠ p := by
      rintro q hq rfl
      exact hnot o' hq
    by_cases ho : o' = o
    · subst ho
      have hmem : ∀ q ∈ (s.memq o').inorder, q ≠ p :=
        fun q hq => hne q (hok.mem_iff.mpr (Or.inl hq))
      refine ⟨?_, hok.stored, ?_⟩
      · have hperm := hok.perm
        rw [hpending, Option.toList_none, List.append_nil] at hperm
        simp only [VmObject.lookupAlloc, pmmAlloc, Function.update_self, Option.toList_some]
        exact hperm.append_right [p]
      · intro q hq
        simp only [VmObject.lookupAlloc, pmmAlloc, Function.update_self, Option.some.injEq] at hq
        subst hq
        have hself : (VmObject.lookupAlloc s o' offset p).offset p = offset := by
          simp [VmObject.lookupAlloc, pmmAlloc, State.offset]
        rw [hself]
        exact (find_congr (fun b hb => hoff b (hmem b hb))).trans hfind
    · refine hok.congr (Function.update_of_ne ho _ _) rfl ?_ (fun _ _ => rfl)
        (fun q hq => hoff q (hne q hq))
      simp [VmObject.lookupAlloc, pmmAlloc, ho]
  · intro w hw
    have hw' : s.cleanup = some w := hw
    have ho : target ≠ o := by
      rintro rfl
      rw [hlive rfl] at hw'
      cases hw'
    refine (h.cleanup w hw').congr (Function.update_of_ne ho _ _) rfl ?_ rfl rfl
      (fun _ _ => rfl) ?_
    · simp [VmObject.lookupAlloc, pmmAlloc, ho]
    · intro dead n hat hd q hq
      refine ⟨rfl, fun o' ho' => ?_⟩
      rw [hown] at ho'
      rcases ho' with ho' | ⟨-, rfl⟩
      · exact hd q hq o' ho'
      · obtain ⟨a, ha, hpath⟩ := hat.ancestor hq
        exact hsafe ⟨w, a, hw', ha, hpath⟩

omit [DecidableEq P] [DecidableEq O] in
theorem Ok.of_pages (h : Ok target own s) (hpage : ∀ q, PageOk own s' q)
    (hlinks : s'.links = s.links) (hmemq : s'.memq = s.memq) (hpending : s'.pending = s.pending)
    (hcleanup : s'.cleanup = s.cleanup) (hderefs : s'.derefs = s.derefs)
    (hsteps : s'.steps = s.steps) (hoffset : ∀ q, s'.offset q = s.offset q) :
    Ok target own s' := by
  refine ⟨h.nodup, h.disjoint, hpage, fun o hlive => ?_, fun w hw => ?_, fun hn => ?_⟩
  · rw [hcleanup] at hlive
    exact (h.object o hlive).congr rfl (by rw [hmemq]) (by rw [hpending])
      (fun _ _ => by rw [hlinks]) (fun q _ => hoffset q)
  · rw [hcleanup] at hw
    exact (h.cleanup w hw).congr rfl (by rw [hmemq]) (by rw [hpending]) hderefs hsteps
      (fun _ _ => by rw [hlinks]) (fun _ _ _ hd q hq => ⟨by rw [hlinks], hd q hq⟩)
  · rw [hcleanup] at hn
    rw [hderefs, hsteps]
    exact h.before hn

omit [DecidableEq O] in
/-- **A user of a page takes a reference.** -/
theorem Ok.pageRef (h : Ok target own s) (hpos : 0 < (s.pages p).shares) :
    Ok target own
      { VmObject.pageRef s p with extra := Function.update s.extra p (s.extra p + 1) } := by
  refine h.of_pages (fun q => ?_) rfl rfl rfl rfl rfl rfl (fun q => ?_)
  · by_cases hq : q = p
    · subst hq
      refine ⟨fun o ho => ?_, fun hno => ?_⟩
      · obtain ⟨hobj, hsh, hfree⟩ := (h.page q).held o ho
        simp [VmObject.pageRef, hobj, hsh, hfree]
      · obtain ⟨hsh, hfree⟩ := (h.page q).unheld hno
        have hne : s.isFree q = false := by
          rw [Bool.eq_false_iff, ne_eq, hfree]
          omega
        simp [VmObject.pageRef, hsh, hne]
    · refine ⟨fun o ho => ?_, fun hno => ?_⟩
      · simpa [VmObject.pageRef, hq] using (h.page q).held o ho
      · simpa [VmObject.pageRef, hq] using (h.page q).unheld hno
  · by_cases hq : q = p
    · subst hq
      simp [VmObject.pageRef, State.offset]
    · simp [VmObject.pageRef, State.offset, hq]

omit [DecidableEq O] in
/-- **A user of a page drops its reference.** -/
theorem Ok.pageDeref (h : Ok target own s) (hpos : 0 < s.extra p) :
    Ok target own
      { VmObject.pageDeref s p with extra := Function.update s.extra p (s.extra p - 1) } := by
  refine h.of_pages (fun q => ?_) rfl rfl rfl rfl rfl rfl (fun q => ?_)
  · by_cases hq : q = p
    · subst hq
      refine ⟨fun o ho => ?_, fun hno => ?_⟩
      · obtain ⟨hobj, hsh, hfree⟩ := (h.page q).held o ho
        have hne : (s.pages q).shares ≠ 1 := by omega
        simp only [VmObject.pageDeref, Function.update_self, if_neg hne]
        exact ⟨hobj, by omega, hfree⟩
      · obtain ⟨hsh, hfree⟩ := (h.page q).unheld hno
        simp only [VmObject.pageDeref, Function.update_self]
        refine ⟨by omega, ?_⟩
        split
        · rw [Function.update_self]
          exact iff_of_true rfl (by omega)
        · rw [hfree]
          omega
    · refine ⟨fun o ho => ?_, fun hno => ?_⟩
      · have := (h.page q).held o ho
        simp only [VmObject.pageDeref, Function.update_of_ne hq]
        split <;> simpa [hq] using this
      · have := (h.page q).unheld hno
        simp only [VmObject.pageDeref, Function.update_of_ne hq]
        split <;> simpa [hq] using this
  · by_cases hq : q = p
    · subst hq
      simp [VmObject.pageDeref, State.offset]
    · simp [VmObject.pageDeref, State.offset, hq]

omit [DecidableEq O] in
theorem Ok.pmmAlloc (h : Ok target own s) (hfree : s.isFree p = true) :
    Ok target own { VmObject.pmmAlloc s p (s.pages p).vmobj (s.pages p).offset with
      extra := Function.update s.extra p 1 } := by
  refine h.of_pages (fun q => ?_) rfl rfl rfl rfl rfl rfl (fun q => ?_)
  · by_cases hq : q = p
    · subst hq
      refine ⟨fun o ho => absurd ho ((h.page q).notMem hfree o), fun hno => ?_⟩
      simp [VmObject.pmmAlloc]
    · refine ⟨fun o ho => ?_, fun hno => ?_⟩
      · simpa [VmObject.pmmAlloc, hq] using (h.page q).held o ho
      · simpa [VmObject.pmmAlloc, hq] using (h.page q).unheld hno
  · by_cases hq : q = p
    · subst hq
      simp [VmObject.pmmAlloc, State.offset]
    · simp [VmObject.pmmAlloc, State.offset, hq]

/-! ## The trees change -/

/-- **`RBT_INSERT`** writes the links of pages of its own object only. -/
theorem Ok.lookupInsert (h : Ok target own s) (hpending : s.pending o = some p) :
    Ok target own (VmObject.lookupInsert s o p) := by
  have hlive : o = target → s.cleanup = none := by
    rintro rfl
    cases hc : s.cleanup with
    | none => rfl
    | some w =>
      rw [(h.cleanup w hc).pending] at hpending
      cases hpending
  have hok := h.object o hlive
  have hp : p ∈ own o := hok.mem_iff.mpr (Or.inr hpending)
  have hperm : ((s.memq o).insert s.offset p).inorder.Perm (p :: (s.memq o).inorder) :=
    perm_insert (hok.fresh p hpending)
  have hown : (own o).Perm ((s.memq o).insert s.offset p).inorder := by
    have hold := hok.perm
    rw [hpending, Option.toList_some] at hold
    exact hold.trans (List.perm_append_singleton _ _ |>.trans hperm.symm)
  have hlinks : ∀ q, q ∉ own o → (VmObject.lookupInsert s o p).links q = s.links q :=
    fun q hq => links_of_notMem (fun hin => hq (hown.mem_iff.mpr hin))
  refine ⟨h.nodup, h.disjoint, fun q => ⟨(h.page q).held, (h.page q).unheld⟩,
    fun o' hlive' => ?_, fun w hw => ?_, h.before⟩
  · by_cases ho : o' = o
    · subst ho
      refine ⟨?_, ?_, ?_⟩
      · simpa [VmObject.lookupInsert] using hown
      · have hnd : ((s.memq o').insert s.offset p).inorder.Nodup := hown.nodup_iff.mp (h.nodup o')
        simpa [VmObject.lookupInsert] using stored_links hnd
      · intro q hq
        simp [VmObject.lookupInsert] at hq
    · refine (h.object o' hlive').congr rfl (by simp [VmObject.lookupInsert, ho])
        (by simp [VmObject.lookupInsert, ho]) (fun q hq => hlinks q ?_) (fun _ _ => rfl)
      exact fun hqo => ho (h.disjoint _ _ _ hq hqo)
  · have hw' : s.cleanup = some w := hw
    have ho : target ≠ o := by
      rintro rfl
      rw [hlive rfl] at hw'
      cases hw'
    refine (h.cleanup w hw').congr rfl (by simp [VmObject.lookupInsert, ho])
      (by simp [VmObject.lookupInsert, ho]) rfl rfl (fun q hq => hlinks q ?_) ?_
    · exact fun hqo => ho (h.disjoint _ _ _ hq hqo)
    · exact fun dead n _ hd q hq => ⟨hlinks q (hd q hq o), hd q hq⟩

omit [DecidableEq P] in
/-- **The last reference is dropped.** -/
theorem Ok.lastDeref (h : Ok target own s) (hnone : s.cleanup = none)
    (hpending : s.pending target = none) :
    Ok target (Function.update own target (s.memq target).inorder)
      { s with cleanup := some .start } := by
  have hok := h.object target (fun _ => hnone)
  have hperm : (own target).Perm (s.memq target).inorder := by
    have hp := hok.perm
    rwa [hpending, Option.toList_none, List.append_nil] at hp
  have hmem : ∀ o q, q ∈ Function.update own target (s.memq target).inorder o ↔ q ∈ own o := by
    intro o q
    by_cases ho : o = target
    · subst ho
      rw [Function.update_self, hperm.mem_iff]
    · rw [Function.update_of_ne ho]
  refine ⟨fun o => ?_, fun o₁ o₂ q h₁ h₂ => ?_, fun q => ⟨fun o ho => ?_, fun hno => ?_⟩,
    fun o hlive => ?_, fun w hw => ?_, nofun⟩
  · by_cases ho : o = target
    · subst ho
      rw [Function.update_self]
      exact hperm.nodup_iff.mp (h.nodup o)
    · rw [Function.update_of_ne ho]
      exact h.nodup o
  · exact h.disjoint _ _ _ ((hmem _ _).mp h₁) ((hmem _ _).mp h₂)
  · exact (h.page q).held o ((hmem o q).mp ho)
  · exact (h.page q).unheld (fun o ho => hno o ((hmem o q).mpr ho))
  · have ho : o ≠ target := by
      rintro rfl
      cases hlive rfl
    exact (h.object o (fun he => absurd he ho)).congr (Function.update_of_ne ho _ _) rfl rfl
      (fun _ _ => rfl) (fun _ _ => rfl)
  · obtain rfl : w = .start := (Option.some.inj hw).symm
    obtain ⟨hd, hsteps⟩ := h.before hnone
    refine ⟨hpending, ⟨[], 4 * (s.memq target).inorder.length + 1, ?_, nofun, ?_⟩, ?_,
      hperm.nodup_iff.mp (h.nodup target)⟩
    · rw [Function.update_self]
      exact .start _ rfl hok.stored
    · show s.steps + (4 * (s.memq target).inorder.length + 1)
        ≤ 4 * (s.memq target).inorder.length + 1
      omega
    · rw [Function.update_self]
      show s.derefs ++ _ = _
      rw [hd, List.nil_append]

/-! ## The cleanup -/

/-- **One step of the cleanup.** -/
theorem Ok.cleanupStep (h : Ok target own s) {w w' : Walk P} (hw : s.cleanup = some w)
    (hs : w.step (s.memq target).root s.links = some w') :
    ∃ own', Ok target own' { cleanupBody s w with cleanup := some w', steps := s.steps + 1 } := by
  obtain ⟨hpending, ⟨dead, n, hat, hdead, hn⟩, hder, hnd⟩ := h.cleanup w hw
  have hne : w ≠ .finished := by
    rintro rfl
    cases hs
  obtain ⟨w₁, rem', dead', n', hs₁, hat', hlt, hbody, hother⟩ := hat.step hne
  obtain rfl : w₁ = w' := Option.some.inj (hs₁.symm.trans hs)
  have hlive : ∀ o, (o = target → (some w₁ : Option (Walk P)) = none) → o ≠ target := by
    rintro o hl rfl
    cases hl rfl
  by_cases hb : ∃ p, w = .body p
  · obtain ⟨p, rfl⟩ := hb
    obtain ⟨hrem, hd'⟩ := hbody p rfl
    have hp : p ∈ own target := by
      rw [hrem]
      exact List.mem_cons_self
    have hpnot : p ∉ rem' := by
      have hnd' := h.nodup target
      rw [hrem] at hnd'
      exact (List.nodup_cons.mp hnd').1
    have hown : ∀ o q, q ∈ Function.update own target rem' o ↔ q ∈ own o ∧ q ≠ p := by
      intro o q
      by_cases ho : o = target
      · subst ho
        rw [Function.update_self, hrem, List.mem_cons]
        constructor
        · intro hq
          refine ⟨Or.inr hq, ?_⟩
          rintro rfl
          exact hpnot hq
        · rintro ⟨hq, hqp⟩
          exact hq.resolve_left hqp
      · rw [Function.update_of_ne ho]
        refine ⟨fun hq => ⟨hq, ?_⟩, fun hq => hq.1⟩
        rintro rfl
        exact ho (h.disjoint _ _ _ hq hp)
    obtain ⟨-, hsh, hfree⟩ := (h.page p).held target hp
    refine ⟨Function.update own target rem', ?_, ?_, ?_, ?_, ?_, nofun⟩
    · intro o
      by_cases ho : o = target
      · subst ho
        rw [Function.update_self]
        have hnd' := h.nodup o
        rw [hrem] at hnd'
        exact (List.nodup_cons.mp hnd').2
      · rw [Function.update_of_ne ho]
        exact h.nodup o
    · exact fun o₁ o₂ q h₁ h₂ => h.disjoint _ _ _ ((hown _ _).mp h₁).1 ((hown _ _).mp h₂).1
    · intro q
      by_cases hq : q = p
      · subst hq
        refine ⟨fun o ho => absurd rfl ((hown o q).mp ho).2, fun _ => ?_⟩
        simp only [cleanupBody, VmObject.pageDeref, Function.update_self]
        refine ⟨by omega, ?_⟩
        split
        · rw [Function.update_self]
          exact iff_of_true rfl (by omega)
        · rw [hfree]
          exact iff_of_false nofun (by omega)
      · have hkeep : (cleanupBody s (.body p)).pages q = s.pages q ∧
            (cleanupBody s (.body p)).isFree q = s.isFree q := by
          simp only [cleanupBody, VmObject.pageDeref, Function.update_of_ne hq, true_and]
          split
          · exact Function.update_of_ne hq _ _
          · rfl
        refine ⟨fun o ho => ?_, fun hno => ?_⟩
        · have hheld := (h.page q).held o ((hown o q).mp ho).1
          simp only [hkeep]
          exact hheld
        · have hun := (h.page q).unheld (fun o ho => hno o ((hown o q).mpr ⟨ho, hq⟩))
          simp only [hkeep]
          exact hun
    · intro o hl
      have ho := hlive o hl
      refine (h.object o (fun he => absurd he ho)).congr (Function.update_of_ne ho _ _) rfl rfl
        (fun _ _ => rfl) (fun q hq => ?_)
      have hqp : q ≠ p := by
        rintro rfl
        exact ho (h.disjoint _ _ _ hq hp)
      simp [cleanupBody, VmObject.pageDeref, State.offset, hqp]
    · intro w₂ hw₂
      obtain rfl : w₂ = w₁ := (Option.some.inj hw₂).symm
      refine ⟨hpending, ⟨dead', n', ?_, fun q hq o ho => ?_, ?_⟩, ?_, hnd⟩
      · rw [Function.update_self]
        exact hat'
      · rw [hown] at ho
        rw [hd', List.mem_cons] at hq
        exact hdead q (hq.resolve_left ho.2) o ho.1
      · show s.steps + 1 + n' ≤ 4 * (s.memq target).inorder.length + 1
        omega
      · rw [Function.update_self]
        show (s.derefs ++ [p]) ++ rem' = (s.memq target).inorder
        rw [← hder, hrem, List.append_assoc]
        rfl
  · have hnb : ∀ p, w ≠ .body p := fun p hp => hb ⟨p, hp⟩
    obtain ⟨hrem, hsub⟩ := hother hnb
    have hself : cleanupBody s w = s := by
      cases w with
      | body p => exact absurd rfl (hnb p)
      | start | descend | next | climb | finished => rfl
    rw [hself]
    refine ⟨own, h.nodup, h.disjoint, fun q => ⟨(h.page q).held, (h.page q).unheld⟩,
      fun o hl => ?_, fun w₂ hw₂ => ?_, nofun⟩
    · exact (h.object o (fun he => absurd he (hlive o hl))).congr rfl rfl rfl (fun _ _ => rfl)
        (fun _ _ => rfl)
    · obtain rfl : w₂ = w₁ := (Option.some.inj hw₂).symm
      refine ⟨hpending, ⟨dead', n', ?_, fun q hq => hdead q (hsub q hq), ?_⟩, hder, hnd⟩
      · rw [← hrem]
        exact hat'
      · show s.steps + 1 + n' ≤ 4 * (s.memq target).inorder.length + 1
        omega

/-! ## Runs -/

omit [DecidableEq P] [DecidableEq O] in
theorem ok_initial (target : O) : Ok target (fun _ => []) (initial : State P O) where
  nodup := fun _ => List.nodup_nil
  disjoint := nofun
  page := fun _ => ⟨nofun, fun _ => ⟨rfl, iff_of_true rfl rfl⟩⟩
  object := fun _ _ => ⟨.refl _, trivial, nofun⟩
  cleanup := nofun
  before := fun _ => ⟨rfl, rfl⟩

/-- **Step lemma.** -/
theorem Ok.step (h : Ok target own s) {ev : Event P O} (hsafe : ¬ reusesUnread s ev)
    (hs : VmObject.step target s ev = some s') : ∃ own', Ok target own' s' := by
  cases ev with
  | lookupAlloc o offset p =>
    simp only [VmObject.step] at hs
    split at hs
    · rename_i hc
      obtain ⟨hlive, hpending, hfind, hfree⟩ := hc
      cases hs
      exact ⟨_, h.lookupAlloc (fun ho => Option.isNone_iff_eq_none.mp (hlive ho)) hpending
        (Option.isNone_iff_eq_none.mp hfind) hfree hsafe⟩
    · cases hs
  | lookupInsert o =>
    simp only [VmObject.step, Option.map_eq_some_iff] at hs
    obtain ⟨p, hp, rfl⟩ := hs
    exact ⟨_, h.lookupInsert hp⟩
  | pageRef p =>
    simp only [VmObject.step] at hs
    split at hs
    · rename_i hpos
      cases hs
      exact ⟨_, h.pageRef hpos⟩
    · cases hs
  | pageDeref p =>
    simp only [VmObject.step] at hs
    split at hs
    · rename_i hpos
      cases hs
      exact ⟨_, h.pageDeref hpos⟩
    · cases hs
  | pmmAlloc p =>
    simp only [VmObject.step] at hs
    split at hs
    · rename_i hfree
      cases hs
      exact ⟨_, h.pmmAlloc hfree⟩
    · cases hs
  | lastDeref =>
    simp only [VmObject.step] at hs
    split at hs
    · rename_i hc
      cases hs
      exact ⟨_, h.lastDeref (Option.isNone_iff_eq_none.mp hc.1) hc.2⟩
    · cases hs
  | cleanup =>
    simp only [VmObject.step] at hs
    split at hs
    · cases hs
    · rename_i w hw
      simp only [Option.map_eq_some_iff] at hs
      obtain ⟨w', hw', rfl⟩ := hs
      exact h.cleanupStep hw hw'

/-- **Run lemma.** -/
theorem Ok.of_reachable
    (h : (system P target).ReachableUnder (fun s ev => ¬ reusesUnread s ev) s) :
    ∃ own, Ok target own s := by
  apply TransitionSystem.ReachableUnder.invariant ?_ ?_ h
  · rintro _ rfl
    exact ⟨_, ok_initial target⟩
  · rintro s ev s' ⟨own, hI⟩ hsafe hs
    exact hI.step hsafe hs

/-- **The cleanup releases exactly the pages of its object**, as long as no page whose links it
still reads is reused: it dereferences the pages of the tree in order and each once, only
pages that belong to the object and to no other one, all of them when it is finished; and it
takes at most four hops for a page, each of which is possible. -/
theorem cleanup_exact
    (h : (system P target).ReachableUnder (fun s ev => ¬ reusesUnread s ev) s) :
    (s.memq target).inorder.Nodup ∧ s.derefs <+: (s.memq target).inorder ∧
    (∀ p, s.cleanup = some (.body p) → p ∈ (s.memq target).inorder ∧
      (s.pages p).vmobj = some target ∧ ∀ o, o ≠ target → p ∉ (s.memq o).inorder) ∧
    (s.cleanup = some .finished → s.derefs = (s.memq target).inorder) ∧
    s.steps ≤ 4 * (s.memq target).inorder.length + 1 ∧
    ∀ w, s.cleanup = some w → w ≠ .finished → (step target s .cleanup).isSome := by
  obtain ⟨own, hI⟩ := Ok.of_reachable h
  cases hc : s.cleanup with
  | none =>
    obtain ⟨hd, hsteps⟩ := hI.before hc
    have hnd := (hI.object target (fun _ => hc)).perm.nodup_iff.mp (hI.nodup target)
    refine ⟨(List.nodup_append.mp hnd).1, ?_, nofun, nofun, by omega, nofun⟩
    rw [hd]
    exact List.nil_prefix
  | some w =>
    obtain ⟨-, ⟨dead, n, hat, -, hn⟩, hder, hnd⟩ := hI.cleanup w hc
    refine ⟨hnd, ⟨own target, hder⟩, ?_, ?_, by omega, ?_⟩
    · rintro p hp
      obtain rfl := Option.some.inj hp
      have hown : p ∈ own target := hat.mem_of_body
      refine ⟨?_, ((hI.page p).held target hown).1, fun o ho hp' => ?_⟩
      · rw [← hder]
        exact List.mem_append_right _ hown
      · have hpo : p ∈ own o := (hI.object o (fun he => absurd he ho)).mem_iff.mpr (Or.inl hp')
        exact ho (hI.disjoint _ _ _ hpo hown)
    · intro hw
      obtain rfl := Option.some.inj hw
      rw [← hder, hat.nil_of_finished, List.append_nil]
    · rintro w' hw hne
      obtain rfl := Option.some.inj hw
      obtain ⟨w₁, -, -, -, hs, -⟩ := hat.step hne
      simp [step, hc, hs]

/-! ## Two runs -/

/-- Object 0 gets the pages 10 and 11, object 1 the page 20; then object 0 is torn down up to
the dereference of page 10. -/
def firstDereferenced : List (Event ℕ ℕ) :=
  [.lookupAlloc 0 0 10, .lookupInsert 0, .lookupAlloc 0 4096 11, .lookupInsert 0,
    .lookupAlloc 1 4096 20, .lookupInsert 1, .lastDeref, .cleanup, .cleanup, .cleanup]

/-- Undisturbed, the cleanup dereferences both pages. -/
theorem cleanup_exact_two : ∃ s, (system ℕ 0).Reachable s ∧
    s.cleanup = some .finished ∧ s.derefs = [10, 11] ∧ s.derefs = (s.memq 0).inorder ∧
    s.steps ≤ 4 * (s.memq 0).inorder.length + 1 := by
  obtain ⟨s, hs, hp⟩ := TransitionSystem.exists_reachableUnder_of_runUnder
    (C := fun s ev => (match ev with
      | .lookupAlloc _ _ _ => s.cleanup.isNone
      | _ => true) = true)
    (show (system ℕ 0).init initial from rfl) (firstDereferenced ++ List.replicate 6 .cleanup)
    (fun s => decide (s.cleanup = some .finished ∧ s.derefs = [10, 11])) (by decide)
  obtain ⟨hfin, hderefs⟩ := of_decide_eq_true hp
  have hsafe : (system ℕ 0).ReachableUnder (fun s ev => ¬ reusesUnread s ev) s := by
    refine hs.mono (fun s ev hev => ?_)
    cases ev with
    | lookupAlloc o offset p =>
      rintro ⟨w, a, hw, -⟩
      rw [hw] at hev
      cases hev
    | lookupInsert | pageRef | pageDeref | pmmAlloc | lastDeref | cleanup => exact id
  obtain ⟨-, -, -, hall, hsteps, -⟩ := cleanup_exact hsafe
  exact ⟨s, hs.reachable, hfin, hderefs, hall hfin, hsteps⟩

/-- Object 1 reuses page 10 before the cleanup has gone on. -/
def reusedRun : List (Event ℕ ℕ) :=
  firstDereferenced ++ [.lookupAlloc 1 0 10, .lookupInsert 1, .cleanup, .cleanup]

/-- The cleanup of object 0 dereferences a page of object 1. -/
theorem cleanup_leaves_object : ∃ s, (system ℕ 0).Reachable s ∧
    s.derefs = [10, 20] ∧ (s.memq 0).inorder = [10, 11] ∧ (s.memq 1).inorder = [10, 20] ∧
    (s.pages 20).vmobj = some 1 := by
  obtain ⟨s, hs, hp⟩ := TransitionSystem.exists_reachable_of_run
    (show (system ℕ 0).init initial from rfl) reusedRun
    (fun s => decide (s.derefs = [10, 20] ∧ (s.memq 0).inorder = [10, 11] ∧
      (s.memq 1).inorder = [10, 20] ∧ (s.pages 20).vmobj = some 1)) (by decide)
  exact ⟨s, hs, of_decide_eq_true hp⟩

end VmObject
