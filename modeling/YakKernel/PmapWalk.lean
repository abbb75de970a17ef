/-
# Walking the page tables

What the tables translate after an entry was stored and after an empty table was added: the
entries on the way to an address decide its translation, and as no two paths lead to one table, a
store is seen by the addresses of its own block alone.
-/
import YakKernel.PmapCalls

namespace Pmap

open RadixTree

set_option linter.unusedSectionVars false

variable {P : Type} [DecidableEq P] {kernel p q : P} {s s' : State P} {pa pg t : Paddr} {i : ℕ}
  {va va' : Vaddr} {lvl : ℕ} {pte : Pte} {mem' : Paddr → ℕ → Pte}

/-! ## Paths -/

theorem pathTo_concat (va : Vaddr) (hlvl : lvl ≤ 3) :
    pathTo va (4 - lvl) = pathTo va (3 - lvl) ++ [levelIndex va lvl] := by
  have hdepth : 4 - lvl = (3 - lvl) + 1 := by omega
  have hindex : 3 - (3 - lvl) = lvl := by omega
  rw [hdepth, pathTo, hindex]

theorem level_of_pathTo {k : ℕ} (hk : k ≤ 3) (hlvl : lvl ≤ 3)
    (h : pathTo va' (3 - k) = pathTo va (3 - lvl)) : k = lvl := by
  have hlen := congrArg List.length h
  rw [pathTo_length, pathTo_length] at hlen
  omega

theorem pathTo_of_entry (hlvl : lvl ≤ 3) (h : pathTo va' (4 - lvl) = pathTo va (4 - lvl)) :
    pathTo va' (3 - lvl) = pathTo va (3 - lvl) ∧ levelIndex va' lvl = levelIndex va lvl := by
  rw [pathTo_concat va' hlvl, pathTo_concat va hlvl] at h
  exact ⟨List.append_inj_left' h rfl, List.singleton_inj.mp (List.append_inj_right' h rfl)⟩

theorem tableAt_above (hlvl : lvl + 1 ≤ 3) (ht : s.tableAt p (pathTo va (3 - lvl)) = some t) :
    ∃ t', s.tableAt p (pathTo va (3 - (lvl + 1))) = some t' ∧
      pteIsZero (s.mem t' (levelIndex va (lvl + 1))) = false ∧
      pteIsLarge (s.mem t' (levelIndex va (lvl + 1))) (lvl + 1) = false ∧
      ptePaddr (s.mem t' (levelIndex va (lvl + 1))) = t := by
  have hdepth : pathTo va (3 - lvl) =
      pathTo va (3 - (lvl + 1)) ++ [levelIndex va (lvl + 1)] := by
    have heq : 3 - lvl = 4 - (lvl + 1) := by omega
    rw [heq, pathTo_concat va hlvl]
  have hw := ht
  rw [State.tableAt, hdepth, walk_concat] at hw
  obtain ⟨t', ht', _⟩ := Option.bind_eq_some_iff.mp hw
  refine ⟨t', ht', ?_⟩
  rw [tableAt_pathTo hlvl ht', child_of_lt (levelIndex_lt va (lvl + 1)), pteChild] at ht
  obtain ⟨⟨_, hzero, hlarge⟩, hpa⟩ := Option.ite_none_right_eq_some.mp ht
  exact ⟨hzero, hlarge, Option.some.inj hpa⟩

/-! ## The way to a table -/

theorem translate_down (hlvl : lvl ≤ 3)
    (hframe : ∀ k t', lvl < k → k ≤ 3 → s.tableAt p (pathTo va (3 - k)) = some t' →
      mem' t' (levelIndex va k) = s.mem t' (levelIndex va k))
    (ht : s.tableAt p (pathTo va (3 - lvl)) = some t) :
    translate mem' va 3 (s.topLevel p) = translate mem' va lvl t := by
  obtain ⟨d, hd⟩ : ∃ d, 3 - lvl = d := ⟨_, rfl⟩
  induction d generalizing lvl t with
  | zero =>
    have h3 : lvl = 3 := by omega
    subst h3
    rw [Option.some.inj ht]
  | succ d ih =>
    obtain ⟨t', ht', hzero, hlarge, hpa⟩ := tableAt_above (by omega) ht
    have hup : translate mem' va 3 (s.topLevel p) = translate mem' va (lvl + 1) t' := by
      apply ih (by omega) ?_ ht' (by omega)
      intro k c hk hk3 hc
      exact hframe k c (by omega) hk3 hc
    rw [hup, translate, hframe (lvl + 1) t' (Nat.lt_succ_self lvl) (by omega) ht', hzero, hlarge,
      if_neg Bool.false_ne_true, if_neg Bool.false_ne_true, hpa]

/-- **The tables on the way.**  They stay where they are if the entries above them do. -/
theorem tableAt_pathTo_congr (htop : s'.topLevel p = s.topLevel p) (hlvl : lvl ≤ 3)
    (hframe : ∀ k t', lvl < k → k ≤ 3 → s.tableAt p (pathTo va (3 - k)) = some t' →
      s'.mem t' (levelIndex va k) = s.mem t' (levelIndex va k))
    (ht : s.tableAt p (pathTo va (3 - lvl)) = some t) :
    s'.tableAt p (pathTo va (3 - lvl)) = some t := by
  obtain ⟨d, hd⟩ : ∃ d, 3 - lvl = d := ⟨_, rfl⟩
  induction d generalizing lvl t with
  | zero =>
    have h3 : lvl = 3 := by omega
    subst h3
    rw [← Option.some.inj ht, ← htop]
    rfl
  | succ d ih =>
    obtain ⟨t', ht', _⟩ := tableAt_above (by omega) ht
    have hup := ih (by omega) (fun k c hk hk3 hc => hframe k c (by omega) hk3 hc) ht' (by omega)
    have hentry := hframe (lvl + 1) t' (Nat.lt_succ_self lvl) (by omega) ht'
    rw [tableAt_pathTo (by omega) hup, child_congr hentry, ← tableAt_pathTo (by omega) ht']
    exact ht

/-- **The translation depends on the entries on the way alone.** -/
theorem translation_congr (htop : s'.topLevel p = s.topLevel p)
    (hframe : ∀ k t', k ≤ 3 → s.tableAt p (pathTo va (3 - k)) = some t' →
      s'.mem t' (levelIndex va k) = s.mem t' (levelIndex va k)) :
    s'.translation p va = s.translation p va := by
  have hlevel : ∀ lvl, lvl ≤ 3 → ∀ t, s.tableAt p (pathTo va (3 - lvl)) = some t →
      translate s'.mem va lvl t = translate s.mem va lvl t := by
    intro lvl
    induction lvl with
    | zero =>
      intro h0 t ht
      rw [translate, translate, hframe 0 t h0 ht]
    | succ lvl ih =>
      intro hlvl t ht
      rw [translate, translate, hframe (lvl + 1) t hlvl ht]
      by_cases hzero : pteIsZero (s.mem t (levelIndex va (lvl + 1))) = true
      · rw [if_pos hzero, if_pos hzero]
      rw [if_neg hzero, if_neg hzero]
      by_cases hlarge : pteIsLarge (s.mem t (levelIndex va (lvl + 1))) (lvl + 1) = true
      · rw [if_pos hlarge, if_pos hlarge]
      rw [if_neg hlarge, if_neg hlarge]
      apply ih (by omega)
      rw [tableAt_pathTo hlvl ht, child_of_lt (levelIndex_lt va (lvl + 1)), pteChild]
      exact if_pos ⟨Nat.succ_ne_zero lvl, Bool.eq_false_of_not_eq_true hzero,
        Bool.eq_false_of_not_eq_true hlarge⟩
  rw [State.translation, State.translation, htop]
  exact hlevel 3 (Nat.le_refl 3) _ rfl

/-! ## `pte_fetch` on the way -/

theorem pteFetch_down {atLevel : ℕ} (alloc : Bool) (hlvl : lvl ≤ 3) (hat : atLevel ≤ lvl)
    (ht : s.tableAt p (pathTo va (3 - lvl)) = some t) :
    pteFetch kernel p va atLevel alloc s = fetchFrom kernel p va atLevel alloc lvl t s := by
  obtain ⟨d, hd⟩ : ∃ d, 3 - lvl = d := ⟨_, rfl⟩
  induction d generalizing lvl t with
  | zero =>
    have h3 : lvl = 3 := by omega
    subst h3
    rw [← Option.some.inj ht]
    rfl
  | succ d ih =>
    obtain ⟨t', ht', hzero, hlarge, hpa⟩ := tableAt_above (by omega) ht
    have hne : atLevel ≠ lvl + 1 := by omega
    rw [ih (by omega) (by omega) ht' (by omega), fetchFrom, if_neg hne, hzero, hlarge,
      if_neg Bool.false_ne_true, if_neg Bool.false_ne_true, hpa]

theorem pteFetch_of_tableAt (alloc : Bool) (hlvl : lvl ≤ 3)
    (ht : s.tableAt p (pathTo va (3 - lvl)) = some t) :
    pteFetch kernel p va lvl alloc s = some (s, some (t, levelIndex va lvl)) := by
  rw [pteFetch_down alloc hlvl (Nat.le_refl lvl) ht]
  cases lvl with
  | zero => rw [fetchFrom, if_pos rfl]
  | succ lvl => rw [fetchFrom, if_pos rfl]

/-! ## A store -/

/-- No two paths of `p` lead to one table. -/
def State.Separate (s : State P) (p : P) : Prop := Distinct (child s.mem) 3 (s.topLevel p)

theorem pteStore_of_ne (h : pg ≠ t) (j : ℕ) : (s.pteStore t i pte).mem pg j = s.mem pg j := by
  rw [State.pteStore_apply]
  exact if_neg (fun hand => h hand.1)

theorem State.Separate.ne_above (h : s.Separate p) (hlvl : lvl ≤ 3)
    (ht : s.tableAt p (pathTo va (3 - lvl)) = some t) {k : ℕ} (hlt : lvl < k) (hk : k ≤ 3)
    (hpg : s.tableAt p (pathTo va' (3 - k)) = some pg) : pg ≠ t := by
  rintro rfl
  have hpath := h _ _ _ hpg ht
  have hlevel := level_of_pathTo hk hlvl hpath
  omega

/-- **A store where no table is pointed to**, as the tree sees it: there is nothing new. -/
theorem State.Separate.tableAt_pteStore (h : s.Separate p) {place path : List ℕ}
    (ht : s.tableAt p place = some t) (hpte : pteChild (3 - place.length) pte = none)
    (hw : (s.pteStore t i pte).tableAt p path = some pg) : s.tableAt p path = some pg := by
  have hnew : walk (child (s.pteStore t i pte).mem) 3 (s.topLevel p) path = some pg := hw
  refine walk_cut (i := i) (fun path' hpath' => h _ _ _ hpath' ht) ?_ ?_ path hnew
  · intro k c j hother
    apply child_congr
    rw [State.pteStore_apply]
    exact if_neg hother
  · refine child_eq_none ?_ hpte
    rw [State.pteStore_apply]
    exact if_pos ⟨rfl, rfl⟩

theorem State.Separate.pteStore (h : s.Separate p) {place : List ℕ}
    (ht : s.tableAt p place = some t) (hpte : pteChild (3 - place.length) pte = none) :
    (s.pteStore t i pte).Separate p := by
  intro path path' c hc hc'
  exact h path path' c (h.tableAt_pteStore ht hpte hc) (h.tableAt_pteStore ht hpte hc')

theorem State.Separate.tableAt_pteStore_self (h : s.Separate p) (hlvl : lvl ≤ 3)
    (ht : s.tableAt p (pathTo va (3 - lvl)) = some t) (i : ℕ) (pte : Pte) :
    (s.pteStore t i pte).tableAt p (pathTo va (3 - lvl)) = some t := by
  refine tableAt_pathTo_congr (s := s) rfl hlvl ?_ ht
  intro k c hlt hk hc
  exact pteStore_of_ne (h.ne_above hlvl ht hlt hk hc) _

/-- **What the addresses see of a store.**  Those of the block get the entry, the others have what
they had. -/
theorem State.Separate.translation_pteStore (h : s.Separate p) (hlvl : lvl ≤ 3)
    (ht : s.tableAt p (pathTo va (3 - lvl)) = some t) (hpte : pteChild lvl pte = none)
    (va' : Vaddr) : (s.pteStore t (levelIndex va lvl) pte).translation p va' =
      if pathTo va' (4 - lvl) = pathTo va (4 - lvl) then
        if pteIsZero pte then none else some (pte, lvl)
      else s.translation p va' := by
  by_cases hblock : pathTo va' (4 - lvl) = pathTo va (4 - lvl)
  · obtain ⟨hpath, hindex⟩ := pathTo_of_entry hlvl hblock
    rw [if_pos hblock]
    have ht' : s.tableAt p (pathTo va' (3 - lvl)) = some t := by
      rw [hpath]
      exact ht
    have hdown : translate (s.pteStore t (levelIndex va lvl) pte).mem va' 3 (s.topLevel p) =
        translate (s.pteStore t (levelIndex va lvl) pte).mem va' lvl t := by
      refine translate_down hlvl ?_ ht'
      intro k c hlt hk hc
      exact pteStore_of_ne (h.ne_above hlvl ht hlt hk hc) _
    have hentry : (s.pteStore t (levelIndex va lvl) pte).mem t (levelIndex va' lvl) = pte := by
      rw [State.pteStore_apply, hindex]
      exact if_pos ⟨rfl, rfl⟩
    refine hdown.trans ?_
    cases lvl with
    | zero => rw [translate, hentry]
    | succ lvl =>
      rw [translate, hentry]
      by_cases hzero : pteIsZero pte = true
      · rw [if_pos hzero, if_pos hzero]
      · have hlarge : pteIsLarge pte (lvl + 1) = true := by
          by_contra hno
          have hsome : pteChild (lvl + 1) pte = some (ptePaddr pte) :=
            if_pos ⟨Nat.succ_ne_zero lvl, Bool.eq_false_of_not_eq_true hzero,
              Bool.eq_false_of_not_eq_true hno⟩
          rw [hpte] at hsome
          cases hsome
        rw [if_neg hzero, if_neg hzero, if_pos hlarge]
  · rw [if_neg hblock]
    refine translation_congr rfl ?_
    intro k c hk hc
    rw [State.pteStore_apply]
    apply if_neg
    rintro ⟨rfl, hindex⟩
    have hpath := h _ _ _ hc ht
    have hlevel := level_of_pathTo hk hlvl hpath
    subst hlevel
    apply hblock
    rw [pathTo_concat va' hk, pathTo_concat va hk, hpath, hindex]

/-! ## An empty table -/

theorem State.Labelled.separate (h : s.Labelled kernel p) : s.Separate p := h.distinct

theorem State.Labelled.pteStore (h : s.Labelled kernel p) {place : List ℕ}
    (ht : s.tableAt p place = some t) (hpte : pteChild (3 - place.length) pte = none) :
    (s.pteStore t i pte).Labelled kernel p :=
  fun path pg hw => h path pg (h.separate.tableAt_pteStore ht hpte hw)

section

variable {rest : List Paddr}

/-- The state after `pte_fetch` has added a table at the entry for `va`. -/
def State.growAt (s : State P) (kernel p : P) (va : Vaddr) (lvl : ℕ) (rest : List Paddr)
    (t pa : Paddr) : State P :=
  s.grow rest t (levelIndex va lvl) pa
    ⟨ownerOf kernel p (pathTo va (4 - lvl)), pathTo va (4 - lvl)⟩

theorem State.Labelled.tableAt_growAt (h : s.Labelled kernel p) (hlvl : lvl + 1 ≤ 3)
    (ht : s.tableAt p (pathTo va (3 - (lvl + 1))) = some t)
    (hzero : s.mem t (levelIndex va (lvl + 1)) = 0) (hfresh : s.Fresh pa) (path : List ℕ) :
    (s.growAt kernel p va (lvl + 1) rest t pa).tableAt p path =
      if path = pathTo va (4 - (lvl + 1)) then some pa else s.tableAt p path := by
  have hlen : (pathTo va (3 - (lvl + 1))).length < 3 := by
    rw [pathTo_length]
    omega
  rw [State.growAt, h.tableAt_grow rest _ (h _ t ht) hlen (levelIndex_lt va _) hzero hfresh,
    ← pathTo_concat va hlvl]
  simp only [ht, and_true]

theorem State.Labelled.growAt (h : s.Labelled kernel p) (hlvl : lvl + 1 ≤ 3)
    (ht : s.tableAt p (pathTo va (3 - (lvl + 1))) = some t)
    (hzero : s.mem t (levelIndex va (lvl + 1)) = 0) (hfresh : s.Fresh pa) :
    (s.growAt kernel p va (lvl + 1) rest t pa).Labelled kernel p := by
  intro path pg hw
  rw [h.tableAt_growAt hlvl ht hzero hfresh] at hw
  show Function.update s.tables pa _ pg = _
  by_cases hnew : path = pathTo va (4 - (lvl + 1))
  · rw [if_pos hnew, Option.some.injEq] at hw
    rw [← hw, Function.update_self, hnew]
  · rw [if_neg hnew] at hw
    have hlabel := h path pg hw
    have hne : pg ≠ pa := by
      rintro rfl
      rw [hfresh.1] at hlabel
      cases hlabel
    rw [Function.update_of_ne hne]
    exact hlabel

/-- **An empty table translates nothing**: what the addresses see is as before. -/
theorem State.Labelled.translation_growAt (h : s.Labelled kernel p) (hlvl : lvl + 1 ≤ 3)
    (ht : s.tableAt p (pathTo va (3 - (lvl + 1))) = some t)
    (hzero : s.mem t (levelIndex va (lvl + 1)) = 0) (hfresh : s.Fresh pa) (va' : Vaddr) :
    (s.growAt kernel p va (lvl + 1) rest t pa).translation p va' = s.translation p va' := by
  have hold : ∀ {path pg}, s.tableAt p path = some pg → pg ≠ pa := by
    rintro path pg hpg rfl
    have hlabel := h path pg hpg
    rw [hfresh.1] at hlabel
    cases hlabel
  have hmem : ∀ {path pg} {j : ℕ}, s.tableAt p path = some pg →
      ¬ (pg = t ∧ j = levelIndex va (lvl + 1)) →
      (s.growAt kernel p va (lvl + 1) rest t pa).mem pg j = s.mem pg j := by
    intro path pg j hpg hother
    rw [State.growAt, State.grow_mem, if_neg hother, if_neg (hold hpg)]
  by_cases hblock : pathTo va' (4 - (lvl + 1)) = pathTo va (4 - (lvl + 1))
  · obtain ⟨hpath, hindex⟩ := pathTo_of_entry hlvl hblock
    have ht' : s.tableAt p (pathTo va' (3 - (lvl + 1))) = some t := by
      rw [hpath]
      exact ht
    have hbefore : s.translation p va' = none := by
      refine (translate_down hlvl (fun _ _ _ _ _ => rfl) ht').trans ?_
      rw [translate, hindex, hzero]
      rfl
    -- the way now ends in the new table, which is empty
    have hnew : (s.growAt kernel p va (lvl + 1) rest t pa).tableAt p (pathTo va' (3 - lvl))
        = some pa := by
      have hdepth : 3 - lvl = 4 - (lvl + 1) := by omega
      rw [h.tableAt_growAt hlvl ht hzero hfresh, hdepth, if_pos hblock]
    have hempty : (s.growAt kernel p va (lvl + 1) rest t pa).mem pa (levelIndex va' lvl) = 0 := by
      rw [State.growAt, State.grow_mem, if_neg (fun hand => hold ht hand.1.symm), if_pos rfl]
    rw [hbefore]
    refine (translate_down (by omega) (fun _ _ _ _ _ => rfl) hnew).trans ?_
    cases lvl with
    | zero => rw [translate, hempty]; rfl
    | succ lvl => rw [translate, hempty]; rfl
  · refine translation_congr rfl ?_
    intro k c hk hc
    apply hmem hc
    rintro ⟨rfl, hindex⟩
    have hpath := h.separate _ _ _ hc ht
    have hlevel := level_of_pathTo hk hlvl hpath
    subst hlevel
    apply hblock
    rw [pathTo_concat va' hk, pathTo_concat va hk, hpath, hindex]

end

/-! ## The entry of a translation -/

theorem exists_table_of_translate {r : Pte × ℕ} (hlvl : lvl ≤ 3)
    (ht : s.tableAt p (pathTo va (3 - lvl)) = some t) (h : translate s.mem va lvl t = some r) :
    r.2 ≤ lvl ∧ ∃ t', s.tableAt p (pathTo va (3 - r.2)) = some t' ∧
      s.mem t' (levelIndex va r.2) = r.1 := by
  induction lvl generalizing t with
  | zero =>
    rw [translate] at h
    obtain ⟨_, h⟩ := Option.ite_none_left_eq_some.mp h
    rw [← Option.some.inj h]
    exact ⟨Nat.le_refl 0, t, ht, rfl⟩
  | succ lvl ih =>
    rw [translate] at h
    obtain ⟨hzero, h⟩ := Option.ite_none_left_eq_some.mp h
    by_cases hlarge : pteIsLarge (s.mem t (levelIndex va (lvl + 1))) (lvl + 1) = true
    · rw [if_pos hlarge] at h
      rw [← Option.some.inj h]
      exact ⟨Nat.le_refl _, t, ht, rfl⟩
    · rw [if_neg hlarge] at h
      obtain ⟨hle, hfound⟩ := ih (by omega) (by
        rw [tableAt_pathTo hlvl ht, child_of_lt (levelIndex_lt va (lvl + 1)), pteChild]
        exact if_pos ⟨Nat.succ_ne_zero lvl, Bool.eq_false_of_not_eq_true hzero,
          Bool.eq_false_of_not_eq_true hlarge⟩) h
      exact ⟨Nat.le_succ_of_le hle, hfound⟩

theorem State.Separate.tableAt_pteStore_leaf (h : s.Separate p) {place : List ℕ}
    (ht : s.tableAt p place = some t) (hplace : place.length = 3) (i : ℕ) (pte : Pte)
    (path : List ℕ) : (s.pteStore t i pte).tableAt p path = s.tableAt p path := by
  refine walk_congr path ?_
  intro path' c j hc
  by_cases hhere : c = t
  · subst hhere
    have hpath := h path' place c hc ht
    rw [hpath, hplace, Nat.sub_self, child_leaf, child_leaf]
  · exact child_congr (pteStore_of_ne hhere j)

/-! ## Blocks of addresses -/

/-- The addresses that the processor takes: 47 bits, and the sign of the 48th in all others. -/
def Canonical (va : Vaddr) : Prop := va.toNat < 2 ^ 47 ∨ 2 ^ 64 - 2 ^ 47 ≤ va.toNat

theorem levelIndex_eq (va : Vaddr) (lvl : ℕ) :
    levelIndex va lvl = va.toNat / 2 ^ (12 + 9 * lvl) % 512 := by
  rw [levelIndex, BitVec.toNat_and, BitVec.toNat_ushiftRight, Nat.shiftRight_eq_div_pow]
  exact Nat.and_two_pow_sub_one_eq_mod _ 9

theorem pathTo_eq_iff {depth : ℕ} (hdepth : depth ≤ 4) : pathTo va' depth = pathTo va depth ↔
    va'.toNat % 2 ^ 48 / 2 ^ (48 - 9 * depth) = va.toNat % 2 ^ 48 / 2 ^ (48 - 9 * depth) := by
  induction depth with
  | zero =>
    have hlt : ∀ x : ℕ, x % 2 ^ 48 / 2 ^ 48 = 0 :=
      fun x => Nat.div_eq_of_lt (Nat.mod_lt x (by decide))
    exact iff_of_true rfl ((hlt _).trans (hlt _).symm)
  | succ d ih =>
    have hstep : pathTo va' (d + 1) = pathTo va (d + 1) ↔
        pathTo va' d = pathTo va d ∧ levelIndex va' (3 - d) = levelIndex va (3 - d) := by
      refine ⟨fun h => ⟨List.append_inj_left' h rfl, List.singleton_inj.mp
        (List.append_inj_right' h rfl)⟩, fun h => ?_⟩
      rw [pathTo, pathTo, h.1, h.2]
    rw [hstep, ih (by omega), levelIndex_eq, levelIndex_eq]
    have hd : d ≤ 3 := by omega
    clear ih hstep hdepth
    interval_cases d
    all_goals omega

/-- **The block of an entry**, among the addresses that the processor takes. -/
theorem pathTo_eq_iff_sub_lt (hlvl : lvl ≤ 2) (hva : Canonical va) (hva' : Canonical va')
    (halign : va.toNat % 2 ^ (12 + 9 * lvl) = 0) :
    pathTo va' (4 - lvl) = pathTo va (4 - lvl) ↔ (va' - va).toNat < 2 ^ (12 + 9 * lvl) := by
  have hlt := va.isLt
  have hlt' := va'.isLt
  rw [pathTo_eq_iff (by omega), BitVec.toNat_sub]
  rw [Canonical] at hva hva'
  interval_cases lvl
  all_goals omega

/-! ## A mapping where nothing is mapped -/

theorem pteIsZero_make {prot : VmProt} (hprot : prot &&& vmRead ≠ 0) (level : ℕ) (pa : Paddr)
    (cache : VmCache) : pteIsZero (pteMake level pa prot cache) = false := by
  apply decide_eq_false
  intro hzero
  have hbit := congrArg (fun x : BitVec 64 => x.getLsbD 0) hzero
  simp only [pteMake, BitVec.getLsbD_or, if_pos hprot] at hbit
  exact absurd hbit (by simp [ptePresent])

/-- `pmm_alloc_zeroed` has pages. -/
structure State.Supplied (s : State P) (n : ℕ) : Prop where
  nodup : s.pool.Nodup
  fresh : ∀ pa ∈ s.pool, s.Fresh pa
  enough : n ≤ s.pool.length

/-- What a call keeps that adds tables: the tables are known, what is translated is as before, and
of `m` pages there are `n` left. -/
structure State.Extends (kernel p : P) (n : ℕ) (s s' : State P) : Prop where
  labelled : s'.Labelled kernel p
  topLevel : s'.topLevel p = s.topLevel p
  translation : ∀ va', s'.translation p va' = s.translation p va'
  supplied : s'.Supplied n

theorem State.Labelled.extends_growAt {n : ℕ} {rest : List Paddr} (h : s.Labelled kernel p)
    (hlvl : lvl + 1 ≤ 3) (ht : s.tableAt p (pathTo va (3 - (lvl + 1))) = some t)
    (hzero : s.mem t (levelIndex va (lvl + 1)) = 0) (hsup : s.Supplied (n + 1))
    (hpool : s.pool = pa :: rest) :
    State.Extends kernel p n s (s.growAt kernel p va (lvl + 1) rest t pa) := by
  obtain ⟨hnodup, hfresh, henough⟩ := hsup
  rw [hpool] at hnodup hfresh henough
  have hpa := hfresh pa List.mem_cons_self
  refine ⟨h.growAt hlvl ht hzero hpa, rfl, h.translation_growAt hlvl ht hzero hpa, ?_⟩
  refine ⟨(List.nodup_cons.mp hnodup).2, ?_, Nat.le_of_succ_le_succ henough⟩
  intro pg hpg
  have hne : pg ≠ pa := by
    rintro rfl
    exact (List.nodup_cons.mp hnodup).1 hpg
  have hold := hfresh pg (List.mem_cons_of_mem pa hpg)
  refine ⟨?_, hold.2⟩
  exact (Function.update_of_ne hne _ _).trans hold.1

/-- **`pte_fetch` with `alloc`** reaches the entry of an address where nothing is mapped. -/
theorem fetchFrom_alloc {atLevel n : ℕ} (h : s.Labelled kernel p) (hlvl : lvl ≤ 3)
    (hat : atLevel ≤ lvl) (ht : s.tableAt p (pathTo va (3 - lvl)) = some t)
    (hnone : s.translation p va = none) (hsup : s.Supplied (n + lvl)) :
    ∃ s' t', fetchFrom kernel p va atLevel true lvl t s = some (s', some (t', levelIndex va atLevel))
      ∧ s'.tableAt p (pathTo va (3 - atLevel)) = some t' ∧ State.Extends kernel p n s s' := by
  have hself : State.Extends kernel p n s s :=
    ⟨h, rfl, fun _ => rfl, hsup.nodup, hsup.fresh, Nat.le_trans (Nat.le_add_right n lvl) hsup.enough⟩
  induction lvl generalizing s t with
  | zero =>
    have hzero : atLevel = 0 := Nat.le_zero.mp hat
    subst hzero
    exact ⟨s, t, by rw [fetchFrom, if_pos rfl], ht, hself⟩
  | succ lvl ih =>
    by_cases hhere : atLevel = lvl + 1
    · subst hhere
      exact ⟨s, t, by rw [fetchFrom, if_pos rfl], ht, hself⟩
    have hdown : translate s.mem va (lvl + 1) t = none :=
      (translate_down hlvl (fun _ _ _ _ _ => rfl) ht).symm.trans hnone
    rw [fetchFrom, if_neg hhere]
    by_cases hz : pteIsZero (s.mem t (levelIndex va (lvl + 1))) = true
    · -- a page is taken
      obtain ⟨pa, rest, hpool⟩ : ∃ pa rest, s.pool = pa :: rest := by
        apply List.exists_cons_of_length_pos
        have henough := hsup.enough
        omega
      have hpa := hsup.fresh pa (by rw [hpool]; exact List.mem_cons_self)
      have hz' := of_decide_eq_true hz
      have hsup' : s.Supplied (n + lvl + 1) := hsup
      have hext := h.extends_growAt hlvl ht hz' hsup' hpool
      have halloc : s.pmmAllocZeroed = some (pa, s.takePage pa rest) := by
        rw [State.pmmAllocZeroed, hpool]
        exact if_pos hpa
      have hdepth : 3 - lvl = 4 - (lvl + 1) := by omega
      obtain ⟨s', t', hfetch, ht', hext'⟩ := ih hext.labelled (by omega) (by omega)
        (by rw [h.tableAt_growAt hlvl ht hz' hpa, hdepth, if_pos rfl])
        ((hext.translation va).trans hnone) hext.supplied
        ⟨hext.labelled, rfl, fun _ => rfl, hext.supplied.nodup, hext.supplied.fresh,
          Nat.le_trans (Nat.le_add_right n lvl) hext.supplied.enough⟩
      refine ⟨s', t', ?_, ht', hext'.labelled, hext'.topLevel.trans hext.topLevel, ?_,
        hext'.supplied⟩
      · rw [if_pos hz, if_pos rfl, halloc, Option.bind_some, if_neg hpa.2.1,
          ptePaddr_makeDir hpa.2.2]
        exact hfetch
      · intro va'
        rw [hext'.translation, hext.translation]
    · have hlarge : ¬ pteIsLarge (s.mem t (levelIndex va (lvl + 1))) (lvl + 1) = true := by
        intro hlarge
        rw [translate, if_neg hz, if_pos hlarge] at hdown
        cases hdown
      rw [if_neg hz, if_neg hlarge]
      refine ih h (by omega) (by omega) ?_ hnone ⟨hsup.nodup, hsup.fresh, ?_⟩ hself
      · rw [tableAt_pathTo hlvl ht, child_of_lt (levelIndex_lt va (lvl + 1)), pteChild]
        exact if_pos ⟨Nat.succ_ne_zero lvl, Bool.eq_false_of_not_eq_true hz,
          Bool.eq_false_of_not_eq_true hlarge⟩
      · have henough := hsup.enough
        omega

/-- What a mapping does: it is all that has changed. -/
structure State.Maps (kernel p : P) (va pa : Vaddr) (level : ℕ) (prot : VmProt) (cache : VmCache)
    (n : ℕ) (s s' : State P) : Prop where
  labelled : s'.Labelled kernel p
  translation : ∀ va', s'.translation p va' =
    if pathTo va' (4 - level) = pathTo va (4 - level) then
      some (pteMake level pa prot cache, level)
    else s.translation p va'
  supplied : s'.Supplied n

/-- **`pmap_map` where nothing is mapped.** -/
theorem pmapMap_maps {level n : ℕ} {prot : VmProt} (pa : Paddr) (cache : VmCache)
    (h : s.Labelled kernel p) (hlevel : level ≤ 3) (hprot : prot &&& vmRead ≠ 0)
    (hnone : s.translation p va = none) (hsup : s.Supplied (n + 3)) :
    ∃ s', pmapMap kernel p va pa level prot cache s = some s' ∧
      State.Maps kernel p va pa level prot cache n s s' := by
  obtain ⟨s₁, t, hfetch, ht, hext⟩ := fetchFrom_alloc h (Nat.le_refl 3) hlevel rfl hnone hsup
  have hleaf := pteChild_make level pa prot cache
  have hplace : 3 - (pathTo va (3 - level)).length = level := by
    rw [pathTo_length]
    omega
  refine ⟨s₁.pteStore t (levelIndex va level) (pteMake level pa prot cache), ?_, ?_, ?_, ?_⟩
  · rw [pmapMap, if_neg hprot, pteFetch, hfetch]
    rfl
  · refine hext.labelled.pteStore ht ?_
    rw [hplace]
    exact hleaf
  · intro va'
    have hzero : pteIsZero (pteMake level pa prot cache) = false := pteIsZero_make hprot level pa cache
    rw [hext.labelled.separate.translation_pteStore hlevel ht hleaf, hext.translation, hzero]
    rfl
  · exact ⟨hext.supplied.nodup, hext.supplied.fresh, hext.supplied.enough⟩

/-! ## A small pmap -/

/-- A pmap without mappings: the root, and six pages for tables. -/
def unmapped : State Unit where
  mem := fun _ _ => 0
  topLevel := fun _ => 0x1000
  live := fun _ => true
  mappedOn := fun _ => false
  pool := [0x2000, 0x3000, 0x4000, 0x5000, 0x6000, 0x7000]
  tables := fun pg => if pg = 0x1000 then some ⟨(), []⟩ else none
  freed := []

theorem unmapped_labelled : unmapped.Labelled () () := by
  intro path pg hw
  cases path with
  | nil =>
    rw [← Option.some.inj hw]
    rfl
  | cons i path =>
    rw [State.tableAt, RadixTree.walk_cons, child_eq_none rfl (pteChild_zero 3)] at hw
    cases hw

theorem unmapped_fresh : ∀ pa ∈ unmapped.pool, unmapped.Fresh pa := by
  intro pa hpa
  simp only [unmapped, List.mem_cons, List.not_mem_nil, or_false] at hpa
  rcases hpa with rfl | rfl | rfl | rfl | rfl | rfl
  all_goals decide

end Pmap
