/-
# Runs of slashes

`split_path` rewrites the copy of the path in place into components that end in null characters,
and the loop of `vfs_lookup_path` goes from one to the next by their lengths.  It visits the
components of the path; what else the lookup takes from the text is whether it begins and ends in
a slash, and whether it is `/` or `.`.
-/
import YakKernel.VfsLookup
import YakKernel.PathComponents

namespace Vfs

open Prog PathComponents

/-! ## `split_path` -/

/-- The null character. -/
def nul : Char := Char.ofNat 0

/-- The variables of `split_path`, and the buffer; `src` and `dst` are positions in it. -/
structure Splitting where
  buf : List Char
  src : ℕ
  dst : ℕ
  count : ℕ
  inComp : Bool

/-- `*src`. -/
def Splitting.cur (s : Splitting) : Char := s.buf.getD s.src nul

/-- `while (*src == '/') src++`. -/
def Splitting.skipSlashes (s : Splitting) : ℕ :=
  s.src + ((s.buf.drop s.src).takeWhile (· = '/')).length

/-- A round of the loop. -/
def Splitting.step (s : Splitting) : Splitting :=
  if s.cur = '/' then
    if s.inComp then
      { s with buf := s.buf.set s.dst nul, src := s.skipSlashes, dst := s.dst + 1, inComp := false }
    else { s with src := s.skipSlashes }
  else
    { buf := s.buf.set s.dst s.cur
      src := s.src + 1
      dst := s.dst + 1
      count := if s.inComp then s.count else s.count + 1
      inComp := true }

/-- The loop, for fewer than `n` rounds, and the last null character. -/
def Splitting.run : ℕ → Splitting → Option Splitting
  | 0, _ => none
  | n + 1, s => if s.cur = nul then some { s with buf := s.buf.set s.dst nul } else s.step.run n

/-- `split_path` of a copy of the path: the number of components, and what the buffer holds. -/
def splitInPlace (path : Name) : Option (ℕ × List Char) :=
  (Splitting.run (path.length + 1) ⟨path ++ [nul], 0, 0, 0, false⟩).map (fun s => (s.count, s.buf))

/-- The string at a position of the buffer. -/
def stringAt (buf : List Char) (comp : ℕ) : Name := (buf.drop comp).takeWhile (· ≠ nul)

/-- The components that the loop of `vfs_lookup_path` visits, from `comp` on. -/
def visited (buf : List Char) : ℕ → ℕ → List Name
  | 0, _ => []
  | n + 1, comp =>
    stringAt buf comp :: visited buf n (comp + (stringAt buf comp).length + 1)

/-! ## What it leaves in the buffer -/

/-- Components, each with its null character. -/
def text (comps : List Name) : List Char := (comps.map (fun comp => comp ++ [nul])).flatten

/-- **The invariant of the loop**: whole components `comps`, the letters `word` of the next one, and
the `rest` of the path, which is still as it was. -/
structure Splitting.Inv (s : Splitting) (comps : List Name) (word rest : Name) : Prop where
  buf_eq : ∃ gap, s.buf = text comps ++ word ++ (gap ++ (rest ++ [nul])) ∧
    s.src = (text comps ++ word ++ gap).length
  dst_eq : s.dst = (text comps ++ word).length
  inComp_iff : s.inComp = true ↔ word ≠ []
  count_eq : s.count = comps.length + if word = [] then 0 else 1
  word_slash : '/' ∉ word

variable {s : Splitting} {comps : List Name} {word rest : Name} {c : Char}

theorem text_append (comps : List Name) (word : Name) :
    text (comps ++ [word]) = text comps ++ word ++ [nul] := by
  rw [text, List.map_append, List.flatten_append, ← text]
  simp

theorem Splitting.Inv.drop_eq (h : s.Inv comps word rest) : s.buf.drop s.src = rest ++ [nul] := by
  obtain ⟨gap, hbuf, hsrc⟩ := h.buf_eq
  rw [hbuf, hsrc, ← List.append_assoc, List.drop_left]

theorem Splitting.Inv.cur_eq (h : s.Inv comps word rest) : s.cur = rest.headD nul := by
  rw [Splitting.cur, List.getD_eq_getElem?_getD, ← List.head?_drop, h.drop_eq]
  cases rest with
  | nil => rfl
  | cons c rest => rfl

/-- Writing at `dst` puts a character after the word, and takes one from the gap or the rest. -/
theorem Splitting.Inv.set_eq (h : s.Inv comps word (c :: rest)) (x : Char) (taken left : Name)
    (hsplit : c :: rest = taken ++ left) (htaken : taken ≠ []) :
    ∃ gap, s.buf.set s.dst x = text comps ++ word ++ [x] ++ (gap ++ (left ++ [nul])) ∧
      s.src + taken.length = (text comps ++ word ++ [x] ++ gap).length := by
  obtain ⟨gap, hbuf, hsrc⟩ := h.buf_eq
  have hne : gap ++ taken ≠ [] := by simp [htaken]
  refine ⟨(gap ++ taken).tail, ?_, ?_⟩
  · rw [hbuf, h.dst_eq, List.set_append_right _ _ (le_refl _), Nat.sub_self, hsplit]
    obtain ⟨y, ys, hy⟩ := List.exists_cons_of_ne_nil hne
    have hassoc : gap ++ (taken ++ left ++ [nul]) = (gap ++ taken) ++ (left ++ [nul]) := by simp
    rw [hassoc, hy]
    simp
  · have hlen : (gap ++ taken).length ≠ 0 := by simpa using hne
    rw [hsrc]
    simp only [List.length_append, List.length_tail, List.length_cons, List.length_nil] at hlen ⊢
    omega

theorem Splitting.Inv.step_letter (h : s.Inv comps word (c :: rest)) (hc : c ≠ '/') :
    s.step.Inv comps (word ++ [c]) rest := by
  have hcur : s.cur = c := h.cur_eq
  obtain ⟨gap, hbuf, hsrc⟩ := h.set_eq c [c] rest rfl (List.cons_ne_nil _ _)
  rw [Splitting.step, hcur, if_neg hc]
  refine ⟨⟨gap, ?_, ?_⟩, ?_, ?_, ?_, ?_⟩
  · rw [← List.append_assoc (text comps) word [c]]
    exact hbuf
  · rw [← List.append_assoc (text comps) word [c]]
    exact hsrc
  · show s.dst + 1 = _
    rw [h.dst_eq]
    simp
    omega
  · simp
  · show (if s.inComp then s.count else s.count + 1) = _
    have hcount := h.count_eq
    by_cases hword : word = []
    · have hin : ¬ s.inComp = true := by
        rw [h.inComp_iff]
        exact fun hne => hne hword
      rw [if_neg hin, hcount, if_pos hword]
      simp
    · rw [if_pos (h.inComp_iff.mpr hword), hcount, if_neg hword]
      simp
  · rw [List.mem_append, not_or]
    exact ⟨h.word_slash, by simpa using Ne.symm hc⟩

theorem Splitting.Inv.skipSlashes_eq (h : s.Inv comps word rest) :
    s.skipSlashes = s.src + (rest.takeWhile (· = '/')).length := by
  have hnul : ∀ rest : Name,
      (rest ++ [nul]).takeWhile (· = '/') = rest.takeWhile (· = '/') := by
    intro rest
    induction rest with
    | nil => rfl
    | cons c rest ih => rw [List.cons_append, List.takeWhile_cons, List.takeWhile_cons, ih]
  rw [Splitting.skipSlashes, h.drop_eq, hnul]

theorem Splitting.Inv.step_slash (h : s.Inv comps word ('/' :: rest)) :
    s.step.Inv (if word = [] then comps else comps ++ [word]) []
      (('/' :: rest).dropWhile (· = '/')) := by
  have hcur : s.cur = '/' := h.cur_eq
  have hskip := h.skipSlashes_eq
  have hcount := h.count_eq
  have htaken : ('/' :: rest).takeWhile (· = '/') ≠ [] := by simp
  have hsplit := (List.takeWhile_append_dropWhile (p := fun c => decide (c = '/'))
    (l := '/' :: rest)).symm
  rw [Splitting.step, if_pos hcur]
  by_cases hword : word = []
  · have hin : ¬ s.inComp = true := by
      rw [h.inComp_iff]
      exact fun hne => hne hword
    rw [if_neg hin, if_pos hword]
    obtain ⟨gap, hbuf, hsrc⟩ := h.buf_eq
    refine ⟨⟨gap ++ ('/' :: rest).takeWhile (· = '/'), ?_, ?_⟩, ?_, ?_, ?_, List.not_mem_nil⟩
    · show s.buf = _
      rw [hbuf, hword, List.append_assoc gap, ← List.append_assoc (('/' :: rest).takeWhile _),
        ← hsplit]
    · show s.skipSlashes = _
      rw [hskip, hsrc, hword]
      simp only [List.length_append]
      omega
    · rw [← hword]
      exact h.dst_eq
    · exact ⟨fun hyes => absurd hyes hin, fun hno => absurd rfl hno⟩
    · rw [hword] at hcount
      exact hcount
  · rw [if_pos (h.inComp_iff.mpr hword), if_neg hword]
    obtain ⟨gap, hbuf, hsrc⟩ := h.set_eq nul _ _ hsplit htaken
    refine ⟨⟨gap, ?_, ?_⟩, ?_, ?_, ?_, List.not_mem_nil⟩
    · rw [text_append, List.append_nil]
      exact hbuf
    · show s.skipSlashes = _
      rw [text_append, List.append_nil, hskip]
      exact hsrc
    · show s.dst + 1 = _
      rw [h.dst_eq, text_append]
      simp only [List.length_append, List.length_cons, List.length_nil]
    · exact ⟨fun hno => absurd hno Bool.false_ne_true, fun hno => absurd rfl hno⟩
    · show s.count = _
      rw [hcount, if_neg hword, if_pos rfl, List.length_append, List.length_cons, List.length_nil]

theorem components_word (hword : '/' ∉ word) :
    components '/' word = if word = [] then [] else [word] := by
  by_cases h : word = []
  · rw [if_pos h, h]
    rfl
  · rw [if_neg h, components_of_notMem h hword]

theorem Splitting.Inv.finish (h : s.Inv comps word []) :
    ∃ tail, s.buf.set s.dst nul = text (comps ++ components '/' word) ++ tail := by
  obtain ⟨gap, hbuf, _⟩ := h.buf_eq
  obtain ⟨y, ys, hy⟩ : ∃ y ys, gap ++ ([] ++ [nul]) = y :: ys :=
    List.exists_cons_of_ne_nil (by simp)
  rw [hbuf, h.dst_eq, List.set_append_right _ _ (le_refl _), Nat.sub_self, hy, List.set_cons_zero,
    components_word h.word_slash]
  by_cases hword : word = []
  · rw [if_pos hword, hword]
    exact ⟨nul :: ys, by simp⟩
  · rw [if_neg hword, text_append]
    exact ⟨ys, by simp⟩

/-- **`split_path` ends**, with the components of the path in the buffer. -/
theorem Splitting.Inv.run (n : ℕ) (h : s.Inv comps word rest) (hnul : nul ∉ rest)
    (hn : rest.length < n) :
    ∃ s', s.run n = some s' ∧ s'.count = (comps ++ components '/' (word ++ rest)).length ∧
      ∃ tail, s'.buf = text (comps ++ components '/' (word ++ rest)) ++ tail := by
  induction n generalizing s comps word rest with
  | zero => omega
  | succ n ih =>
    cases rest with
    | nil =>
      have hcur : s.cur = nul := h.cur_eq
      rw [Splitting.run, if_pos hcur, List.append_nil]
      refine ⟨_, rfl, ?_, h.finish⟩
      show s.count = _
      rw [h.count_eq, components_word h.word_slash, List.length_append]
      by_cases hword : word = []
      · rw [if_pos hword, if_pos hword]
        rfl
      · rw [if_neg hword, if_neg hword]
        rfl
    | cons c rest =>
      have hcur : s.cur = c := h.cur_eq
      rw [List.mem_cons, not_or] at hnul
      rw [List.length_cons] at hn
      rw [Splitting.run, if_neg (by rw [hcur]; exact Ne.symm hnul.1)]
      by_cases hc : c = '/'
      · subst hc
        have hdrop : ('/' :: rest).dropWhile (· = '/') = rest.dropWhile (· = '/') := by
          rw [List.dropWhile_cons_of_pos (by simp)]
        have hcomps : (if word = [] then comps else comps ++ [word]) ++
            components '/' ([] ++ ('/' :: rest).dropWhile (· = '/')) =
              comps ++ components '/' (word ++ '/' :: rest) := by
          rw [List.nil_append, components_dropWhile_sep, components_sep, components_join,
            components_word h.word_slash]
          by_cases hword : word = []
          · rw [if_pos hword, if_pos hword, List.nil_append]
          · rw [if_neg hword, if_neg hword, List.append_assoc]
        have hle := List.length_dropWhile_le (fun c => decide (c = '/')) rest
        have hstep := h.step_slash
        rw [hdrop] at hstep hcomps
        have hnext := ih hstep (fun hmem => hnul.2 (List.dropWhile_subset _ hmem)) (by omega)
        rw [hcomps] at hnext
        exact hnext
      · have hnext := ih (h.step_letter hc) hnul.2 (by omega)
        rw [List.append_assoc, List.singleton_append] at hnext
        exact hnext

/-! ## The components that are visited -/

theorem visited_text (comps : List Name) (hnul : ∀ comp ∈ comps, nul ∉ comp)
    (pre tail : List Char) :
    visited (pre ++ (text comps ++ tail)) comps.length pre.length = comps := by
  induction comps generalizing pre with
  | nil => rfl
  | cons comp comps ih =>
    obtain ⟨hcomp, hrest⟩ := List.forall_mem_cons.mp hnul
    have htext : text (comp :: comps) = comp ++ (nul :: text comps) := by
      rw [text, List.map_cons, List.flatten_cons, ← text, List.append_assoc]
      rfl
    have hletters : ∀ c ∈ comp, decide (c ≠ nul) = true := by
      intro c hc
      rw [decide_eq_true_eq]
      rintro rfl
      exact hcomp hc
    have hstring : stringAt (pre ++ (text (comp :: comps) ++ tail)) pre.length = comp := by
      rw [stringAt, List.drop_left, htext, List.append_assoc,
        List.takeWhile_append_of_pos hletters, List.cons_append,
        List.takeWhile_cons_of_neg (by simp), List.append_nil]
    have hbuf : pre ++ (text (comp :: comps) ++ tail) =
        (pre ++ comp ++ [nul]) ++ (text comps ++ tail) := by
      rw [htext]
      simp
    rw [List.length_cons, visited, hstring]
    congr 1
    have hnext := ih hrest (pre ++ comp ++ [nul])
    rw [← hbuf, List.length_append, List.length_append] at hnext
    exact hnext

/-- **The lookup visits the components of the path.** -/
theorem visited_splitInPlace {path : Name} (hnul : nul ∉ path) :
    ∃ count buf, splitInPlace path = some (count, buf) ∧
      visited buf count 0 = components '/' path := by
  have hstart : Splitting.Inv ⟨path ++ [nul], 0, 0, 0, false⟩ [] [] path :=
    ⟨⟨[], rfl, rfl⟩, rfl, by simp, rfl, List.not_mem_nil⟩
  obtain ⟨s', hrun, hcount, tail, hbuf⟩ := hstart.run (path.length + 1) hnul (by omega)
  rw [List.nil_append, List.nil_append] at hcount hbuf
  refine ⟨s'.count, s'.buf, ?_, ?_⟩
  · rw [splitInPlace, hrun]
    rfl
  · have hletters : ∀ comp ∈ components '/' path, nul ∉ comp := by
      intro comp hcomp hmem
      have hflat : nul ∈ (components '/' path).flatten := List.mem_flatten.mpr ⟨comp, hcomp, hmem⟩
      rw [flatten_components, List.mem_filter] at hflat
      exact hnul hflat.1
    have hvisited := visited_text (components '/' path) hletters [] tail
    rw [List.nil_append, ← hbuf, ← hcount] at hvisited
    exact hvisited

/-! ## Collapsing slashes -/

variable {V : Type} [DecidableEq V]

/-- A path that has another character than slashes, or only one. -/
def Lookable (path : Name) : Prop := ¬ (2 ≤ path.length ∧ ∀ c ∈ path, c = '/')

instance (path : Name) : Decidable (Lookable path) := inferInstanceAs (Decidable (¬ _))

theorem Lookable.eq_slash {path : Name} (h : Lookable path) (hne : path ≠ [])
    (hall : ∀ c ∈ path, c = '/') : path = ['/'] := by
  cases path with
  | nil => exact absurd rfl hne
  | cons c rest =>
    cases rest with
    | nil => rw [hall c List.mem_cons_self]
    | cons d rest =>
      refine absurd ⟨?_, hall⟩ h
      simp

theorem Lookable.collapse_eq_slash_iff {path : Name} (h : Lookable path) :
    collapse '/' path = ['/'] ↔ path = ['/'] := by
  rw [collapse_eq_sep_iff]
  constructor
  · rintro ⟨hne, hall⟩
    exact h.eq_slash hne hall
  · rintro rfl
    simp

/-- **Runs of slashes** do not matter to the lookup of such a path. -/
theorem vfsLookupPath_collapse {path : Name} (h : Lookable path) (n : ℕ) (cwd : Option V)
    (flags : Flags) (wantLast : Bool) :
    vfsLookupPath n (some (collapse '/' path)) cwd flags wantLast =
      vfsLookupPath n (some path) cwd flags wantLast := by
  have hslash := h.collapse_eq_slash_iff
  have hdot : collapse '/' path = ['.'] ↔ path = ['.'] := collapse_eq_letter_iff (by decide)
  have hhead : (collapse '/' path).head? = path.head? := head?_collapse path
  have hlast : (collapse '/' path).getLast? = path.getLast? := getLast?_collapse path
  have hsplit : splitPath (collapse '/' path) = splitPath path := samePlace_collapse path
  cases n with
  | zero => rfl
  | succ n =>
    cases path with
    | nil => rfl
    | cons c cs =>
      cases hc : collapse '/' (c :: cs) with
      | nil => exact absurd (collapse_eq_nil_iff.mp hc) (List.cons_ne_nil c cs)
      | cons d ds =>
        rw [hc] at hslash hdot hhead hlast hsplit
        by_cases hone : c :: cs = ['/']
        · rw [hone, hslash.mpr hone]
        by_cases htwo : c :: cs = ['.']
        · rw [htwo, hdot.mpr htwo]
        have hstart : startVnode (d :: ds) cwd = startVnode (c :: cs) cwd := by
          rw [startVnode, startVnode, hhead]
        rw [vfsLookupPath, vfsLookupPath]
        simp only [hslash, hdot, hone, htwo, hstart, hlast, hsplit, if_false]

/-! ## Slashes only -/

variable {tree : Tree V}

theorem vfsLookupPath_slash (hroot : tree.type (tree.resolve tree.rootNode) = .vdir) (n : ℕ)
    (cwd : Option V) (flags : Flags) (wantLast : Bool) (refcnt : V → ℤ) :
    (vfsLookupPath (n + 1) (some ['/']) cwd flags wantLast).Ends tree (clear refcnt)
      (fun r _ => ∃ last, r = .ok (tree.resolve tree.rootNode, last)) (fun _ => False) := by
  rw [← sub_add_cancel refcnt (cwdRef cwd), vfsLookupPath, ends_bind, ends_getEnv]
  simp only []
  rw [ends_bind]
  simp only [ends_bind]
  rw [ends_start]
  have hhead : List.head? ['/'] = some '/' := rfl
  simp only [hhead, if_true, ends_bind, ends_check, ends_pure]
  exact ⟨fun _ => ⟨_, rfl⟩, fun hno => hno hroot⟩

theorem vfsLookupPath_slashes {path : Name} (hlen : 2 ≤ path.length) (hall : ∀ c ∈ path, c = '/')
    (n : ℕ) (cwd : Option V) (flags : Flags) (wantLast : Bool) (refcnt : V → ℤ) :
    (vfsLookupPath (n + 1) (some path) cwd flags wantLast).Ends tree (clear refcnt)
      (fun r _ => r = .error .noent) (fun _ => False) := by
  have hsplit : splitPath path = [] := @components_append_seps _ _ '/' [] path hall
  cases path with
  | nil => cases hlen
  | cons c cs =>
    have hone : c :: cs ≠ ['/'] := by
      rintro heq
      rw [heq] at hlen
      exact absurd hlen (by decide)
    have hdot : c :: cs ≠ ['.'] := by
      rintro heq
      rw [heq] at hlen
      exact absurd hlen (by decide)
    rw [← sub_add_cancel refcnt (cwdRef cwd), vfsLookupPath, ends_bind, ends_getEnv]
    simp only []
    rw [ends_bind]
    simp only [ends_bind]
    rw [ends_start, if_neg hone, if_neg hdot, hsplit, lookupComps, ends_bind, ends_vput]
    rfl

/-- Slashes do not matter: the lookup of the path is that of its collapsed form, slashes alone lead
to the root, and the components that are visited are the words between the slashes. -/
structure SlashNormal (tree : Tree V) (path : Name) (cwd : Option V) (flags : Flags)
    (wantLast : Bool) : Prop where
  same : ∀ n refcnt, vfsLookupPath (n + 1) (some path) cwd flags wantLast tree (clear refcnt) =
    vfsLookupPath (n + 1) (some (collapse '/' path)) cwd flags wantLast tree (clear refcnt)
  root : path ≠ [] → (∀ c ∈ path, c = '/') → ∀ n refcnt, ∃ last s',
    vfsLookupPath (n + 1) (some path) cwd flags wantLast tree (clear refcnt) =
      .ok (.ok (tree.resolve tree.rootNode, last), s')
  visits : ∃ count buf, splitInPlace path = some (count, buf) ∧
    visited buf count 0 = components '/' path

/-- **Slashes do not matter** exactly when the path has another character, or one slash only. -/
theorem slashes_iff (tree : Tree V) (hroot : tree.type (tree.resolve tree.rootNode) = .vdir)
    {path : Name} (hnul : nul ∉ path) (cwd : Option V) (flags : Flags) (wantLast : Bool) :
    SlashNormal tree path cwd flags wantLast ↔ Lookable path := by
  constructor
  · rintro h ⟨hlen, hall⟩
    have hne : path ≠ [] := by
      rintro rfl
      cases hlen
    obtain ⟨last, s', hrun⟩ := h.root hne hall 0 0
    have hnoent := (vfsLookupPath_slashes hlen hall 0 cwd flags wantLast 0).of_ok hrun
    cases hnoent
  · intro h
    refine ⟨?_, ?_, visited_splitInPlace hnul⟩
    · intro n refcnt
      rw [vfsLookupPath_collapse h]
    · intro hne hall n refcnt
      rw [h.eq_slash hne hall]
      obtain ⟨r, s', hrun, last, rfl⟩ :=
        (vfsLookupPath_slash hroot n cwd flags wantLast refcnt).exists_ok
      exact ⟨last, s', hrun⟩

/-- The path `//a/` is looked up like `/a/`. -/
theorem slashes_iff_repeated :
    SlashNormal danglingLink ['/', '/', 'a', '/'] none ⟨false, true⟩ false :=
  (slashes_iff danglingLink rfl (by simp [nul]) none ⟨false, true⟩ false).mpr
    (fun h => absurd (h.2 'a' (by simp)) (by simp))

/-- **Counterexample.**  `//` is not found, `/` is the root. -/
theorem slashes_not_found :
    ((vfsLookupPath 1 (some ['/', '/']) none ⟨false, false⟩ false danglingLink
        (clear 1)).toOption.map Prod.fst = some (.error .noent)) ∧
    ((vfsLookupPath 1 (some (collapse '/' ['/', '/'])) none ⟨false, false⟩ false danglingLink
        (clear 1)).toOption.map Prod.fst = some (.ok (false, none))) :=
  ⟨rfl, rfl⟩

end Vfs
