/-
# Lines

What has been read in canonical mode, and what has not, are pieces of the lines that have been
committed, in their order.  This needs lines that fit, that do not follow an unread line without an
end, and no end of file on an empty line while a reader is blocked.
-/
import YakKernel.NTtyWakeup
import YakKernel.Pieces

namespace NTty

open Function TransitionSystem

variable {termios : Termios} {s s' : State} {t u : ℕ} {rd : Read} {rb : RingBuffer UInt8}
  {c : UInt8} {line p : List UInt8} {unread ps : List (List UInt8)}

/-! ## What is to hold -/

/-- **Lines.** -/
structure LinesRead (s : State) : Prop where
  /-- The bytes read, and those in the buffer, are the lines. -/
  inOrder : s.reads.flatten ++ s.tty.readBuf.contents = s.lines.flatten
  /-- A read does not go over the end of a line. -/
  oneLine : ∃ unread : List (List UInt8), unread.flatten = s.tty.readBuf.contents ∧
    Cuts (s.reads ++ unread) s.lines
  /-- A reader that was blocked at an end of file has returned 0 bytes. -/
  endOfFile : Quiescent s → ∀ t, s.owed t = false

/-- A line that ends fits in the buffer, and what is there has an end; a reader that is blocked gets
a line. -/
def Fits (termios : Termios) (s : State) (e : Event) : Prop :=
  ∀ t c, e = .receive t c → endsLine termios c = true →
    (edited termios (s.typed ++ [c]) ≠ [] →
      (edited termios (s.typed ++ [c])).length ≤
        s.tty.readBuf.capacity - s.tty.readBuf.available ∧
      (s.tty.readBuf.contents = [] ∨ s.tty.readBuf.contents.getLast? = some newline)) ∧
    (edited termios (s.typed ++ [c]) = [] → ∀ u, (s.threads u).isBlocked = false)

/-! ## The line that is edited -/

theorem edited_append (termios : Termios) (typed : List UInt8) (c : UInt8) :
    edited termios (typed ++ [c]) = edit termios (edited termios typed) c := by
  simp [edited, List.foldl_append]

theorem receiveChar_canonical (hicanon : termios.icanon = true) (tty : Tty) (c : UInt8) :
    receiveChar termios tty c =
      if endsLine termios c = true then
        commitLine { tty with canonicalBuf := edit termios tty.canonicalBuf c }
      else ({ tty with canonicalBuf := edit termios tty.canonicalBuf c }, false) := by
  unfold receiveChar endsLine edit
  by_cases herase : isControl c termios.verase = true
  · simp [hicanon, herase]
  · by_cases hkill : isControl c termios.vkill = true
    · simp [hicanon, herase, hkill]
    · by_cases heof : isControl c termios.veof = true
      · simp [hicanon, herase, hkill, heof]
      · by_cases hnewline : c = newline
        · subst hnewline
          by_cases hlength : tty.canonicalBuf.length < ttyBufSize - 1
          · simp [hicanon, herase, hkill, heof, hlength]
          · simp [hicanon, herase, hkill, heof, hlength]
        · by_cases hlength : tty.canonicalBuf.length < ttyBufSize - 1
          · simp [hicanon, herase, hkill, heof, hnewline, hlength]
          · simp [hicanon, herase, hkill, heof, hnewline, hlength]

/-- A line has no end but its last byte. -/
def IsLine (line : List UInt8) : Prop := line ≠ [] ∧ newline ∉ line.dropLast

theorem newline_notMem_edit (hicanon : termios.icanon = true) (h : newline ∉ line)
    (hend : endsLine termios c = false) : newline ∉ edit termios line c := by
  unfold edit
  split
  · exact fun hmem => h (List.mem_of_mem_dropLast hmem)
  · split
    · exact List.not_mem_nil
    · split
      · exact h
      · split
        · next herase hkill heof _ =>
          have hne : c ≠ newline := by
            rintro rfl
            simp [endsLine, hicanon, herase, hkill] at hend
          simp [h, Ne.symm hne]
        · exact h

theorem isLine_edit (h : newline ∉ line) (hne : edit termios line c ≠ []) :
    IsLine (edit termios line c) := by
  refine ⟨hne, fun hmem => ?_⟩
  unfold edit at hmem
  split at hmem
  · exact h (List.mem_of_mem_dropLast (List.mem_of_mem_dropLast hmem))
  · split at hmem
    · exact List.not_mem_nil hmem
    · split at hmem
      · exact h (List.mem_of_mem_dropLast hmem)
      · split at hmem
        · rw [List.dropLast_concat] at hmem
          exact h hmem
        · exact h (List.mem_of_mem_dropLast hmem)

/-! ## Lines in the buffer -/

/-- The length of the first line, or 0. -/
def lineLength : List UInt8 → ℕ
  | [] => 0
  | c :: rest =>
    if c = newline then 1 else if lineLength rest = 0 then 0 else lineLength rest + 1

theorem lineLength_append (h : newline ∉ line) (rest : List UInt8) :
    lineLength (line ++ newline :: rest) = line.length + 1 := by
  induction line with
  | nil => simp [lineLength]
  | cons c line ih =>
    rw [List.mem_cons, not_or] at h
    rw [List.cons_append, lineLength, if_neg (Ne.symm h.1), ih h.2]
    simp

theorem lineLength_eq_zero (h : newline ∉ line) : lineLength line = 0 := by
  induction line with
  | nil => rfl
  | cons c line ih =>
    rw [List.mem_cons, not_or] at h
    rw [lineLength, if_neg (Ne.symm h.1), if_pos (ih h.2)]

theorem checkLineFrom_eq (h : rb.WellFormed) (left i : ℕ) (hi : i + left = rb.size) :
    checkLineFrom rb left i =
      if lineLength (rb.contents.drop i) = 0 then 0 else i + lineLength (rb.contents.drop i) := by
  have hlen := RingBuffer.contents_length h
  induction left generalizing i with
  | zero =>
    have hdrop : rb.contents.drop i = [] := List.drop_eq_nil_of_le (by omega)
    rw [hdrop]
    rfl
  | succ left ih =>
    have hlt : i < rb.size := by omega
    obtain ⟨c, hc⟩ : ∃ c, rb.contents[i]? = some c := ⟨_, List.getElem?_eq_getElem (by omega)⟩
    have hdata := RingBuffer.contents_getElem? h hlt
    rw [hc] at hdata
    have hdrop : rb.contents.drop i = c :: rb.contents.drop (i + 1) := by
      rw [← List.cons_getElem_drop_succ (h := by omega)]
      congr 1
      exact Option.some.inj ((List.getElem?_eq_getElem (by omega)).symm.trans hc)
    rw [checkLineFrom, ← hdata, hdrop, lineLength, ih (i + 1) (by omega)]
    by_cases hnewline : c = newline
    · simp [hnewline]
    · rw [if_neg (by simpa using hnewline), if_neg hnewline]
      split
      · rfl
      · rw [if_neg (by omega)]
        omega

theorem checkLine_eq (h : rb.WellFormed) : checkLine rb = lineLength rb.contents := by
  rw [checkLine, RingBuffer.available, checkLineFrom_eq h rb.size 0 (Nat.zero_add _)]
  split
  · next hzero => simpa using hzero.symm
  · simp

/-- What has not been read: rests of lines, and all but the last have an end. -/
structure Unread (unread : List (List UInt8)) : Prop where
  isLine : ∀ p ∈ unread, IsLine p
  ends : ∀ p ∈ unread.dropLast, p.getLast? = some newline

theorem IsLine.eq_append (h : IsLine p) (hend : p.getLast? = some newline) :
    p = p.dropLast ++ [newline] := by
  conv_lhs => rw [← List.dropLast_append_getLast h.1]
  congr 2
  rw [List.getLast?_eq_some_getLast h.1] at hend
  exact Option.some.inj hend

theorem IsLine.notMem (h : IsLine p) (hend : p.getLast? ≠ some newline) : newline ∉ p := by
  intro hmem
  rw [← List.dropLast_append_getLast h.1, List.mem_append] at hmem
  rcases hmem with hmem | hmem
  · exact h.2 hmem
  · rw [List.mem_singleton] at hmem
    rw [List.getLast?_eq_some_getLast h.1, ← hmem] at hend
    exact hend rfl

theorem lineSize_eq (h : rb.WellFormed) (hunread : Unread (p :: ps))
    (hcontents : (p :: ps).flatten = rb.contents) : lineSize rb = p.length := by
  have hline := hunread.isLine p List.mem_cons_self
  have hlen := RingBuffer.contents_length h
  by_cases hend : p.getLast? = some newline
  · have hcheck : checkLine rb = p.length := by
      rw [checkLine_eq h, ← hcontents, List.flatten_cons, hline.eq_append hend, List.append_assoc,
        List.singleton_append, lineLength_append hline.2]
      simp
    have hpos := List.length_pos_iff.2 hline.1
    rw [lineSize, if_neg (by omega), hcheck]
  · -- a piece without an end is the last one
    have hps : ps = [] := by
      by_contra hps
      refine hend (hunread.ends p ?_)
      rw [List.dropLast_cons_of_ne_nil hps]
      exact List.mem_cons_self
    subst hps
    rw [List.flatten_cons, List.flatten_nil, List.append_nil] at hcontents
    have hcheck : checkLine rb = 0 := by
      rw [checkLine_eq h, ← hcontents]
      exact lineLength_eq_zero (hline.notMem hend)
    have hpos := List.length_pos_iff.2 hline.1
    rw [hcontents] at hpos ⊢
    rw [lineSize, if_pos ⟨hcheck, by rw [RingBuffer.available]; omega⟩, RingBuffer.available, hlen]

theorem Unread.eq_nil (h : Unread unread) (hempty : unread.flatten = []) : unread = [] := by
  cases unread with
  | nil => rfl
  | cons p ps =>
    rw [List.flatten_cons, List.append_eq_nil_iff] at hempty
    exact absurd hempty.1 (h.isLine p List.mem_cons_self).1

theorem Unread.append (h : Unread unread) (hline : IsLine line)
    (hend : unread.flatten = [] ∨ unread.flatten.getLast? = some newline) :
    Unread (unread ++ [line]) where
  isLine := by
    intro p hp
    rcases List.mem_append.1 hp with hp | hp
    · exact h.isLine p hp
    · rw [List.mem_singleton.1 hp]
      exact hline
  ends := by
    intro p hp
    rw [List.dropLast_concat] at hp
    rcases hend with hempty | hend
    · rw [h.eq_nil hempty] at hp
      exact absurd hp List.not_mem_nil
    · have hne : unread ≠ [] := List.ne_nil_of_mem hp
      have hconcat : unread = unread.dropLast ++ [unread.getLast hne] :=
        (List.dropLast_append_getLast hne).symm
      have hlast := (h.isLine _ (List.getLast_mem hne)).1
      rw [hconcat] at hp
      rcases List.mem_append.1 hp with hp | hp
      · exact h.ends p hp
      · rw [List.mem_singleton.1 hp]
        rw [hconcat, List.flatten_append, List.flatten_singleton,
          List.getLast?_append_of_ne_nil _ hlast] at hend
        exact hend

theorem Unread.tail (h : Unread (p :: ps)) : Unread ps where
  isLine := fun q hq => h.isLine q (List.mem_cons_of_mem p hq)
  ends := by
    intro q hq
    have hps : ps ≠ [] := by
      rintro rfl
      exact List.not_mem_nil hq
    refine h.ends q ?_
    rw [List.dropLast_cons_of_ne_nil hps]
    exact List.mem_cons_of_mem p hq

theorem Unread.drop (h : Unread (p :: ps)) {n : ℕ} (hn : n < p.length) :
    Unread (p.drop n :: ps) where
  isLine := by
    intro q hq
    rcases List.mem_cons.1 hq with rfl | hq
    · have hline := h.isLine p List.mem_cons_self
      refine ⟨fun hempty => ?_, fun hmem => ?_⟩
      · rw [List.drop_eq_nil_iff] at hempty
        omega
      · rw [List.dropLast_drop_eq_drop_dropLast] at hmem
        exact hline.2 (List.mem_of_mem_drop hmem)
    · exact h.isLine q (List.mem_cons_of_mem p hq)
  ends := by
    intro q hq
    by_cases hps : ps = []
    · subst hps
      exact absurd hq List.not_mem_nil
    · rw [List.dropLast_cons_of_ne_nil hps] at hq
      have hends := h.ends
      rw [List.dropLast_cons_of_ne_nil hps] at hends
      rcases List.mem_cons.1 hq with rfl | hq
      · rw [List.getLast?_drop, if_neg (by omega)]
        exact hends p List.mem_cons_self
      · exact hends q (List.mem_cons_of_mem p hq)

/-! ## The invariant -/

/-- The read of a thread. -/
def Thread.read : Thread → Option Read
  | .entering rd => some rd
  | .looping rd => some rd
  | .looking rd => some rd
  | .waitNext rd => some rd
  | .waiting rd => some rd
  | .woken rd _ => some rd
  | .finishing rd => some rd
  | _ => none

/-- **The invariant of the lines.** -/
structure LineInv (termios : Termios) (s : State) : Prop where
  wellFormed : s.tty.readBuf.WellFormed
  edited : s.tty.canonicalBuf = edited termios s.typed
  plain : newline ∉ s.tty.canonicalBuf
  unread : ∃ unread, Unread unread ∧ unread.flatten = s.tty.readBuf.contents ∧
    Cuts (s.reads ++ unread) s.lines
  owed : ∀ t, s.owed t = false
  canonical : ∀ t rd, (s.threads t).read = some rd → rd.icanon = true

namespace LineInv

variable {thread : Thread}

theorem keep (h : LineInv termios s) (htty : s'.tty = s.tty) (htyped : s'.typed = s.typed)
    (hlines : s'.lines = s.lines) (hreads : s'.reads = s.reads) (howed : ∀ t, s'.owed t = false)
    (hcanonical : ∀ t rd, (s'.threads t).read = some rd → rd.icanon = true) :
    LineInv termios s' where
  wellFormed := by
    rw [htty]
    exact h.wellFormed
  edited := by
    rw [htty, htyped]
    exact h.edited
  plain := by
    rw [htty]
    exact h.plain
  unread := by
    rw [htty, hlines, hreads]
    exact h.unread
  owed := howed
  canonical := hcanonical

theorem canonical_update (h : LineInv termios s) (hthreads : s'.threads = update s.threads t thread)
    (hthread : ∀ rd, thread.read = some rd → rd.icanon = true) (u : ℕ) (rd : Read)
    (hu : (s'.threads u).read = some rd) : rd.icanon = true := by
  rw [hthreads] at hu
  by_cases hut : u = t
  · subst hut
    rw [update_self] at hu
    exact hthread rd hu
  · rw [update_of_ne hut] at hu
    exact h.canonical u rd hu

theorem setThread (h : LineInv termios s) (hthreads : s'.threads = update s.threads t thread)
    (hthread : ∀ rd, thread.read = some rd → rd.icanon = true) (htty : s'.tty = s.tty)
    (htyped : s'.typed = s.typed) (hlines : s'.lines = s.lines) (hreads : s'.reads = s.reads)
    (howed : s'.owed = s.owed) : LineInv termios s' := by
  refine h.keep htty htyped hlines hreads ?_ (h.canonical_update hthreads hthread)
  rw [howed]
  exact h.owed

/-! ## receive_char -/

theorem commit (h : LineInv termios s) (hicanon : termios.icanon = true)
    (hend : endsLine termios c = true) (hne : NTty.edited termios (s.typed ++ [c]) ≠ [])
    (hfits : (NTty.edited termios (s.typed ++ [c])).length ≤
      s.tty.readBuf.capacity - s.tty.readBuf.available)
    (hlast : s.tty.readBuf.contents = [] ∨ s.tty.readBuf.contents.getLast? = some newline) :
    LineInv termios (s.receive termios t c) := by
  have hedit : NTty.edited termios (s.typed ++ [c]) = edit termios s.tty.canonicalBuf c := by
    rw [edited_append, h.edited]
  rw [hedit] at hne hfits
  have hchar : receiveChar termios s.tty c =
      ({ readBuf := (s.tty.readBuf.put (edit termios s.tty.canonicalBuf c)).2,
         canonicalBuf := [] }, true) := by
    rw [receiveChar_canonical hicanon, if_pos hend, commitLine, if_neg hne]
  have hobserve : s.observe termios c = { s with
      typed := []
      lines := s.lines ++ [edit termios s.tty.canonicalBuf c] } := by
    rw [State.observe, hedit, if_pos (by simp [hend, hne])]
  obtain ⟨unread, hunread, hcontents, hcuts⟩ := h.unread
  have hline : IsLine (edit termios s.tty.canonicalBuf c) := isLine_edit h.plain hne
  have hput : (s.tty.readBuf.put (edit termios s.tty.canonicalBuf c)).2.contents =
      s.tty.readBuf.contents ++ edit termios s.tty.canonicalBuf c := by
    rw [RingBuffer.available] at hfits
    rw [RingBuffer.put_contents h.wellFormed, RingBuffer.put_fst, Nat.min_eq_left hfits,
      List.take_length]
  rw [State.receive, hchar, hobserve]
  constructor
  case wellFormed => exact RingBuffer.put_wellFormed h.wellFormed _
  case edited => rfl
  case plain => exact List.not_mem_nil
  case unread =>
    refine ⟨unread ++ [edit termios s.tty.canonicalBuf c], ?_, ?_, ?_⟩
    · apply hunread.append hline
      rw [hcontents]
      exact hlast
    · rw [List.flatten_append, List.flatten_singleton, hcontents]
      exact hput.symm
    · rw [← List.append_assoc]
      exact hcuts.append (Cuts.whole _)
  case owed => exact h.owed
  case canonical => exact h.canonical_update rfl (by simp [Thread.read])

/-- Without a line to commit, the character changes the line that is edited. -/
theorem receive_edit (h : LineInv termios s) (hicanon : termios.icanon = true)
    (hkeep : endsLine termios c = true → NTty.edited termios (s.typed ++ [c]) = [])
    (hblocked : endsLine termios c = true → ∀ u, (s.threads u).isBlocked = false) :
    LineInv termios (s.receive termios t c) := by
  have hedit : NTty.edited termios (s.typed ++ [c]) = edit termios s.tty.canonicalBuf c := by
    rw [edited_append, h.edited]
  rw [hedit] at hkeep
  have hchar : receiveChar termios s.tty c =
      ({ s.tty with canonicalBuf := edit termios s.tty.canonicalBuf c }, false) := by
    rw [receiveChar_canonical hicanon]
    split
    · next hend => rw [commitLine, if_pos (hkeep hend)]
    · rfl
  have hobserve : s.observe termios c = { s with
      typed := s.typed ++ [c]
      owed := fun t => s.owed t || (endsLine termios c && (s.threads t).isBlocked) } := by
    rw [State.observe, hedit, if_neg]
    rw [Bool.and_eq_true, not_and]
    intro hend
    simp [hkeep hend]
  rw [State.receive, hchar, hobserve]
  constructor
  case wellFormed => exact h.wellFormed
  case edited => exact hedit.symm
  case plain =>
    change newline ∉ edit termios s.tty.canonicalBuf c
    cases hend : endsLine termios c with
    | true =>
      rw [hkeep hend]
      exact List.not_mem_nil
    | false => exact newline_notMem_edit hicanon h.plain hend
  case unread => exact h.unread
  case owed =>
    intro u
    change (s.owed u || (endsLine termios c && (s.threads u).isBlocked)) = false
    rw [h.owed u, Bool.false_or, Bool.and_eq_false_iff]
    cases hend : endsLine termios c with
    | true => exact .inr (hblocked hend u)
    | false => exact .inl rfl
  case canonical => exact h.canonical_update rfl (by simp [Thread.read])

theorem receive (h : LineInv termios s) (hicanon : termios.icanon = true)
    (hfits : Fits termios s (.receive t c)) : LineInv termios (s.receive termios t c) := by
  by_cases hend : endsLine termios c = true
  · obtain ⟨hcommit, hblocked⟩ := hfits t c rfl hend
    by_cases hne : NTty.edited termios (s.typed ++ [c]) = []
    · exact h.receive_edit hicanon (fun _ => hne) (fun _ => hblocked hne)
    · obtain ⟨hsize, hlast⟩ := hcommit hne
      exact h.commit hicanon hend hne hsize hlast
  · exact h.receive_edit hicanon (fun h' => absurd h' hend) (fun h' => absurd h' hend)

/-! ## read -/

theorem read_after (rd : Read) (bytes : List UInt8) {rd' : Read}
    (h : (rd.after bytes).read = some rd') : rd'.icanon = rd.icanon := by
  unfold Read.after at h
  split at h
  · obtain rfl : { rd with got := rd.got ++ bytes } = rd' := by simpa [Thread.read] using h
    rfl
  · obtain rfl : { rd with
        got := rd.got ++ bytes
        firstByte := false } = rd' := by simpa [Thread.read] using h
    rfl

theorem take (h : LineInv termios s) (ht : s.threads t = .looking rd)
    (haccepts : rd.accepts s.tty.readBuf = true) : LineInv termios (s.take t rd) := by
  have hrd : rd.icanon = true := h.canonical t rd (by rw [ht]; rfl)
  obtain ⟨unread, hunread, hcontents, hcuts⟩ := h.unread
  have hlen := RingBuffer.contents_length h.wellFormed
  cases unread with
  | nil =>
    rw [rd.accepts_eq, decide_eq_true_eq, RingBuffer.available, ← hlen, ← hcontents] at haccepts
    simp at haccepts
  | cons p ps =>
    have hsize : rd.size s.tty.readBuf = min p.length rd.len := by
      rw [Read.size, if_pos hrd, lineSize_eq h.wellFormed hunread hcontents]
    obtain ⟨hgot, hrest⟩ := RingBuffer.get_contents h.wellFormed (rd.size s.tty.readBuf)
    rw [← hcontents, List.flatten_cons, hsize] at hgot hrest
    rw [List.take_append_of_le_length (Nat.min_le_left ..)] at hgot
    rw [List.drop_append_of_le_length (Nat.min_le_left ..)] at hrest
    have hreads : (s.take t rd).reads = s.reads ++ [p.take (min p.length rd.len)] := by
      rw [← hgot]
      simp [State.take, State.setThread, hrd, hsize]
    constructor
    case wellFormed => exact RingBuffer.get_wellFormed h.wellFormed _
    case edited => exact h.edited
    case plain => exact h.plain
    case unread =>
      have hbuf : (s.take t rd).tty.readBuf.contents =
          p.drop (min p.length rd.len) ++ ps.flatten := by
        rw [← hrest, ← hsize]
        rfl
      rw [hbuf, hreads]
      by_cases hall : p.length ≤ rd.len
      · rw [Nat.min_eq_left hall, List.take_length, List.drop_length]
        refine ⟨ps, hunread.tail, rfl, ?_⟩
        rw [List.append_assoc, List.singleton_append]
        exact hcuts
      · rw [Nat.min_eq_right (by omega)]
        refine ⟨p.drop rd.len :: ps, hunread.drop (by omega), List.flatten_cons, ?_⟩
        rw [List.append_assoc, List.singleton_append]
        apply Cuts.split
        rw [List.take_append_drop]
        exact hcuts
    case owed => exact h.owed
    case canonical =>
      refine h.canonical_update (t := t) rfl ?_
      intro rd' hrd'
      rw [read_after _ _ hrd']
      exact hrd

theorem look (h : LineInv termios s) (ht : s.threads t = .looking rd) :
    LineInv termios (s.look t rd) := by
  have hrd : rd.icanon = true := h.canonical t rd (by rw [ht]; rfl)
  unfold State.look
  split
  · next haccepts => exact h.take ht haccepts
  · exact h.setThread (t := t) rfl (by simpa [Thread.read] using hrd) rfl rfl rfl rfl rfl

theorem finish (h : LineInv termios s) : LineInv termios (s.finish t rd) := by
  unfold State.finish
  split
  all_goals
    refine h.keep rfl rfl rfl rfl ?_ (h.canonical_update (t := t) rfl (by simp [Thread.read]))
    intro u
    by_cases hut : u = t
    · simp [hut, State.setThread, h.owed]
    · simp [State.setThread, hut, h.owed]

theorem alarm (h : LineInv termios s) :
    LineInv termios (s.eventAlarm.setThread t (.receiving false)) := by
  have halarm : LineInv termios s.eventAlarm := by
    unfold State.eventAlarm
    split
    · refine h.keep rfl rfl rfl rfl h.owed ?_
      intro u rd hu
      simp only at hu
      split at hu
      · next rd' hwaiting =>
        obtain rfl : rd' = rd := by simpa [Thread.read] using hu
        exact h.canonical u rd' (by rw [hwaiting]; rfl)
      · exact h.canonical u rd hu
    · exact h
  exact halarm.setThread (t := t) rfl (by simp [Thread.read]) rfl rfl rfl rfl rfl

theorem advance (h : LineInv termios s) (hs : s.advance t (s.threads t) = some s') :
    LineInv termios s' := by
  have hcanonical : ∀ rd, (s.threads t).read = some rd → rd.icanon = true := h.canonical t
  cases ht : s.threads t with
  | idle => simp [ht, State.advance] at hs
  | receiving alarm =>
    cases alarm with
    | true =>
      obtain rfl : s.eventAlarm.setThread t (.receiving false) = s' := by
        simpa [ht, State.advance] using hs
      exact h.alarm
    | false =>
      obtain rfl : { s with readMutex := none }.setThread t .idle = s' := by
        simpa [ht, State.advance] using hs
      exact h.setThread (t := t) rfl (by simp [Thread.read]) rfl rfl rfl rfl rfl
  | entering rd =>
    rw [ht] at hcanonical
    by_cases hfree : s.readMutex = none
    · obtain rfl : { s with readMutex := some t }.setThread t (.looping rd) = s' := by
        simpa [ht, State.advance, hfree] using hs
      exact h.setThread (t := t) rfl hcanonical rfl rfl rfl rfl rfl
    · simp [ht, State.advance, hfree] at hs
  | looping rd =>
    rw [ht] at hcanonical
    obtain rfl : s.loop t rd = s' := by simpa [ht, State.advance] using hs
    unfold State.loop
    split
    · exact h.setThread (t := t) rfl hcanonical rfl rfl rfl rfl rfl
    · exact h.setThread (t := t) rfl hcanonical rfl rfl rfl rfl rfl
  | looking rd =>
    obtain rfl : s.look t rd = s' := by simpa [ht, State.advance] using hs
    exact h.look ht
  | waitNext rd =>
    rw [ht] at hcanonical
    obtain rfl : s.schedWait t rd = s' := by simpa [ht, State.advance] using hs
    unfold State.schedWait
    split
    · exact h.setThread (t := t) rfl hcanonical rfl rfl rfl rfl rfl
    · exact h.setThread (t := t) rfl hcanonical rfl rfl rfl rfl rfl
  | waiting rd => simp [ht, State.advance] at hs
  | woken rd timedOut =>
    rw [ht] at hcanonical
    by_cases hfree : s.readMutex = none
    · obtain rfl : s.resume t rd timedOut = s' := by simpa [ht, State.advance, hfree] using hs
      refine h.setThread (t := t) rfl ?_ rfl rfl rfl rfl rfl
      split
      · exact hcanonical
      · split
        · exact hcanonical
        · exact hcanonical
    · simp [ht, State.advance, hfree] at hs
  | finishing rd =>
    obtain rfl : s.finish t rd = s' := by simpa [ht, State.advance] using hs
    exact h.finish

theorem linesRead (h : LineInv termios s) : LinesRead s where
  inOrder := by
    obtain ⟨unread, -, hcontents, hcuts⟩ := h.unread
    rw [← hcuts.flatten_eq, List.flatten_append, hcontents]
  oneLine := by
    obtain ⟨unread, -, hcontents, hcuts⟩ := h.unread
    exact ⟨unread, hcontents, hcuts⟩
  endOfFile := fun _ => h.owed

end LineInv

/-- **Step lemma.** -/
theorem step_lineInv (h : LineInv termios s) (hicanon : termios.icanon = true) {e : Event}
    (hfits : Fits termios s e) (hs : step termios s e = some s') : LineInv termios s' := by
  cases e with
  | receive t c =>
    by_cases ht : s.threads t = .idle ∧ s.readMutex = none
    · obtain rfl : s.receive termios t c = s' := by simpa [step, ht] using hs
      exact h.receive hicanon hfits
    · simp [step, ht] at hs
  | read t len =>
    by_cases ht : s.threads t = .idle
    · obtain rfl : s.setThread t (.entering (Read.start termios len)) = s' := by
        simpa [step, ht] using hs
      refine h.setThread (t := t) rfl ?_ rfl rfl rfl rfl rfl
      simpa [Thread.read, Read.start] using hicanon
    · simp [step, ht] at hs
  | timeout t =>
    simp only [step] at hs
    split at hs
    · next rd ht =>
      have hrd : rd.icanon = true := h.canonical t rd (by rw [ht]; rfl)
      simp [hrd] at hs
    · simp at hs
  | run t => exact h.advance hs

theorem fresh_lineInv {backing : List UInt8} (hbacking : backing.length = ttyBufSize) :
    LineInv termios (fresh backing) where
  wellFormed := by
    apply RingBuffer.staticInit_wellFormed
    rintro rfl
    simp [ttyBufSize] at hbacking
  edited := rfl
  plain := List.not_mem_nil
  unread := ⟨[], ⟨by simp, by simp⟩, (RingBuffer.staticInit_contents backing).symm, Cuts.nil⟩
  owed := fun _ => rfl
  canonical := by simp [fresh, Thread.read]

/-- **Canonical input.** In every run in which the lines fit, follow lines with an end, and no end
of file on an empty line finds a reader blocked, the reads return pieces of the lines, in order, and
nothing is lost. -/
theorem lines_read (hicanon : termios.icanon = true)
    (h : (system termios).ReachableUnder (Fits termios) s) : LinesRead s := by
  have hinv : LineInv termios s := by
    apply h.invariant
    · rintro s ⟨backing, hbacking, rfl⟩
      exact fresh_lineInv hbacking
    · exact fun s e s' hinv hfits hs => step_lineInv hinv hicanon hfits hs
  exact hinv.linesRead

/-! ## Runs -/

/-- Only three threads take steps, and the lines that end are not empty and fit. -/
def Tidy (termios : Termios) (s : State) (e : Event) : Prop :=
  e.thread < 3 ∧ match e with
    | .receive _ c => endsLine termios c = true → edited termios (s.typed ++ [c]) ≠ [] ∧
        (edited termios (s.typed ++ [c])).length ≤
          s.tty.readBuf.capacity - s.tty.readBuf.available ∧
        (s.tty.readBuf.contents = [] ∨ s.tty.readBuf.contents.getLast? = some newline)
    | _ => True

instance (termios : Termios) (s : State) (e : Event) : Decidable (Tidy termios s e) := by
  unfold Tidy
  cases e <;> infer_instance

theorem Tidy.fits {e : Event} (h : Tidy termios s e) : Fits termios s e := by
  rintro t c rfl hend
  obtain ⟨hne, hline⟩ := h.2 hend
  exact ⟨fun _ => hline, fun hempty => absurd hempty hne⟩

/-- Two lines, the second one after an erased character, and three reads. -/
theorem lines_read_two : ∃ s, s.lines = [[97, 10], [98, 10]] ∧ s.reads = [[97], [10], [98, 10]] ∧
    LinesRead s := by
  have hrun : ∃ s, (system defaultTermios).ReachableUnder (Tidy defaultTermios) s ∧
      decide (s.lines = [[97, 10], [98, 10]] ∧ s.reads = [[97], [10], [98, 10]]) = true :=
    exists_reachableUnder_of_runUnder
      (show (system defaultTermios).init (fresh (List.replicate 4096 0)) from
        ⟨_, List.length_replicate, rfl⟩)
      (typeLine 97 ++ typeChar 99 ++ typeChar 127 ++ typeLine 98 ++ readAndLook 1 1 ++ [.run 1] ++
        readAndLook 1 9 ++ [.run 1] ++ readAndLook 2 9) _ (by decide +kernel)
  obtain ⟨s, hs, hend⟩ := hrun
  obtain ⟨hlines, hreads⟩ := of_decide_eq_true hend
  exact ⟨s, hlines, hreads, lines_read rfl (hs.mono fun _ _ => Tidy.fits)⟩

/-- **A read of two lines, and an end of file that nobody sees.** The end of file commits `a`, and
the next read returns it with the line after it; on an empty line it leaves a reader blocked. -/
theorem lines_lost :
    (∃ s, (system defaultTermios).Reachable s ∧ s.lines = [[97], [98, 10]] ∧
      s.reads = [[97, 98, 10]] ∧ ¬ LinesRead s) ∧
    (∃ s, (system defaultTermios).Reachable s ∧ Quiescent s ∧
      s.threads 1 = .waiting (Read.start defaultTermios 9) ∧ s.owed 1 = true ∧ ¬ LinesRead s) := by
  have hinit : (system defaultTermios).init (fresh (List.replicate 4096 0)) :=
    ⟨_, List.length_replicate, rfl⟩
  constructor
  · have hrun : ∃ s, (system defaultTermios).Reachable s ∧
        decide (s.lines = [[97], [98, 10]] ∧ s.reads = [[97, 98, 10]]) = true :=
      exists_reachable_of_run hinit (typeChar 97 ++ [.receive 0 4, .run 0, .run 0] ++ typeLine 98 ++
        readAndLook 1 9) _ (by decide +kernel)
    obtain ⟨s, hs, hend⟩ := hrun
    obtain ⟨hlines, hreads⟩ := of_decide_eq_true hend
    refine ⟨s, hs, hlines, hreads, fun hread => ?_⟩
    obtain ⟨unread, -, hcuts⟩ := hread.oneLine
    rw [hlines, hreads] at hcuts
    obtain ⟨line, hline, hinfix⟩ := hcuts.exists_infix (x := [97, 98, 10]) (by simp)
    have hlength := hinfix.length_le
    rcases List.mem_pair.1 hline with rfl | rfl
    · simp at hlength
    · simp at hlength
  · have hrun : ∃ s, (system defaultTermios).ReachableUnder (fun _ e => e.thread < 3) s ∧
        (quiescentBelow s 3 && decide (s.threads 1 = .waiting (Read.start defaultTermios 9) ∧
          s.owed 1 = true)) = true :=
      exists_reachableUnder_of_runUnder hinit (readAndLook 1 9 ++ [.run 1, .receive 0 4, .run 0]) _
        (by decide +kernel)
    obtain ⟨s, hs, hend⟩ := hrun
    rw [Bool.and_eq_true, decide_eq_true_eq] at hend
    have hquiescent := quiescent_of_below (reachable_idle (fun _ _ hC => hC) hs) hend.1
    refine ⟨s, hs.reachable, hquiescent, hend.2.1, hend.2.2, fun hread => ?_⟩
    have howed := hread.endOfFile hquiescent 1
    rw [hend.2.2] at howed
    simp at howed

end NTty
