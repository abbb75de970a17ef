/-
# The tree described and the tree made

When the requests that `initrd_unpack_tar` makes for an archive are those that its members
describe: the code joins a prefix to a name without `'/'`, reads a text that fills its field on
into the next field, loses the first of two long names, and cuts or refuses what its buffers do
not hold.
-/
import YakKernel.InitrdRuns

namespace TarArchive

open Initrd PathComponents

/-! ## Requests -/

/-- The requests do the same: paths are compared by their components, and the targets of
symbolic links as they are. -/
def SameRequest : Request → Request → Prop
  | .file p attr contents, .file p' attr' contents' =>
    SamePlace slash p p' ∧ attr = attr' ∧ contents = contents'
  | .directory p attr, .directory p' attr' => SamePlace slash p p' ∧ attr = attr'
  | .symlink p target attr, .symlink p' target' attr' =>
    SamePlace slash p p' ∧ target = target' ∧ attr = attr'
  | .link target p, .link target' p' => SamePlace slash target target' ∧ SamePlace slash p p'
  | .hardlinkCopy target p attr, .hardlinkCopy target' p' attr' =>
    SamePlace slash target target' ∧ SamePlace slash p p' ∧ attr = attr'
  | _, _ => False

/-- The archive unpacks to what its members describe, one request after the other. -/
def Unpacks (canLink : Bool) (path : List Byte) (members : List Member) (rest : List Byte) :
    Prop :=
  ∃ requests, initrdUnpackTar canLink path (archive members rest) = .ok requests ∧
    List.Forall₂ SameRequest requests (members.map (Member.described · canLink path))

/-! ## The condition -/

/-- What does not fit into a buffer for paths are separators only. -/
def FitsBuffer (path name : List Byte) : Prop :=
  ∀ b ∈ (path ++ slash :: name).drop (pathMax - 1), b = slash

/-- The link target as the code reads it, when the long one is lost or not. -/
def LinkForm.read (lost : Bool) (gnu : Bool) : LinkForm → List Byte
  | .field target => if target.length < 100 then target else target ++ magicText gnu
  | .long target =>
    if lost then if target.length < 100 then target else target.take 100 ++ magicText gnu
    else target

/-- The target in the field leaves room for `NUL`; a long one is not lost, or the beginning of
it, with the magic behind when it fills the field, is as good. -/
def LinkForm.Kept (lost gnu : Bool) (same : List Byte → List Byte → Prop) : LinkForm → Prop
  | .field target => target.length < 100
  | .long target => lost → target.length < 100 ∨ same (target.take 100 ++ magicText gnu) target

namespace Member

variable (m : Member)

/-- A long link target comes after the long name. -/
def nameLost : Bool := !m.linkFirst && m.linkText?.isSome

/-- A long name comes after the long link target. -/
def linkLost : Bool := m.linkFirst && m.name.long?.isSome

/-- The name in the field leaves room for `NUL`, and the prefix brings its own separator; a long
name is not lost, or the beginning of it, with the mode behind when it fills the field, is as
good. -/
def NameKept (path : List Byte) : Prop :=
  match m.name with
  | .field pfx base =>
    base.length < 100 ∧ (pfx = [] ∨ pfx.getLast? = some slash ∨ base.head? = some slash)
  | .long full =>
    if m.nameLost then full.length < 100 ∨
      SamePlace slash (full.take 100 ++ octalDigits 7 m.info.mode) full
    else FitsBuffer path full

/-- The same of the link target; the target of a hard link is a path. -/
def LinkKept (path : List Byte) : Prop :=
  match m.kind with
  | .file _ _ => True
  | .directory => True
  | .symlink target => target.Kept m.linkLost m.info.gnu (· = ·)
  | .hardLink target => target.Kept m.linkLost m.info.gnu (SamePlace slash) ∧
    (target.long?.isSome → ¬ m.linkLost → FitsBuffer path target.full)

/-- The member is one that the code reads back. -/
structure Kept (path : List Byte) : Prop where
  short : ¬ m.TooLong
  name : m.NameKept path
  link : m.LinkKept path

end Member

/-! ## Names -/

section Names

variable {path : List Byte} {m : Member}

theorem notMem_magicText {gnu : Bool} : slash ∉ magicText gnu := by
  cases gnu
  · decide
  · decide

theorem slash_notMem_octalDigits {width n : ℕ} : slash ∉ octalDigits width n :=
  notMem_octalDigits (by decide)

theorem take_of_short {name : List Byte} (hpath : path.length + 263 < pathMax)
    (hname : name.length ≤ 262) :
    (path ++ slash :: name).take (pathMax - 1) = path ++ slash :: name := by
  apply List.take_of_length_le
  rw [List.length_append, List.length_cons]
  omega

theorem octalDigits_ne_nil {width n : ℕ} : octalDigits (width + 1) n ≠ [] := by
  intro h
  have hlen := congrArg List.length h
  rw [length_octalDigits] at hlen
  exact absurd hlen (Nat.succ_ne_zero width)

theorem magicText_ne_nil {gnu : Bool} : magicText gnu ≠ [] := by
  cases gnu
  · decide
  · decide

theorem length_magicText (gnu : Bool) : (magicText gnu).length ≤ 7 := by
  cases gnu
  · decide
  · decide

/-- A word that fills its field, with what is read behind it, is another one. -/
theorem not_samePlace_append {p q tail : List Byte} (htail : tail ≠ []) (hsep : slash ∉ tail)
    (hpq : p.filter (· ≠ slash) = q.filter (· ≠ slash)) : ¬ SamePlace slash (p ++ tail) q :=
  fun h => htail (h.eq_nil hpq hsep)

/-- **A name in the fields of its header.** -/
theorem readPath_field {pfx base : List Byte} (hpath : path.length + 263 < pathMax)
    (hname : m.name = .field pfx base) :
    SamePlace slash (m.readPath path) (path ++ slash :: m.name.full) ↔ m.NameKept path := by
  have hvalid := m.base_valid
  have hread : m.readFull = pfx ++ m.header.readName := by
    rw [Member.readFull, Member.keptName, hname]
    simp [NameForm.long?, NameForm.pfx]
  have hheader : m.header.name = base := by
    rw [Member.header, hname]
    rfl
  have hkept : m.NameKept path ↔
      base.length < 100 ∧ (pfx = [] ∨ pfx.getLast? = some slash ∨ base.head? = some slash) := by
    rw [Member.NameKept, hname]
  rw [hname] at hvalid
  obtain ⟨hne, hle, hpfx, -, -⟩ := hvalid
  change base ≠ [] at hne
  change base.length ≤ 100 at hle
  change pfx.length ≤ 155 at hpfx
  rw [hkept, Member.readPath, hread, hname, NameForm.full, Header.readName, hheader]
  by_cases hlt : base.length < 100
  · have hshort : (pfx ++ base).length ≤ 262 := by
      rw [List.length_append]
      omega
    rw [if_pos hlt, take_of_short hpath hshort, samePlace_join_iff, and_iff_right hlt]
    by_cases hnil : pfx = []
    · rw [if_pos hnil, hnil]
      exact iff_of_true rfl (Or.inl rfl)
    · rw [if_neg hnil, samePlace_append_iff hnil hne, or_iff_right hnil]
  · have hshort : (pfx ++ (base ++ octalDigits 7 m.header.info.mode)).length ≤ 262 := by
      rw [List.length_append, List.length_append, length_octalDigits]
      omega
    rw [if_neg hlt, take_of_short hpath hshort, samePlace_join_iff, ← List.append_assoc]
    refine iff_of_false (not_samePlace_append octalDigits_ne_nil slash_notMem_octalDigits ?_)
      (fun h => hlt h.1)
    by_cases hnil : pfx = []
    · rw [if_pos hnil, hnil, List.nil_append]
    · rw [if_neg hnil, List.filter_append, List.filter_append, List.filter_cons_of_neg (by simp)]

/-- **A long name.** -/
theorem readPath_long {full : List Byte} (hpath : path.length + 263 < pathMax)
    (hname : m.name = .long full) :
    SamePlace slash (m.readPath path) (path ++ slash :: m.name.full) ↔ m.NameKept path := by
  have hheader : m.header.name = full.take 100 := by
    rw [Member.header, hname]
    rfl
  have hkept : m.NameKept path ↔ if m.nameLost then full.length < 100 ∨
      SamePlace slash (full.take 100 ++ octalDigits 7 m.info.mode) full
      else FitsBuffer path full := by
    rw [Member.NameKept, hname]
  have hlost : m.keptName = if m.nameLost then none else some full := by
    rw [Member.keptName, Member.nameLost, hname]
    cases m.linkFirst <;> cases m.linkText? <;> rfl
  rw [hkept, Member.readPath, Member.readFull, hlost, hname, NameForm.full]
  cases m.nameLost with
  | false => exact samePlace_take_iff
  | true =>
    have hlen : (full.take 100).length = min 100 full.length := List.length_take
    simp only [if_true, Option.isSome_none, Bool.false_eq_true, if_false, Option.getD_none,
      NameForm.pfx, List.nil_append, Header.readName, hheader]
    by_cases hlt : full.length < 100
    · have hself : full.take 100 = full := List.take_of_length_le hlt.le
      rw [hself, if_pos hlt, take_of_short hpath (by omega)]
      exact iff_of_true rfl (Or.inl hlt)
    · have hshort : (full.take 100 ++ octalDigits 7 m.header.info.mode).length ≤ 262 := by
        rw [List.length_append, length_octalDigits]
        omega
      rw [if_neg (by omega), take_of_short hpath hshort, samePlace_join_iff, or_iff_right hlt]
      rfl

theorem readPath_iff (hpath : path.length + 263 < pathMax) :
    SamePlace slash (m.readPath path) (path ++ slash :: m.name.full) ↔ m.NameKept path := by
  cases hname : m.name with
  | field pfx base =>
    rw [← hname]
    exact readPath_field hpath hname
  | long full =>
    rw [← hname]
    exact readPath_long hpath hname

end Names

/-! ## Link targets -/

section Links

variable {path : List Byte} {m : Member} {target : LinkForm}

theorem readTarget_eq (hlink : m.kind.link = some target) :
    m.readTarget = target.read m.linkLost m.info.gnu := by
  have hheader : m.header.link = target.base := by
    rw [Member.header, hlink]
    rfl
  have htext : m.linkText? = target.long? := by
    rw [Member.linkText?, hlink]
    rfl
  have hinfo : m.header.info = m.info := rfl
  rw [Member.readTarget, Member.keptLink, htext, Member.linkLost, Header.readLink, hheader, hinfo]
  cases target with
  | field target =>
    cases m.linkFirst <;> cases m.name.long? <;> rfl
  | long target =>
    have hbase : (if (target.take 100).length < 100 then target.take 100
        else target.take 100 ++ magicText m.info.gnu)
        = if target.length < 100 then target else target.take 100 ++ magicText m.info.gnu := by
      have hlen : (target.take 100).length = min 100 target.length := List.length_take
      by_cases hlt : target.length < 100
      · rw [if_pos (by omega), if_pos hlt, List.take_of_length_le hlt.le]
      · rw [if_neg (by omega), if_neg hlt]
    rw [LinkForm.base, hbase]
    cases m.linkFirst <;> cases m.name.long? <;> rfl

/-- **The target of a symbolic link.** -/
theorem readTarget_iff (hlink : m.kind.link = some target) :
    m.readTarget = target.full ↔ target.Kept m.linkLost m.info.gnu (· = ·) := by
  rw [readTarget_eq hlink]
  cases target with
  | field target =>
    rw [LinkForm.read, LinkForm.full, LinkForm.Kept]
    split
    · rename_i hlt
      exact iff_of_true rfl hlt
    · rename_i hlt
      refine iff_of_false ?_ hlt
      rw [List.append_right_eq_self]
      exact magicText_ne_nil
  | long target =>
    rw [LinkForm.read, LinkForm.full, LinkForm.Kept]
    cases m.linkLost with
    | false => exact iff_of_true rfl (by simp)
    | true =>
      simp only [if_true, true_imp_iff]
      split
      · rename_i hlt
        exact iff_of_true rfl (Or.inl hlt)
      · rename_i hlt
        exact (or_iff_right hlt).symm

/-- **The target of a hard link.** -/
theorem readTarget_path_iff (hpath : path.length + 263 < pathMax)
    (hlink : m.kind.link = some target) (hle : m.header.link.length ≤ 100) :
    SamePlace slash ((path ++ slash :: m.readTarget).take (pathMax - 1))
      (path ++ slash :: target.full) ↔
    target.Kept m.linkLost m.info.gnu (SamePlace slash) ∧
      (target.long?.isSome → ¬ m.linkLost → FitsBuffer path target.full) := by
  have hmagic := length_magicText m.info.gnu
  rw [readTarget_eq hlink]
  cases target with
  | field target =>
    have hheader : m.header.link = target := by
      rw [Member.header, hlink]
      rfl
    rw [hheader] at hle
    rw [LinkForm.read, LinkForm.full, LinkForm.Kept]
    split
    · rename_i hlt
      rw [take_of_short hpath (by omega)]
      exact iff_of_true rfl ⟨hlt, by simp [LinkForm.long?]⟩
    · rename_i hlt
      have hshort : (target ++ magicText m.info.gnu).length ≤ 262 := by
        rw [List.length_append]
        omega
      rw [take_of_short hpath hshort, samePlace_join_iff]
      exact iff_of_false (not_samePlace_append magicText_ne_nil notMem_magicText rfl)
        (fun h => hlt h.1)
  | long target =>
    rw [LinkForm.read, LinkForm.full, LinkForm.Kept]
    cases m.linkLost with
    | false =>
      refine samePlace_take_iff.trans ?_
      simp [FitsBuffer, LinkForm.long?]
    | true =>
      have hlen : (target.take 100).length = min 100 target.length := List.length_take
      have hshort : (target.take 100 ++ magicText m.info.gnu).length ≤ 262 := by
        rw [List.length_append]
        omega
      simp only [if_true, true_imp_iff, not_true, false_imp_iff, imp_true_iff, and_true]
      split
      · rename_i hlt
        rw [take_of_short hpath (by omega)]
        exact iff_of_true rfl (Or.inl hlt)
      · rename_i hlt
        rw [take_of_short hpath hshort, samePlace_join_iff, or_iff_right hlt]

end Links

/-! ## The theorem -/

section Unpacks

variable {canLink : Bool} {path rest : List Byte} {m : Member} {members : List Member}

theorem sameRequest_iff (hpath : path.length + 263 < pathMax) :
    SameRequest (m.made canLink path) (m.described canLink path) ↔
      m.NameKept path ∧ m.LinkKept path := by
  have hname := @readPath_iff path m hpath
  have hle := m.linkBase_valid.1
  rw [Member.made, Member.described, Member.LinkKept, ← hname]
  cases hkind : m.kind with
  | file old contents => simp [SameRequest]
  | directory => simp [SameRequest]
  | symlink target =>
    have hlink : m.kind.link = some target := by
      rw [hkind]
      rfl
    have htarget := readTarget_iff hlink
    simp [SameRequest, htarget]
  | hardLink target =>
    have hlink : m.kind.link = some target := by
      rw [hkind]
      rfl
    have htarget := readTarget_path_iff hpath hlink hle
    cases canLink with
    | true =>
      simp only [if_true, SameRequest]
      rw [htarget, and_comm]
    | false =>
      simp only [Bool.false_eq_true, if_false, SameRequest]
      rw [htarget, and_true, and_comm]

theorem forall₂_map_map {α β γ : Type*} {R : β → γ → Prop} {f : α → β} {g : α → γ} (l : List α) :
    List.Forall₂ R (l.map f) (l.map g) ↔ ∀ a ∈ l, R (f a) (g a) := by
  rw [List.forall₂_map_left_iff, List.forall₂_map_right_iff, List.forall₂_same]

theorem unpacks_of_kept (hpath : path.length + 263 < pathMax)
    (h : ∀ m ∈ members, m.Kept path) : Unpacks canLink path members rest := by
  have hrun := (unpack_archive canLink path members rest).1 (fun m hm => (h m hm).short)
  refine ⟨_, hrun, (forall₂_map_map members).mpr ?_⟩
  intro m hm
  exact (sameRequest_iff hpath).mpr ⟨(h m hm).name, (h m hm).link⟩

theorem kept_of_unpacks (hpath : path.length + 263 < pathMax)
    (h : Unpacks canLink path members rest) : ∀ m ∈ members, m.Kept path := by
  obtain ⟨requests, hok, hsame⟩ := h
  have hshort : ∀ m ∈ members, ¬ m.TooLong := by
    by_contra hlong
    push Not at hlong
    rw [(unpack_archive canLink path members rest).2 hlong] at hok
    exact absurd hok (by simp)
  rw [(unpack_archive canLink path members rest).1 hshort] at hok
  obtain rfl := Except.ok.inj hok
  intro m hm
  have hboth := (sameRequest_iff hpath).mp ((forall₂_map_map members).mp hsame m hm)
  exact ⟨hshort m hm, hboth.1, hboth.2⟩

/-- **When an archive unpacks to what its members describe.** -/
theorem unpacks_iff (canLink : Bool) (path rest : List Byte) (members : List Member)
    (hpath : path.length + 263 < pathMax) :
    Unpacks canLink path members rest ↔ ∀ m ∈ members, m.Kept path :=
  ⟨kept_of_unpacks hpath, unpacks_of_kept hpath⟩

end Unpacks

/-! ## Archives -/

/-- Mode `0755`, everything else zero. -/
def plainInfo : Info where
  mode := 0o755
  uid := 0
  gid := 0
  mtime := 0
  chksum := List.replicate 8 0
  owner := List.replicate 80 0
  gnu := false
  mode_lt := by decide
  uid_lt := by decide
  gid_lt := by decide
  mtime_lt := by decide
  length_chksum := rfl
  length_owner := rfl

/-- `"d"`, a directory. -/
def plainDirectory : Member where
  name := .field [] [0x64]
  kind := .directory
  linkFirst := false
  info := plainInfo
  longInfo := plainInfo
  name_valid := by simp [NameForm.Valid]
  link_valid := fun _ h => absurd h (by simp [Kind.link])
  contents_lt := by decide

/-- A symbolic link `"d/…"` with a target, both long. -/
def longNames : Member where
  name := .long (0x64 :: slash :: List.replicate 100 0x6e)
  kind := .symlink (.long (List.replicate 100 0x74))
  linkFirst := false
  info := plainInfo
  longInfo := plainInfo
  name_valid := by simp [NameForm.Valid, slash]
  link_valid := by
    rintro target h
    obtain rfl := Option.some_inj.mp h
    simp [LinkForm.Valid]
  contents_lt := by decide

/-- A file of two bytes in `"d"`, with an empty prefix or with `"d"` for a prefix. -/
def splitFile (pfx base : List Byte) (h : (NameForm.field pfx base).Valid) : Member where
  name := .field pfx base
  kind := .file false [0x68, 0x69]
  linkFirst := false
  info := plainInfo
  longInfo := plainInfo
  name_valid := h
  link_valid := fun _ h => absurd h (by simp [Kind.link])
  contents_lt := by decide

/-- `"d"`, and `"d/f"` in the field of the name. -/
theorem unpacks_iff_plain : Unpacks true [slash]
    [plainDirectory, splitFile [] [0x64, slash, 0x66] (by simp [NameForm.Valid, slash])] [] := by
  refine (unpacks_iff true [slash] [] _ (by decide)).mpr ?_
  have hshort : ∀ m : Member, m.name.long? = none → m.linkText? = none → ¬ m.TooLong := by
    rintro m hname hlink (⟨text, h, -⟩ | ⟨text, h, -⟩)
    · exact absurd (hname.symm.trans h) (by simp)
    · exact absurd (hlink.symm.trans h) (by simp)
  intro m hm
  rcases List.mem_cons.mp hm with rfl | hm
  · exact ⟨hshort _ rfl rfl, ⟨by decide, Or.inl rfl⟩, trivial⟩
  · obtain rfl := List.mem_singleton.mp hm
    exact ⟨hshort _ rfl rfl, ⟨by decide, Or.inl rfl⟩, trivial⟩

/-- The prefix `"d"` and the name `"f"` come out as `"df"`, a name of 100 bytes goes on with its
mode, and of a long name and a long link target the name is lost. -/
theorem unpacks_fails :
    ¬ Unpacks true [slash]
      [plainDirectory, splitFile [0x64] [0x66] (by simp [NameForm.Valid])] [] ∧
    ¬ Unpacks true [slash]
      [splitFile [] (List.replicate 100 0x6e) (by simp [NameForm.Valid])] [] ∧
    ¬ Unpacks true [slash] [plainDirectory, longNames] [] := by
  refine ⟨?_, ?_, ?_⟩
  · intro h
    have hkept := (kept_of_unpacks (by decide) h _
      (List.mem_cons_of_mem _ (List.mem_singleton_self _))).name
    exact absurd hkept.2 (by decide)
  · intro h
    have hkept := (kept_of_unpacks (by decide) h _ (List.mem_singleton_self _)).name
    exact absurd hkept.1 (by decide)
  · intro h
    have hkept := (kept_of_unpacks (by decide) h _
      (List.mem_cons_of_mem _ (List.mem_singleton_self _))).name
    rcases hkept with hkept | hkept
    · exact absurd hkept (by decide)
    · exact absurd hkept (by decide)

end TarArchive
