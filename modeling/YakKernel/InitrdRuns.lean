/-
# What the unpacker makes of an archive

A run of `initrd_unpack_tar` over the bytes of an archive, member by member: which long name is
still flagged when the header that it belongs to comes, and which request is made for it.
-/
import YakKernel.TarReading

namespace TarArchive

open Initrd

/-! ## Runs -/

section Runs

variable {canLink : Bool} {path data rest body : List Byte} {s s' s'' : State}

/-- The loop gets from `s` to `s'`, with a round for every 512 bytes at most. -/
def Runs (canLink : Bool) (path data : List Byte) (s s' : State) : Prop :=
  ∃ k, s.pos + 512 * k ≤ s'.pos ∧
    ∀ fuel, unpackLoop canLink path data (fuel + k) s = unpackLoop canLink path data fuel s'

/-- The loop panics from `s` on, within the archive. -/
def Panics (canLink : Bool) (path data : List Byte) (s : State) : Prop :=
  ∃ k, s.pos + 512 * k ≤ data.length ∧
    ∀ fuel, unpackLoop canLink path data (fuel + 1 + k) s = .error .panic

theorem Runs.refl (s : State) : Runs canLink path data s s := ⟨0, le_rfl, fun _ => rfl⟩

theorem Runs.trans (h : Runs canLink path data s s') (h' : Runs canLink path data s' s'') :
    Runs canLink path data s s'' := by
  obtain ⟨k, hk, hrun⟩ := h
  obtain ⟨k', hk', hrun'⟩ := h'
  refine ⟨k' + k, by omega, ?_⟩
  intro fuel
  rw [← Nat.add_assoc, hrun, hrun']

theorem Runs.panics (h : Runs canLink path data s s') (h' : Panics canLink path data s') :
    Panics canLink path data s := by
  obtain ⟨k, hk, hrun⟩ := h
  obtain ⟨k', hk', hrun'⟩ := h'
  refine ⟨k' + k, by omega, ?_⟩
  intro fuel
  rw [← Nat.add_assoc, hrun, hrun']

theorem Runs.step (hpos : s.pos ≤ data.length) (hzero : s.zeroFilled < 2)
    (hbody : unpackBody canLink path data s = .ok s') (hnext : s.pos + 512 ≤ s'.pos) :
    Runs canLink path data s s' := by
  refine ⟨1, by omega, ?_⟩
  intro fuel
  rw [unpackLoop, if_neg (by omega), hbody]
  rfl

theorem Panics.step (hpos : s.pos ≤ data.length) (hzero : s.zeroFilled < 2)
    (hbody : unpackBody canLink path data s = .error .panic) : Panics canLink path data s := by
  refine ⟨0, by omega, ?_⟩
  intro fuel
  rw [Nat.add_zero, unpackLoop, if_neg (by omega), hbody]
  rfl

theorem initrdUnpackTar_of_runs (h : Runs canLink path data ⟨0, 0, none, none, []⟩ s)
    (hpos : s.pos ≤ data.length) (hdone : 2 ≤ s.zeroFilled) :
    initrdUnpackTar canLink path data = .ok s.requests := by
  obtain ⟨k, hk, hrun⟩ := h
  obtain ⟨fuel, hfuel⟩ : ∃ fuel, data.length / 512 + 2 = fuel + 1 + k :=
    ⟨data.length / 512 + 1 - k, by simp only at hk; omega⟩
  rw [initrdUnpackTar, hfuel, hrun, unpackLoop, if_pos (Or.inr hdone)]
  rfl

theorem initrdUnpackTar_of_panics (h : Panics canLink path data ⟨0, 0, none, none, []⟩) :
    initrdUnpackTar canLink path data = .error .panic := by
  obtain ⟨k, hk, hrun⟩ := h
  obtain ⟨fuel, hfuel⟩ : ∃ fuel, data.length / 512 + 2 = fuel + 1 + k :=
    ⟨data.length / 512 + 1 - k, by simp only at hk; omega⟩
  rw [initrdUnpackTar, hfuel, hrun]
  rfl

/-! ## One header -/

section Handle

variable {hdr pathbuf linkname : List Byte} {attr : Vattr} {size : ℕ}

theorem handle_longName (htype : hdr.getD 156 0 = 0x4c)
    (hsize : decodeOctal (hdr.drop 124) 12 = size) :
    handle canLink path hdr body pathbuf linkname attr s = (do
      let text ← readLong body size
      return { s with pos := s.pos + alignUp size, longName := some text }) := by
  rw [handle, htype, hsize]
  rfl

theorem handle_longLink (htype : hdr.getD 156 0 = 0x4b)
    (hsize : decodeOctal (hdr.drop 124) 12 = size) :
    handle canLink path hdr body pathbuf linkname attr s = (do
      let text ← readLong body size
      return { s with pos := s.pos + alignUp size, longLinkname := some text }) := by
  rw [handle, htype, hsize]
  rfl

theorem handle_hardLink (htype : hdr.getD 156 0 = 0x31) :
    handle canLink path hdr body pathbuf linkname attr s = .ok { s with requests := s.requests ++
      [if canLink then .link ((path ++ slash :: linkname).take (pathMax - 1)) pathbuf
        else .hardlinkCopy ((path ++ slash :: linkname).take (pathMax - 1)) pathbuf attr] } := by
  rw [handle, htype]
  rfl

theorem handle_symlink (htype : hdr.getD 156 0 = 0x32) :
    handle canLink path hdr body pathbuf linkname attr s
      = .ok { s with requests := s.requests ++ [.symlink pathbuf linkname attr] } := by
  rw [handle, htype]
  rfl

theorem handle_file (htype : hdr.getD 156 0 = 0x30 ∨ hdr.getD 156 0 = 0)
    (hsize : decodeOctal (hdr.drop 124) 12 = size) (hbody : size ≤ body.length) :
    handle canLink path hdr body pathbuf linkname attr s = .ok { s with
      pos := s.pos + alignUp size
      requests := s.requests ++ [.file pathbuf attr (body.take size)] } := by
  rw [handle, hsize]
  rcases htype with htype | htype
  · rw [htype]
    exact if_neg (Nat.not_lt.mpr hbody)
  · rw [htype]
    exact if_neg (Nat.not_lt.mpr hbody)

theorem handle_directory (htype : hdr.getD 156 0 = 0x35) :
    handle canLink path hdr body pathbuf linkname attr s
      = .ok { s with requests := s.requests ++ [.directory pathbuf attr] } := by
  rw [handle, htype]
  rfl

end Handle

variable {h : Header}

/-- **One round at a header.** -/
theorem unpackBody_header (hv : h.Valid) (hdata : data.drop s.pos = h.bytes ++ body) :
    unpackBody canLink path data s =
      handle canLink path (h.bytes ++ body) body
        ((path ++ slash :: ((if s.longName.isSome then [] else h.pfx) ++
          s.longName.getD h.readName)).take (pathMax - 1))
        (s.longLinkname.getD h.readLink) h.info.attr
        { s with pos := s.pos + 512, zeroFilled := 0, longName := none, longLinkname := none } := by
  have hlen : ¬ (h.bytes ++ body).length < 512 := by
    rw [List.length_append, hv.length_bytes]
    omega
  rw [unpackBody, hdata]
  simp only [if_neg hlen, hv.not_zero, Bool.false_eq_true, if_false, hv.read_name, hv.read_pfx,
    hv.read_link, hv.read_attr, hv.drop_bytes]

theorem unpackBody_zeros (hdata : data.drop s.pos = List.replicate 512 0 ++ body) :
    unpackBody canLink path data s
      = .ok { s with pos := s.pos + 512, zeroFilled := s.zeroFilled + 1 } := by
  have hlen : ¬ (List.replicate 512 (0 : Byte) ++ body).length < 512 := by
    rw [List.length_append, List.length_replicate]
    omega
  have hzero : isZeroBlock (List.replicate 512 (0 : Byte) ++ body) = true := by
    rw [isZeroBlock, List.take_left' (List.length_replicate), List.all_eq_true]
    intro b hb
    rw [List.eq_of_mem_replicate hb]
    rfl
  rw [unpackBody, hdata]
  simp only [if_neg hlen, hzero, if_true]

end Runs

/-! ## Long names -/

theorem alignUp_ge (size : ℕ) : size ≤ alignUp size := by
  unfold alignUp
  omega

theorem length_padBlock (contents : List Byte) :
    (padBlock contents).length = alignUp contents.length := length_pad (alignUp_ge _)

theorem readLong_padBlock {text rest : List Byte} (htext : 0 ∉ text) :
    readLong (padBlock (text ++ [0]) ++ rest) (text.length + 1)
      = if pathMax ≤ text.length + 1 then .error .panic else .ok text := by
  have hlen : ¬ (text.length + 1 = 0 ∨
      (padBlock (text ++ [0]) ++ rest).length < text.length + 1) := by
    have hle := alignUp_ge (text.length + 1)
    rw [List.length_append, length_padBlock, List.length_append, List.length_singleton]
    omega
  have htake : (padBlock (text ++ [0]) ++ rest).take (text.length + 1 - 1) = text := by
    rw [Nat.add_sub_cancel, padBlock, pad, List.append_assoc, List.append_assoc, List.take_left]
  have hself : cstr text = text := by
    have happend := @cstr_append _ [] htext
    rw [List.append_nil] at happend
    rw [happend]
    exact List.append_nil _
  rw [readLong, if_neg hlen, htake, hself]

/-- Where the loop is after a member of type `'L'` or `'K'`, if there is one: its text is the
only one that is flagged. -/
def afterLong (filetype : Byte) (text? : Option (List Byte)) (s : State) : State :=
  match text? with
  | none => s
  | some text => {
      pos := s.pos + 512 + alignUp (text.length + 1)
      zeroFilled := 0
      longName := if filetype = 0x4c then some text else none
      longLinkname := if filetype = 0x4b then some text else none
      requests := s.requests }

/-- A long text that the buffer does not hold. -/
def TooLong (text? : Option (List Byte)) : Prop := ∃ text, text? = some text ∧
  pathMax ≤ text.length + 1

/-- The rest of the archive, with no block of zeros before it. -/
structure At (data : List Byte) (s : State) (rest : List Byte) : Prop where
  drop : data.drop s.pos = rest
  pos_le : s.pos ≤ data.length
  zeroFilled : s.zeroFilled = 0

theorem At.lt_two {data rest : List Byte} {s : State} (h : At data s rest) : s.zeroFilled < 2 := by
  rw [h.zeroFilled]
  decide

section Members

variable {canLink : Bool} {path data rest : List Byte} {s : State} {text? : Option (List Byte)}

theorem At.skip {block : List Byte} {pos : ℕ} (h : At data s (block ++ rest))
    (hpos : pos = s.pos + block.length) : data.drop pos = rest ∧ pos ≤ data.length := by
  have hlen := congrArg List.length h.drop
  rw [List.length_drop, List.length_append] at hlen
  have hle := h.pos_le
  refine ⟨?_, by omega⟩
  rw [hpos, ← List.drop_drop, h.drop, List.drop_left]

theorem longHeader_valid {filetype : Byte} {text : List Byte} {info : Info}
    (hsize : text.length + 1 < 8 ^ 11) : (longHeader filetype text info).Valid :=
  ⟨by simp [longHeader, longLink], by simp [longHeader, longLink], by simp [longHeader],
    by simp [longHeader], by simp [longHeader, longLink], by simp [longHeader],
    by simp [longHeader], hsize⟩

/-- **A long name**: read in one round, or the buffer is too small. -/
theorem long_step {filetype : Byte} {info : Info} (htype : filetype = 0x4c ∨ filetype = 0x4b)
    (htext : ∀ text, text? = some text → 0 ∉ text ∧ text.length + 1 < 8 ^ 11)
    (h : At data s (longBytes filetype text? info ++ rest)) :
    (¬ TooLong text? → Runs canLink path data s (afterLong filetype text? s) ∧
      At data (afterLong filetype text? s) rest) ∧
    (TooLong text? → Panics canLink path data s) := by
  cases text? with
  | none => exact ⟨fun _ => ⟨Runs.refl s, h⟩, fun hlong => absurd hlong (by simp [TooLong])⟩
  | some text =>
    obtain ⟨hnul, hsize⟩ := htext text rfl
    have hv := @longHeader_valid filetype text info hsize
    have hdata : data.drop s.pos = (longHeader filetype text info).bytes ++
        (padBlock (text ++ [0]) ++ rest) := by
      rw [h.drop, longBytes, List.append_assoc]
    have hbody := @unpackBody_header canLink path _ _ _ _ hv hdata
    have hshort : ¬ TooLong (some text) ↔ ¬ pathMax ≤ text.length + 1 := by simp [TooLong]
    have hread := @readLong_padBlock _ rest hnul
    have hrun : unpackBody canLink path data s
        = if pathMax ≤ text.length + 1 then .error .panic
          else .ok (afterLong filetype (some text) s) := by
      rw [hbody]
      rcases htype with rfl | rfl
      · rw [handle_longName hv.read_type hv.read_size, longHeader, hread]
        split
        · rfl
        · rfl
      · rw [handle_longLink hv.read_type hv.read_size, longHeader, hread]
        split
        · rfl
        · rfl
    constructor
    · intro hlong
      rw [if_neg (hshort.mp hlong)] at hrun
      refine ⟨Runs.step h.pos_le h.lt_two hrun (Nat.le_add_right _ _), ?_⟩
      have hpos : (afterLong filetype (some text) s).pos
          = s.pos + (longBytes filetype (some text) info).length := by
        rw [longBytes, List.length_append, hv.length_bytes, length_padBlock, List.length_append,
          List.length_singleton, afterLong, Nat.add_assoc]
      obtain ⟨hdrop, hle⟩ := h.skip hpos
      exact ⟨hdrop, hle, rfl⟩
    · rintro ⟨text', htext', hlong⟩
      obtain rfl := Option.some_inj.mp htext'
      rw [if_pos hlong] at hrun
      exact Panics.step h.pos_le h.lt_two hrun

end Members

/-! ## Members -/

namespace Member

variable (m : Member)

/-- The long name that is still flagged at the header of the member: the header of a link target
that comes after it takes it away. -/
def keptName : Option (List Byte) :=
  if m.linkFirst ∨ m.linkText? = none then m.name.long? else none

/-- The long link target that is still flagged there. -/
def keptLink : Option (List Byte) :=
  if ¬ m.linkFirst ∨ m.name.long? = none then m.linkText? else none

/-- The name that the code puts behind the path. -/
def readFull : List Byte :=
  (if m.keptName.isSome then [] else m.name.pfx) ++ m.keptName.getD m.header.readName

/-- What fits into `pathbuf`. -/
def readPath (path : List Byte) : List Byte := (path ++ slash :: m.readFull).take (pathMax - 1)

def readTarget : List Byte := m.keptLink.getD m.header.readLink

/-- The request made for the member. -/
def made (canLink : Bool) (path : List Byte) : Request :=
  match m.kind with
  | .file _ contents => .file (m.readPath path) m.info.attr contents
  | .directory => .directory (m.readPath path) m.info.attr
  | .symlink _ => .symlink (m.readPath path) m.readTarget m.info.attr
  | .hardLink _ =>
    let pathbuf2 := (path ++ slash :: m.readTarget).take (pathMax - 1)
    if canLink then .link pathbuf2 (m.readPath path)
    else .hardlinkCopy pathbuf2 (m.readPath path) m.info.attr

/-- A long name or a long link target that its buffer does not hold. -/
def TooLong : Prop := TarArchive.TooLong m.name.long? ∨ TarArchive.TooLong m.linkText?

theorem base_valid : m.name.base ≠ [] ∧ m.name.base.length ≤ 100 ∧ m.name.pfx.length ≤ 155 ∧
    0 ∉ m.name.base ∧ 0 ∉ m.name.pfx := by
  have hv := m.name_valid
  cases hname : m.name with
  | field pfx base =>
    rw [hname] at hv
    obtain ⟨hne, hbase, hpfx, hnul, hnul'⟩ := hv
    exact ⟨hne, hbase, hpfx, hnul', hnul⟩
  | long full =>
    rw [hname] at hv
    obtain ⟨hne, hnul, -⟩ := hv
    refine ⟨?_, ?_, Nat.zero_le _, fun h => hnul (List.mem_of_mem_take h), List.not_mem_nil⟩
    · intro h
      rcases List.take_eq_nil_iff.mp h with h | h
      · exact absurd h (by decide)
      · exact hne h
    · rw [NameForm.base, List.length_take]
      omega

theorem linkBase_valid : m.header.link.length ≤ 100 ∧ 0 ∉ m.header.link := by
  rw [header]
  cases hlink : m.kind.link with
  | none => simp
  | some target =>
    have hv := m.link_valid target hlink
    cases target with
    | field target => exact hv
    | long target =>
      refine ⟨?_, fun h => hv.1 (List.mem_of_mem_take h)⟩
      rw [Option.map_some, Option.getD_some, LinkForm.base, List.length_take]
      omega

theorem header_valid : m.header.Valid := by
  obtain ⟨hne, hle, hpfx, hnul, hnul'⟩ := m.base_valid
  obtain ⟨hlink, hnul''⟩ := m.linkBase_valid
  exact ⟨hne, hle, hlink, hpfx, hnul, hnul'', hnul', m.contents_lt⟩

theorem name_text (text : List Byte) (h : m.name.long? = some text) :
    0 ∉ text ∧ text.length + 1 < 8 ^ 11 := by
  have hv := m.name_valid
  cases hname : m.name with
  | field pfx base =>
    rw [hname] at h
    exact absurd h (by simp [NameForm.long?])
  | long full =>
    rw [hname] at h hv
    obtain rfl := Option.some_inj.mp h
    exact hv.2

theorem link_text (text : List Byte) (h : m.linkText? = some text) :
    0 ∉ text ∧ text.length + 1 < 8 ^ 11 := by
  obtain ⟨target, hlink, hlong⟩ := Option.bind_eq_some_iff.mp h
  have hv := m.link_valid target hlink
  cases target with
  | field target => exact absurd hlong (by simp [LinkForm.long?])
  | long target =>
    obtain rfl := Option.some_inj.mp hlong
    exact hv

end Member

section Unpack

variable {canLink : Bool} {path data rest : List Byte} {s : State} {m : Member}

/-- The rest of the archive, with no long name flagged. -/
structure Fresh (data : List Byte) (s : State) (rest : List Byte) : Prop extends
    At data s rest where
  longName : s.longName = none
  longLinkname : s.longLinkname = none

/-- Where the loop is after the header and the contents of a member. -/
def afterMember (canLink : Bool) (path : List Byte) (m : Member) (s : State) : State where
  pos := s.pos + 512 + alignUp m.kind.contents.length
  zeroFilled := 0
  longName := none
  longLinkname := none
  requests := s.requests ++ [m.made canLink path]

/-- **One round at a member.** -/
theorem header_step (h : At data s (m.header.bytes ++ padBlock m.kind.contents ++ rest))
    (hname : s.longName = m.keptName) (hlink : s.longLinkname = m.keptLink) :
    Runs canLink path data s (afterMember canLink path m s) ∧
      Fresh data (afterMember canLink path m s) rest := by
  have hv := m.header_valid
  have hdata : data.drop s.pos
      = m.header.bytes ++ (padBlock m.kind.contents ++ rest) := by
    rw [h.drop, List.append_assoc]
  have hbody := @unpackBody_header canLink path _ _ _ _ hv hdata
  have htype := @Header.Valid.read_type m.header (padBlock m.kind.contents ++ rest) hv
  have hsize := @Header.Valid.read_size m.header (padBlock m.kind.contents ++ rest) hv
  rw [hname, hlink] at hbody
  have hrun : unpackBody canLink path data s = .ok (afterMember canLink path m s) := by
    rw [hbody]
    have htype' : m.header.filetype = m.kind.filetype := rfl
    rw [htype'] at htype
    rw [afterMember, Member.made]
    cases hkind : m.kind with
    | file old contents =>
      have hfile : m.kind.filetype = 0x30 ∨ m.kind.filetype = 0 := by
        rw [hkind]
        cases old
        · exact Or.inl rfl
        · exact Or.inr rfl
      have hcontents : m.header.size = contents.length := by
        rw [Member.header, hkind]
        rfl
      rw [hcontents] at hsize
      have hle : contents.length ≤ (padBlock contents ++ rest).length := by
        have hge := alignUp_ge contents.length
        rw [List.length_append, length_padBlock]
        omega
      have htake : (padBlock contents ++ rest).take contents.length = contents := by
        rw [padBlock, pad, List.append_assoc, List.take_left]
      have hself : (Kind.file old contents).contents = contents := rfl
      rw [hkind, hself] at hsize htype
      rw [hkind, ← htype] at hfile
      rw [hself, handle_file hfile hsize hle, htake]
      rfl
    | directory =>
      rw [hkind] at htype
      rw [handle_directory htype]
      rfl
    | symlink target =>
      have hempty : (Kind.symlink target).contents.length = 0 := rfl
      rw [hkind] at htype
      rw [handle_symlink htype, hempty]
      rfl
    | hardLink target =>
      have hempty : (Kind.hardLink target).contents.length = 0 := rfl
      rw [hkind] at htype
      rw [handle_hardLink htype, hempty]
      rfl
  have hlen : (m.header.bytes ++ padBlock m.kind.contents).length
      = 512 + alignUp m.kind.contents.length := by
    rw [List.length_append, hv.length_bytes, length_padBlock]
  have hpos : (afterMember canLink path m s).pos
      = s.pos + (m.header.bytes ++ padBlock m.kind.contents).length := by
    rw [hlen, afterMember, Nat.add_assoc]
  obtain ⟨hdrop, hle⟩ := h.skip hpos
  exact ⟨Runs.step h.pos_le h.lt_two hrun (Nat.le_add_right _ _),
    ⟨hdrop, hle, rfl⟩, rfl, rfl⟩

theorem two_long_steps {a b : Byte} {info : Info} {text? text'? : Option (List Byte)}
    (ha : a = 0x4c ∨ a = 0x4b) (hb : b = 0x4c ∨ b = 0x4b)
    (htext : ∀ text, text? = some text → 0 ∉ text ∧ text.length + 1 < 8 ^ 11)
    (htext' : ∀ text, text'? = some text → 0 ∉ text ∧ text.length + 1 < 8 ^ 11)
    (h : At data s (longBytes a text? info ++ longBytes b text'? info ++ rest)) :
    (¬ (TooLong text? ∨ TooLong text'?) →
      Runs canLink path data s (afterLong b text'? (afterLong a text? s)) ∧
        At data (afterLong b text'? (afterLong a text? s)) rest) ∧
    (TooLong text? ∨ TooLong text'? → Panics canLink path data s) := by
  rw [List.append_assoc] at h
  obtain ⟨hrun, hpanic⟩ := @long_step canLink path _ _ _ _ _ _ ha htext h
  constructor
  · intro hlong
    rw [not_or] at hlong
    obtain ⟨hruns, hat⟩ := hrun hlong.1
    obtain ⟨hrun', -⟩ := @long_step canLink path _ _ _ _ _ _ hb htext' hat
    obtain ⟨hruns', hat'⟩ := hrun' hlong.2
    exact ⟨hruns.trans hruns', hat'⟩
  · intro hlong
    by_cases hfirst : TooLong text?
    · exact hpanic hfirst
    · obtain ⟨hruns, hat⟩ := hrun hfirst
      obtain ⟨-, hpanic'⟩ := @long_step canLink path _ _ _ _ _ _ hb htext' hat
      exact hruns.panics (hpanic' (hlong.resolve_left hfirst))

theorem long_steps (h : At data s ((if m.linkFirst then
      longBytes 0x4b m.linkText? m.longInfo ++ longBytes 0x4c m.name.long? m.longInfo
    else longBytes 0x4c m.name.long? m.longInfo ++ longBytes 0x4b m.linkText? m.longInfo) ++ rest))
    (hname : s.longName = none) (hlink : s.longLinkname = none) :
    (¬ m.TooLong → ∃ s', Runs canLink path data s s' ∧ At data s' rest ∧
      s'.longName = m.keptName ∧ s'.longLinkname = m.keptLink ∧ s'.requests = s.requests) ∧
    (m.TooLong → Panics canLink path data s) := by
  unfold Member.TooLong Member.keptName Member.keptLink
  cases hfirst : m.linkFirst with
  | true =>
    rw [hfirst, if_pos rfl] at h
    obtain ⟨hrun, hpanic⟩ := @two_long_steps canLink path _ _ _ _ _ _ _ _ (Or.inr rfl) (Or.inl rfl)
      m.link_text m.name_text h
    refine ⟨?_, fun hlong => hpanic hlong.symm⟩
    intro hlong
    obtain ⟨hruns, hat⟩ := hrun (fun h => hlong h.symm)
    refine ⟨_, hruns, hat, ?_⟩
    cases m.linkText? <;> cases m.name.long? <;> simp [afterLong, hname, hlink]
  | false =>
    rw [hfirst, if_neg (by simp)] at h
    obtain ⟨hrun, hpanic⟩ := @two_long_steps canLink path _ _ _ _ _ _ _ _ (Or.inl rfl) (Or.inr rfl)
      m.name_text m.link_text h
    refine ⟨?_, hpanic⟩
    intro hlong
    obtain ⟨hruns, hat⟩ := hrun hlong
    refine ⟨_, hruns, hat, ?_⟩
    cases m.linkText? <;> cases m.name.long? <;> simp [afterLong, hname, hlink]

/-- **A member.** -/
theorem member_steps (h : Fresh data s (m.bytes ++ rest)) :
    (¬ m.TooLong → ∃ s', Runs canLink path data s s' ∧ Fresh data s' rest ∧
      s'.requests = s.requests ++ [m.made canLink path]) ∧
    (m.TooLong → Panics canLink path data s) := by
  have hat := h.toAt
  rw [Member.bytes, List.append_assoc] at hat
  obtain ⟨hrun, hpanic⟩ := @long_steps canLink path _ _ _ _ hat h.longName h.longLinkname
  refine ⟨?_, hpanic⟩
  intro hlong
  obtain ⟨s', hruns, hat', hname, hlink, hreq⟩ := hrun hlong
  obtain ⟨hruns', hfresh⟩ := @header_step canLink path _ _ _ _ hat' hname hlink
  refine ⟨_, hruns.trans hruns', hfresh, ?_⟩
  rw [afterMember, hreq]

theorem members_steps {members : List Member}
    (h : Fresh data s (members.flatMap Member.bytes ++ rest)) :
    ((∀ m ∈ members, ¬ m.TooLong) → ∃ s', Runs canLink path data s s' ∧ Fresh data s' rest ∧
      s'.requests = s.requests ++ members.map (Member.made · canLink path)) ∧
    ((∃ m ∈ members, m.TooLong) → Panics canLink path data s) := by
  induction members generalizing s with
  | nil =>
    refine ⟨?_, by simp⟩
    intro _
    exact ⟨s, Runs.refl s, h, (List.append_nil _).symm⟩
  | cons m members ih =>
    rw [List.flatMap_cons, List.append_assoc] at h
    obtain ⟨hrun, hpanic⟩ := @member_steps canLink path _ _ _ _ h
    constructor
    · intro hlong
      obtain ⟨hm, hmembers⟩ := List.forall_mem_cons.mp hlong
      obtain ⟨s', hruns, hfresh, hreq⟩ := hrun hm
      obtain ⟨s'', hruns', hfresh', hreq'⟩ := (ih hfresh).1 hmembers
      refine ⟨s'', hruns.trans hruns', hfresh', ?_⟩
      rw [hreq', hreq, List.append_assoc, List.map_cons, List.singleton_append]
    · rintro ⟨m', hm', hlong⟩
      by_cases hm : m.TooLong
      · exact hpanic hm
      · obtain ⟨s', hruns, hfresh, -⟩ := hrun hm
        have htail : ∃ m ∈ members, m.TooLong := by
          rcases List.mem_cons.mp hm' with rfl | hm'
          · exact absurd hlong hm
          · exact ⟨m', hm', hlong⟩
        exact hruns.panics ((ih hfresh).2 htail)

end Unpack

theorem zeros_steps {canLink : Bool} {path data rest : List Byte} {s : State}
    (h : At data s (List.replicate 512 0 ++ (List.replicate 512 0 ++ rest))) :
    ∃ s', Runs canLink path data s s' ∧ s'.pos ≤ data.length ∧ s'.zeroFilled = 2 ∧
      s'.requests = s.requests := by
  have hbody := @unpackBody_zeros canLink path _ _ _ h.drop
  have hrun := Runs.step h.pos_le h.lt_two hbody le_rfl
  set s₁ : State := { s with pos := s.pos + 512, zeroFilled := s.zeroFilled + 1 } with hs₁
  have hskip : s₁.pos = s.pos + (List.replicate 512 (0 : Byte)).length := by
    rw [List.length_replicate]
  obtain ⟨hdrop, hle⟩ := h.skip hskip
  have hlen := congrArg List.length hdrop
  rw [List.length_drop, List.length_append, List.length_replicate] at hlen
  have hone : s₁.zeroFilled = 1 := by rw [hs₁, h.zeroFilled]
  have hbody' := @unpackBody_zeros canLink path _ _ _ hdrop
  have hrun' := Runs.step hle (by omega) hbody' le_rfl
  refine ⟨_, hrun.trans hrun', ?_, ?_, rfl⟩
  · show s₁.pos + 512 ≤ data.length
    omega
  · show s₁.zeroFilled + 1 = 2
    rw [hone]

/-- **What the code makes of an archive**: one request for each member, or a panic. -/
theorem unpack_archive (canLink : Bool) (path : List Byte) (members : List Member)
    (rest : List Byte) :
    ((∀ m ∈ members, ¬ m.TooLong) → initrdUnpackTar canLink path (archive members rest)
      = .ok (members.map (Member.made · canLink path))) ∧
    ((∃ m ∈ members, m.TooLong) →
      initrdUnpackTar canLink path (archive members rest) = .error .panic) := by
  have hzeros : List.replicate 1024 (0 : Byte) ++ rest
      = List.replicate 512 0 ++ (List.replicate 512 0 ++ rest) := by
    rw [← List.append_assoc, List.replicate_append_replicate]
  have hstart : Fresh (archive members rest) ⟨0, 0, none, none, []⟩
      (members.flatMap Member.bytes ++ (List.replicate 1024 0 ++ rest)) :=
    ⟨⟨rfl, Nat.zero_le _, rfl⟩, rfl, rfl⟩
  obtain ⟨hrun, hpanic⟩ := @members_steps canLink path _ _ _ _ hstart
  refine ⟨?_, fun hlong => initrdUnpackTar_of_panics (hpanic hlong)⟩
  intro hlong
  obtain ⟨s, hruns, hfresh, hreq⟩ := hrun hlong
  have hat := hfresh.toAt
  rw [hzeros] at hat
  obtain ⟨s', hruns', hle, htwo, hreq'⟩ := @zeros_steps canLink path _ _ _ hat
  rw [initrdUnpackTar_of_runs (hruns.trans hruns') hle htwo.ge, hreq', hreq, List.nil_append]

end TarArchive
