/-
# Tar archives

The members of an archive as the ustar format and the GNU extension for long names write them
down: what a member describes, and its bytes.  A path that is too long for the field of a name
is split into a prefix and a name, or comes in a member of type `'L'` before; a long link target
comes in a member of type `'K'`.
-/
import YakKernel.Initrd

namespace TarArchive

open Initrd

/-! ## Fields -/

/-- A text in a field that is filled up with `NUL`. -/
def pad (width : ℕ) (text : List Byte) : List Byte := text ++ List.replicate (width - text.length) 0

/-- The octal digits of a number. -/
def octalDigits : ℕ → ℕ → List Byte
  | 0, _ => []
  | width + 1, n => octalDigits width (n / 8) ++ [UInt8.ofNat (48 + n % 8)]

/-- A number in a field, with leading zeros and a `NUL` at the end. -/
def octalField (width n : ℕ) : List Byte := octalDigits (width - 1) n ++ [0]

/-- The text that `magic` and `version` make up: `"ustar"` in POSIX archives, and two blanks
more in GNU archives. -/
def magicText (gnu : Bool) : List Byte :=
  [0x75, 0x73, 0x74, 0x61, 0x72] ++ if gnu then [0x20, 0x20] else []

/-- The fields `magic` and `version`. -/
def magicField (gnu : Bool) : List Byte :=
  magicText gnu ++ if gnu then [0] else [0, 0x30, 0x30]

/-- What a header says besides names, size and type; `chksum` and `owner` (the names of the
owner and the numbers of a device) are any bytes. -/
structure Info where
  mode : ℕ
  uid : ℕ
  gid : ℕ
  mtime : ℕ
  chksum : List Byte
  owner : List Byte
  gnu : Bool
  mode_lt : mode < 8 ^ 7
  uid_lt : uid < 8 ^ 7
  gid_lt : gid < 8 ^ 7
  mtime_lt : mtime < 8 ^ 11
  length_chksum : chksum.length = 8
  length_owner : owner.length = 80

/-- The attributes given. -/
def Info.attr (info : Info) : Vattr := ⟨info.mode, info.uid, info.gid, info.mtime⟩

/-- A header. -/
structure Header where
  name : List Byte
  link : List Byte
  pfx : List Byte
  size : ℕ
  filetype : Byte
  info : Info

/-- The texts fit into their fields and have no `NUL` in them, and so does the size. -/
structure Header.Valid (h : Header) : Prop where
  name_ne : h.name ≠ []
  name_le : h.name.length ≤ 100
  link_le : h.link.length ≤ 100
  pfx_le : h.pfx.length ≤ 155
  name_text : 0 ∉ h.name
  link_text : 0 ∉ h.link
  pfx_text : 0 ∉ h.pfx
  size_lt : h.size < 8 ^ 11

def Header.fields (h : Header) : List (List Byte) :=
  [pad 100 h.name, octalField 8 h.info.mode, octalField 8 h.info.uid, octalField 8 h.info.gid,
    octalField 12 h.size, octalField 12 h.info.mtime, h.info.chksum, [h.filetype], pad 100 h.link,
    magicField h.info.gnu, h.info.owner, pad 155 h.pfx, List.replicate 12 0]

def Header.bytes (h : Header) : List Byte := h.fields.flatten

/-- Contents, filled up to whole blocks. -/
def padBlock (contents : List Byte) : List Byte := pad (alignUp contents.length) contents

/-! ## Members -/

/-- How the name of a member is written down: in the fields of its header, as a prefix and the
rest, or as a long name. -/
inductive NameForm : Type where
  | field (pfx base : List Byte)
  | long (full : List Byte)

/-- How a link target is written down. -/
inductive LinkForm : Type where
  | field (target : List Byte)
  | long (target : List Byte)

/-- The kinds of members; old archives have `NUL` for the type of a file. -/
inductive Kind : Type where
  | file (old : Bool) (contents : List Byte)
  | directory
  | symlink (target : LinkForm)
  | hardLink (target : LinkForm)

/-- The name described: the prefix is joined with `'/'`. -/
def NameForm.full : NameForm → List Byte
  | .field pfx base => if pfx = [] then base else pfx ++ slash :: base
  | .long full => full

/-- What stands in the field of the header: of a long name the beginning. -/
def NameForm.base : NameForm → List Byte
  | .field _ base => base
  | .long full => full.take 100

def NameForm.pfx : NameForm → List Byte
  | .field pfx _ => pfx
  | .long _ => []

/-- The contents of the member of type `'L'`, if there is one. -/
def NameForm.long? : NameForm → Option (List Byte)
  | .field _ _ => none
  | .long full => some full

def NameForm.Valid : NameForm → Prop
  | .field pfx base => base ≠ [] ∧ base.length ≤ 100 ∧ pfx.length ≤ 155 ∧ 0 ∉ pfx ∧ 0 ∉ base
  | .long full => full ≠ [] ∧ 0 ∉ full ∧ full.length + 1 < 8 ^ 11

/-- The target described. -/
def LinkForm.full : LinkForm → List Byte
  | .field target => target
  | .long target => target

def LinkForm.base : LinkForm → List Byte
  | .field target => target
  | .long target => target.take 100

def LinkForm.long? : LinkForm → Option (List Byte)
  | .field _ => none
  | .long target => some target

def LinkForm.Valid : LinkForm → Prop
  | .field target => target.length ≤ 100 ∧ 0 ∉ target
  | .long target => 0 ∉ target ∧ target.length + 1 < 8 ^ 11

def Kind.link : Kind → Option LinkForm
  | .file _ _ => none
  | .directory => none
  | .symlink target => some target
  | .hardLink target => some target

def Kind.contents : Kind → List Byte
  | .file _ contents => contents
  | _ => []

def Kind.filetype : Kind → Byte
  | .file old _ => if old then 0 else 0x30
  | .directory => 0x35
  | .symlink _ => 0x32
  | .hardLink _ => 0x31

/-- A member, with the headers of its own and of its long names, and whether its link target
comes before its name. -/
structure Member where
  name : NameForm
  kind : Kind
  linkFirst : Bool
  info : Info
  longInfo : Info
  name_valid : name.Valid
  link_valid : ∀ target, kind.link = some target → target.Valid
  contents_lt : kind.contents.length < 8 ^ 11

/-- `"././@LongLink"`. -/
def longLink : List Byte :=
  [0x2e, 0x2f, 0x2e, 0x2f, 0x40, 0x4c, 0x6f, 0x6e, 0x67, 0x4c, 0x69, 0x6e, 0x6b]

/-- The header of a member of type `'L'` or `'K'`. -/
def longHeader (filetype : Byte) (text : List Byte) (info : Info) : Header :=
  ⟨longLink, [], [], text.length + 1, filetype, info⟩

/-- A member of type `'L'` or `'K'`, if there is one. -/
def longBytes (filetype : Byte) (text? : Option (List Byte)) (info : Info) : List Byte :=
  match text? with
  | none => []
  | some text => (longHeader filetype text info).bytes ++ padBlock (text ++ [0])

namespace Member

variable (m : Member)

def linkText? : Option (List Byte) := m.kind.link.bind LinkForm.long?

def header : Header :=
  ⟨m.name.base, (m.kind.link.map LinkForm.base).getD [], m.name.pfx, m.kind.contents.length,
    m.kind.filetype, m.info⟩

/-- The bytes of the member. -/
def bytes : List Byte :=
  (if m.linkFirst then
    longBytes 0x4b m.linkText? m.longInfo ++ longBytes 0x4c m.name.long? m.longInfo
  else longBytes 0x4c m.name.long? m.longInfo ++ longBytes 0x4b m.linkText? m.longInfo) ++
    (m.header.bytes ++ padBlock m.kind.contents)

/-- What the member describes, below the directory `path`. -/
def described (canLink : Bool) (path : List Byte) : Request :=
  match m.kind with
  | .file _ contents => .file (path ++ slash :: m.name.full) m.info.attr contents
  | .directory => .directory (path ++ slash :: m.name.full) m.info.attr
  | .symlink target => .symlink (path ++ slash :: m.name.full) target.full m.info.attr
  | .hardLink target =>
    if canLink then .link (path ++ slash :: target.full) (path ++ slash :: m.name.full)
    else .hardlinkCopy (path ++ slash :: target.full) (path ++ slash :: m.name.full) m.info.attr

end Member

/-- The bytes of an archive: its members, two blocks of zeros, and what follows. -/
def archive (members : List Member) (rest : List Byte) : List Byte :=
  members.flatMap Member.bytes ++ (List.replicate 1024 0 ++ rest)

end TarArchive
