/-
# Unpacking the initrd

`initrd_unpack_tar` (`core/initrd.c`) as a run over the bytes of an archive that ends in the
requests it makes to the file system.  A request that fails ends the run in `EXPECT`; the model
has the requests of a run in which they all succeed, with the one answer that the code handles,
whether the file system supports hard links.
-/
import YakKernel.PathComponents

namespace Initrd

abbrev Byte := UInt8

/-- `'/'`. -/
def slash : Byte := 0x2f

/-- `PATH_MAX`. -/
def pathMax : ℕ := 4096

/-- The members of `struct vattr` that the code sets; `atime` and `btime` are `mtime`. -/
structure Vattr where
  mode : ℕ
  uid : ℕ
  gid : ℕ
  mtime : ℕ
  deriving DecidableEq, Repr

/-- The requests to the file system. -/
inductive Request : Type where
  /-- `vfs_create` with `VREG`, and `VOP_WRITE` of the contents at the offset 0. -/
  | file (path : List Byte) (attr : Vattr) (contents : List Byte)
  /-- `vfs_create` with `VDIR`. -/
  | directory (path : List Byte) (attr : Vattr)
  /-- `vfs_symlink`. -/
  | symlink (path target : List Byte) (attr : Vattr)
  /-- `vfs_open` of the target, and `vfs_link`. -/
  | link (target path : List Byte)
  /-- `vfs_open` of the target, and `hardlink_copy`. -/
  | hardlinkCopy (target path : List Byte) (attr : Vattr)
  deriving DecidableEq, Repr

/-- The ways in which a run does not return. -/
inductive Failure : Type where
  | panic
  /-- The archive is read, or a buffer written, outside its bounds. -/
  | outOfBounds
  | diverges
  deriving DecidableEq, Repr

/-! ## Reading a header -/

/-- The text at an address, up to its `NUL`. -/
def cstr (mem : List Byte) : List Byte := mem.takeWhile (· ≠ 0)

/-- The first loop of `decode_octal`, with `checkPtr` before `data + n`: how many digits are in
front of `currentPtr + 1`. -/
def findEnd (data : List Byte) : ℕ → ℕ → ℕ
  | 0, count => count
  | n + 1, count => findEnd data n (if data.getD n 0 = 0 ∨ data.getD n 0 = 0x20 then n else count)

/-- The second loop of `decode_octal`, with `currentPtr` before `data + n`. -/
def sumDigits (data : List Byte) : ℕ → ℕ → ℕ → ℕ
  | 0, sum, _ => sum
  | n + 1, sum, multiplier =>
    sumDigits data n ((sum + ((data.getD n 0).toNat + 2 ^ 64 - 48) * multiplier) % 2 ^ 64)
      (multiplier * 8 % 2 ^ 64)

/-- `decode_octal`; the first loop starts at the byte after the field. -/
def decodeOctal (data : List Byte) (size : ℕ) : ℕ :=
  sumDigits data (findEnd data (size + 1) (size + 1)) 0 1

/-- `is_zero_block`. -/
def isZeroBlock (p : List Byte) : Bool := (p.take 512).all (· = 0)

/-- `ALIGN_UP(size, 512)`. -/
def alignUp (size : ℕ) : ℕ := (size + 511) / 512 * 512

/-! ## The run -/

/-- `pos`, `zero_filled`, the two long names while they are flagged, and the requests made. -/
structure State where
  pos : ℕ
  zeroFilled : ℕ
  longName : Option (List Byte)
  longLinkname : Option (List Byte)
  requests : List Request

/-- The text that a member of type `'L'` or `'K'` leaves in its buffer. -/
def readLong (body : List Byte) (size : ℕ) : Except Failure (List Byte) :=
  if pathMax ≤ size then .error .panic
  else if size = 0 ∨ body.length < size then .error .outOfBounds
  else .ok (cstr (body.take (size - 1)))

/-- The `switch` over the type, with the position after the header at `body`. -/
def handle (canLink : Bool) (path : List Byte) (hdr body pathbuf linkname : List Byte)
    (attr : Vattr) (s : State) : Except Failure State :=
  let filetype := hdr.getD 156 0
  let size := decodeOctal (hdr.drop 124) 12
  if filetype = 0x4c then do
    let text ← readLong body size
    return { s with pos := s.pos + alignUp size, longName := some text }
  else if filetype = 0x4b then do
    let text ← readLong body size
    return { s with pos := s.pos + alignUp size, longLinkname := some text }
  else if filetype = 0x31 then
    let pathbuf2 := (path ++ slash :: linkname).take (pathMax - 1)
    .ok { s with requests := s.requests ++
      [if canLink then .link pathbuf2 pathbuf else .hardlinkCopy pathbuf2 pathbuf attr] }
  else if filetype = 0x32 then
    .ok { s with requests := s.requests ++ [.symlink pathbuf linkname attr] }
  else if filetype = 0x30 ∨ filetype = 0 then
    if body.length < size then .error .outOfBounds
    else .ok { s with
      pos := s.pos + alignUp size
      requests := s.requests ++ [.file pathbuf attr (body.take size)] }
  else if filetype = 0x35 then
    .ok { s with requests := s.requests ++ [.directory pathbuf attr] }
  else .ok s

/-- The body of the loop of `initrd_unpack_tar`. -/
def unpackBody (canLink : Bool) (path data : List Byte) (s : State) : Except Failure State :=
  let hdr := data.drop s.pos
  if hdr.length < 512 then .error .outOfBounds
  else if isZeroBlock hdr then
    .ok { s with pos := s.pos + 512, zeroFilled := s.zeroFilled + 1 }
  else
    let filename := s.longName.getD (cstr hdr)
    let nameprefix := if s.longName.isSome then [] else cstr (hdr.drop 345)
    let linkname := s.longLinkname.getD (cstr (hdr.drop 157))
    let pathbuf := (path ++ slash :: ( nameprefix ++ filename)).take (pathMax - 1)
    let attr : Vattr := {
      mode := decodeOctal (hdr.drop 100) 8
      uid := decodeOctal (hdr.drop 108) 8
      gid := decodeOctal (hdr.drop 116) 8
      mtime := decodeOctal (hdr.drop 136) 12 }
    handle canLink path hdr (hdr.drop 512) pathbuf linkname attr
      { s with pos := s.pos + 512, zeroFilled := 0, longName := none, longLinkname := none }

/-- The loop of `initrd_unpack_tar`. -/
def unpackLoop (canLink : Bool) (path data : List Byte) : ℕ → State → Except Failure State
  | 0, _ => .error .diverges
  | fuel + 1, s =>
    if data.length < s.pos ∨ 2 ≤ s.zeroFilled then .ok s
    else do
      let s ← unpackBody canLink path data s
      unpackLoop canLink path data fuel s

/-- `initrd_unpack_tar`: every round takes a block of 512 bytes at least. -/
def initrdUnpackTar (canLink : Bool) (path data : List Byte) : Except Failure (List Request) := do
  let s ← unpackLoop canLink path data (data.length / 512 + 2) ⟨0, 0, none, none, []⟩
  return s.requests

end Initrd
