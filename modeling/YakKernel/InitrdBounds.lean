/-
# What the unpacking of an archive reads

`initrd_unpack_tar` (`core/initrd.c`) read by read: a pointer into the archive is what is left of
the archive behind it, and nothing can be read where nothing is left.  Whatever the file system
refuses ends in a panic.  The length of the archive is only compared with the position of the next
header, so that it depends on the contents alone what is read behind it.
-/
import YakKernel.Aborts
import YakKernel.Initrd

namespace InitrdBounds

open Prog Initrd

/-! ## The code -/

/-- What the unpacking asks the file system for. -/
inductive Ask where
  | create (path : List Byte)
  | write (contents : List Byte)
  | symlink (path target : List Byte)
  | openFile (path : List Byte)
  | link (target path : List Byte)
  | read (path : List Byte) (offset length : ℕ)
  | writeBuffer (path : List Byte) (offset length : ℕ)

/-- `YAK_SUCCESS`, `YAK_NOT_SUPPORTED` and the other statuses. -/
inductive Answer where
  | success
  | notSupported
  | failure
  deriving DecidableEq

/-- The answers of the file system, and the sizes of its files. -/
structure Fs where
  answer : ℕ → Ask → Answer
  filesize : List Byte → ℕ

/-- Programs that panic or go wrong; the state counts what has been asked. -/
abbrev UnpackM := Prog Fs (Stop Unit Failure) ℕ

def ask (a : Ask) : UnpackM Answer := do
  let fs ← getEnv
  let n ← getState
  change (· + 1)
  return fs.answer n a

/-- `EXPECT`. -/
def expect (a : Ask) : UnpackM Unit := do
  let rv ← ask a
  check (rv = .success) (.refused ())

/-- `*p`. -/
def readByte : List Byte → UnpackM Byte
  | [] => fail (.wrong .outOfBounds)
  | b :: _ => pure b

/-- A text, up to its `NUL`. -/
def readString : List Byte → UnpackM (List Byte)
  | [] => fail (.wrong .outOfBounds)
  | b :: p => if b = 0 then pure [] else do
    let text ← readString p
    return b :: text

/-- The loop of `is_zero_block`, with `n` bytes to go. -/
def isZeroBlock : ℕ → List Byte → UnpackM Bool
  | 0, _ => pure true
  | _ + 1, [] => fail (.wrong .outOfBounds)
  | n + 1, b :: p => if b ≠ 0 then pure false else isZeroBlock n p

/-- `decode_octal`: it reads the byte after the field first, and then only bytes before it. -/
def decodeOctal (p : List Byte) (size : ℕ) : UnpackM ℕ := do
  check (size < p.length) (.wrong .outOfBounds)
  return Initrd.decodeOctal p size

/-- `memcpy` out of the archive. -/
def readBytes (p : List Byte) (size : ℕ) : UnpackM (List Byte) := do
  check (size ≤ p.length) (.wrong .outOfBounds)
  return p.take size

/-- The text that a member of type `'L'` or `'K'` leaves in its buffer; `size - 1` is where the
buffer is written. -/
def readLong (p : List Byte) (size : ℕ) : UnpackM (List Byte) := do
  check (size < pathMax) (.refused ())
  let body ← readBytes p size
  check (0 < size) (.wrong .outOfBounds)
  return cstr (body.take (size - 1))

/-- The loop of `hardlink_copy`. -/
def copyLoop (path src : List Byte) : ℕ → ℕ → ℕ → UnpackM Unit
  | 0, _, remaining => check (remaining = 0) (.wrong .diverges)
  | fuel + 1, offset, remaining =>
    if remaining = 0 then pure () else do
      let toCopy := min remaining (1024 * 16)
      expect (.read src offset toCopy)
      expect (.writeBuffer path offset toCopy)
      copyLoop path src fuel (offset + toCopy) (remaining - toCopy)

/-- `hardlink_copy`. -/
def hardlinkCopy (path src : List Byte) : UnpackM Unit := do
  expect (.create path)
  let fs ← getEnv
  copyLoop path src (fs.filesize src) 0 (fs.filesize src)

/-- A member of type `'1'`: `vfs_link`, or a copy where there are no hard links. -/
def linkOrCopy (path target : List Byte) : UnpackM Unit := do
  expect (.openFile target)
  let rv ← ask (.link target path)
  if rv = .notSupported then hardlinkCopy path target
  else check (rv = .success) (.refused ())

/-- `pos`, `zero_filled`, and the two long names while they are flagged. -/
structure State where
  pos : ℕ
  zeroFilled : ℕ
  longName : Option (List Byte)
  longLinkname : Option (List Byte)

/-- `pos + ALIGN_UP(size, 512)`. -/
def skip (pos size : ℕ) : ℕ := (pos + alignUp size) % 2 ^ 64

/-- The `switch` over the type: `hdr` is the header, `body` what follows, at `pos`. -/
def handle (path hdr body pathbuf : List Byte) (linkname : Option (List Byte)) (filetype : Byte)
    (pos : ℕ) : UnpackM State :=
  if filetype = 0x4c then do
    let size ← decodeOctal (hdr.drop 124) 12
    let text ← readLong body size
    return ⟨skip pos size, 0, some text, none⟩
  else if filetype = 0x4b then do
    let size ← decodeOctal (hdr.drop 124) 12
    let text ← readLong body size
    return ⟨skip pos size, 0, none, some text⟩
  else if filetype = 0x31 then do
    let target ← linkname.elim (readString (hdr.drop 157)) pure
    let pathbuf2 := (path ++ slash :: target).take (pathMax - 1)
    linkOrCopy pathbuf pathbuf2
    return ⟨pos, 0, none, none⟩
  else if filetype = 0x32 then do
    let target ← linkname.elim (readString (hdr.drop 157)) pure
    expect (.symlink pathbuf target)
    return ⟨pos, 0, none, none⟩
  else if filetype = 0x30 ∨ filetype = 0 then do
    expect (.create pathbuf)
    let size ← decodeOctal (hdr.drop 124) 12
    let contents ← readBytes body size
    expect (.write contents)
    return ⟨skip pos size, 0, none, none⟩
  else if filetype = 0x35 then do
    expect (.create pathbuf)
    return ⟨pos, 0, none, none⟩
  else pure ⟨pos, 0, none, none⟩

/-- The body of the loop of `initrd_unpack_tar` for a header that is not a block of zeros. -/
def unpackHeader (path hdr body : List Byte) (s : State) (pos : ℕ) : UnpackM State := do
  let nameprefix ← s.longName.elim (readString (hdr.drop 345)) fun _ => pure []
  let filename ← s.longName.elim (readString hdr) pure
  let pathbuf := (path ++ slash :: ( nameprefix ++ filename)).take (pathMax - 1)
  let _ ← decodeOctal (hdr.drop 100) 8
  let _ ← decodeOctal (hdr.drop 108) 8
  let _ ← decodeOctal (hdr.drop 116) 8
  let _ ← decodeOctal (hdr.drop 136) 12
  let filetype ← readByte (hdr.drop 156)
  handle path hdr body pathbuf s.longLinkname filetype pos

/-- The body of the loop of `initrd_unpack_tar`. -/
def unpackBlock (path data : List Byte) (s : State) : UnpackM State := do
  let pos := (s.pos + 512) % 2 ^ 64
  let zero ← isZeroBlock 512 (data.drop s.pos)
  if zero = true then pure { s with pos := pos, zeroFilled := s.zeroFilled + 1 }
  else unpackHeader path (data.drop s.pos) (data.drop pos) s pos

/-- The loop of `initrd_unpack_tar`. -/
def unpackLoop (path data : List Byte) : ℕ → State → UnpackM Unit
  | 0, _ => fail (.wrong .diverges)
  | fuel + 1, s =>
    if s.pos ≤ data.length ∧ s.zeroFilled < 2 then do
      let s ← unpackBlock path data s
      unpackLoop path data fuel s
    else pure ()

/-- `initrd_unpack_tar`, with the long names that are flagged before; every round takes a block
of 512 bytes at least. -/
def initrdUnpackTar (path data : List Byte) (longName longLinkname : Option (List Byte)) :
    UnpackM Unit :=
  unpackLoop path data (data.length / 512 + 2) ⟨0, 0, longName, longLinkname⟩

/-! ## What an archive says -/

/-- Where the unpacking is in the archive, and which long names are pending. -/
structure Walk where
  pos : ℕ
  zeroFilled : ℕ
  longName : Bool
  longLinkname : Bool

def State.walk (s : State) : Walk :=
  ⟨s.pos, s.zeroFilled, s.longName.isSome, s.longLinkname.isSome⟩

/-- There is a header to come. -/
def Walk.Continues (data : List Byte) (w : Walk) : Prop :=
  w.pos ≤ data.length ∧ w.zeroFilled < 2

/-- The size in a header. -/
def filesize (hdr : List Byte) : ℕ := Initrd.decodeOctal (hdr.drop 124) 12

/-- The type of a member. -/
def typeOf (hdr : List Byte) : Byte := hdr.getD 156 0

/-- A long name, or a long link name. -/
def IsLong (filetype : Byte) : Prop := filetype = 0x4c ∨ filetype = 0x4b

instance (filetype : Byte) : Decidable (IsLong filetype) := inferInstanceAs (Decidable (_ ∨ _))

def IsFile (filetype : Byte) : Prop := filetype = 0x30 ∨ filetype = 0

instance (filetype : Byte) : Decidable (IsFile filetype) := inferInstanceAs (Decidable (_ ∨ _))

def IsLink (filetype : Byte) : Prop := filetype = 0x31 ∨ filetype = 0x32

instance (filetype : Byte) : Decidable (IsLink filetype) := inferInstanceAs (Decidable (_ ∨ _))

/-- What the `switch` over the type needs: the contents, of which a long name has at least one byte,
and the end of the link name. -/
def MemberFits (hdr : List Byte) (longLinkname : Bool) : Prop :=
  (IsLong (typeOf hdr) → filesize hdr < pathMax →
    0 < filesize hdr ∧ 512 + filesize hdr ≤ hdr.length) ∧
  (IsLink (typeOf hdr) → longLinkname = false → 0 ∈ hdr.drop 157) ∧
  (IsFile (typeOf hdr) → filesize hdr = 0 ∨ 512 + filesize hdr ≤ hdr.length)

/-- **What has to be there**, from a header on: a block of zeros whole; of any other header the
type, the ends of the prefix and of the name unless a long name is pending, and what the `switch`
needs. -/
def HeaderFits (hdr : List Byte) (w : Walk) : Prop :=
  if Initrd.isZeroBlock hdr = true then 512 ≤ hdr.length
  else (w.longName = false → 0 ∈ hdr.drop 345) ∧ 156 < hdr.length ∧
    MemberFits hdr w.longLinkname

/-- The code refuses a long name. -/
def Refused (hdr : List Byte) : Prop :=
  Initrd.isZeroBlock hdr = false ∧ IsLong (typeOf hdr) ∧ pathMax ≤ filesize hdr

/-- Behind a header and its contents. -/
def Walk.next (hdr : List Byte) (w : Walk) : Walk :=
  if Initrd.isZeroBlock hdr = true then
    { w with pos := w.pos + 512, zeroFilled := w.zeroFilled + 1 }
  else
    { pos := w.pos + 512 +
        if IsLong (typeOf hdr) ∨ IsFile (typeOf hdr) then alignUp (filesize hdr) else 0
      zeroFilled := 0
      longName := decide (typeOf hdr = 0x4c)
      longLinkname := decide (typeOf hdr = 0x4b) }

/-- The headers that the unpacking gets to from `w` on. -/
inductive Reached (data : List Byte) (w : Walk) : Walk → Prop
  | start : Reached data w w
  | next {v : Walk} (h : Reached data w v) (hc : v.Continues data)
      (hr : ¬ Refused (data.drop v.pos)) : Reached data w (v.next (data.drop v.pos))

/-- **All that is read is there.** -/
def StaysInside (data : List Byte) (w : Walk) : Prop :=
  ∀ v, Reached data w v → v.Continues data → HeaderFits (data.drop v.pos) v

/-! ## The reads -/

/-- The file system does what it is asked for. -/
def Kind (fs : Fs) : Prop := ∀ n a, fs.answer n a = .success

variable {path data hdr p : List Byte} {size n : ℕ} {s : State} {w : Walk}

theorem expect_goes (a : Ask) : Goes Kind (expect a) True True (fun _ => True) := by
  intro fs n
  simp only [expect, ask, ends_bind, ends_getEnv, ends_getState, ends_change, ends_pure,
    ends_check]
  refine ⟨fun _ => ⟨trivial, trivial, trivial⟩, fun hrefused => ⟨?_, fun _ _ hk => ?_⟩⟩
  · rintro c hc
    cases hc
  · exact absurd (hk n a) hrefused

theorem readByte_goes (p : List Byte) (i : ℕ) :
    Goes Kind (readByte (p.drop i)) (i < p.length) True
      (fun b => i < p.length ∧ b = p.getD i 0) := by
  by_cases hi : i < p.length
  · rw [List.drop_eq_getElem_cons hi]
    refine Goes.pure_of hi trivial ⟨hi, ?_⟩
    rw [List.getD_eq_getElem?_getD, List.getElem?_eq_getElem hi, Option.getD_some]
  · rw [List.drop_eq_nil_of_le (Nat.le_of_not_lt hi)]
    exact Goes.wrong_of hi

theorem readString_goes (p : List Byte) :
    Goes Kind (readString p) (0 ∈ p) True (fun _ => True) := by
  induction p with
  | nil => exact Goes.wrong_of List.not_mem_nil
  | cons b p ih =>
    rw [readString]
    by_cases hb : b = 0
    · rw [if_pos hb, hb]
      exact Goes.pure_of List.mem_cons_self trivial trivial
    · rw [if_neg hb]
      refine (ih.bind fun _ _ => Goes.any).congr ?_ (fun _ => and_self_iff) (fun _ _ _ h => h)
      rw [List.mem_cons]
      constructor
      · exact fun h => Or.inr h.1
      · rintro (h | h)
        · exact absurd h.symm hb
        · exact ⟨h, fun _ => trivial⟩

theorem isZeroBlock_goes (n : ℕ) (p : List Byte) :
    Goes Kind (isZeroBlock n p) ((p.take n).all (· = 0) = true → n ≤ p.length) True
      (· = (p.take n).all (· = 0)) := by
  induction n generalizing p with
  | zero => exact Goes.pure_of (fun _ => Nat.zero_le _) trivial rfl
  | succ n ih =>
    cases p with
    | nil => exact Goes.wrong_of fun h => absurd (h rfl) (Nat.not_succ_le_zero n)
    | cons b p =>
      rw [isZeroBlock, List.take_succ_cons, List.all_cons, List.length_cons]
      by_cases hb : b = 0
      · rw [if_neg (not_not.mpr hb), decide_eq_true hb, Bool.true_and]
        exact (ih p).congr (by rw [Nat.succ_le_succ_iff]) (fun _ => Iff.rfl) (fun _ _ _ h => h)
      · rw [if_pos hb, decide_eq_false hb, Bool.false_and]
        exact Goes.pure_of (fun h => absurd h Bool.false_ne_true) trivial rfl

theorem decodeOctal_goes (p : List Byte) (size : ℕ) :
    Goes Kind (decodeOctal p size) (size < p.length) True (· = Initrd.decodeOctal p size) := by
  have hpure : Goes Kind (pure (Initrd.decodeOctal p size) : UnpackM ℕ) True True
      (· = Initrd.decodeOctal p size) := Goes.pure rfl
  exact (Goes.check.bind fun _ _ => hpure).congr (by simp) (by simp) (fun _ _ _ h => h)

theorem field_goes (offset size : ℕ) (hfield : offset + size ≤ 148) (hlen : 156 < hdr.length) :
    Goes Kind (decodeOctal (hdr.drop offset) size) True True
      (· = Initrd.decodeOctal (hdr.drop offset) size) := by
  refine (decodeOctal_goes _ _).congr (iff_of_true ?_ trivial) (fun _ => Iff.rfl)
    (fun _ _ _ h => h)
  rw [List.length_drop]
  omega

theorem readBytes_goes (p : List Byte) (size : ℕ) :
    Goes Kind (readBytes p size) (size ≤ p.length) True (fun _ => True) :=
  (Goes.check.bind fun _ _ => Goes.any).congr (by simp) (by simp) (fun _ _ _ h => h)

theorem readLong_goes (p : List Byte) (size : ℕ) :
    Goes Kind (readLong p size) (size < pathMax → 0 < size ∧ size ≤ p.length) (size < pathMax)
      (fun _ => True) := by
  refine (Goes.demand.bind fun _ _ => (readBytes_goes p size).bind fun _ _ => Goes.check.bind
    fun _ _ => Goes.any).congr ?_ (fun _ => ?_) (fun _ _ _ h => h)
  · tauto
  · tauto

theorem copyLoop_goes (path src : List Byte) (fuel offset remaining : ℕ)
    (h : remaining ≤ fuel) :
    Goes Kind (copyLoop path src fuel offset remaining) True True (fun _ => True) := by
  induction fuel generalizing offset remaining with
  | zero =>
    refine Goes.check.congr (iff_of_true (Nat.le_zero.mp h) trivial) (fun _ => Iff.rfl)
      (fun _ _ _ h => h)
  | succ fuel ih =>
    rw [copyLoop]
    by_cases hzero : remaining = 0
    · rw [if_pos hzero]
      exact Goes.any
    · rw [if_neg hzero]
      refine ((expect_goes _).bind fun _ _ => (expect_goes _).bind fun _ _ =>
        ih _ _ ?_).congr ?_ ?_ (fun _ _ _ h => h)
      · omega
      · tauto
      · tauto

theorem hardlinkCopy_goes (path src : List Byte) :
    Goes Kind (hardlinkCopy path src) True True (fun _ => True) := by
  have hcopy : Goes Kind (do
      let fs ← getEnv
      copyLoop path src (fs.filesize src) 0 (fs.filesize src)) True True (fun _ => True) :=
    fun fs n => copyLoop_goes path src (fs.filesize src) 0 (fs.filesize src) le_rfl fs n
  exact ((expect_goes _).bind fun _ _ => hcopy).congr (by simp) (by simp) (fun _ _ _ h => h)

theorem linkOrCopy_goes (path target : List Byte) :
    Goes Kind (linkOrCopy path target) True True (fun _ => True) := by
  have hlink : Goes Kind (do
      let rv ← ask (.link target path)
      if rv = .notSupported then hardlinkCopy path target
      else check (rv = .success) (.refused ())) True True (fun _ => True) := by
    intro fs n
    simp only [ask, ends_bind, ends_getEnv, ends_getState, ends_change, ends_pure]
    by_cases hcopy : fs.answer n (.link target path) = .notSupported
    · rw [if_pos hcopy]
      exact hardlinkCopy_goes path target fs (n + 1)
    · rw [if_neg hcopy, ends_check]
      refine ⟨fun _ => ⟨trivial, trivial, trivial⟩, fun hrefused => ⟨?_, fun _ _ hk => ?_⟩⟩
      · rintro c hc
        cases hc
      · exact absurd (hk n _) hrefused
  exact ((expect_goes _).bind fun _ _ => hlink).congr (by simp) (by simp) (fun _ _ _ h => h)

theorem linkname_goes (linkname : Option (List Byte)) (p : List Byte) :
    Goes Kind (linkname.elim (readString p) pure) (linkname.isSome = false → 0 ∈ p) True
      (fun _ => True) := by
  cases linkname with
  | none => exact (readString_goes p).congr (by simp) (fun _ => Iff.rfl) (fun _ _ _ h => h)
  | some text => exact Goes.pure_of (fun h => absurd h (by simp)) trivial trivial

/-! ## A header -/

/-- What the `switch` leaves. -/
def Handled (hdr : List Byte) (pos : ℕ) (s : State) : Prop :=
  s.walk = ⟨if IsLong (typeOf hdr) ∨ IsFile (typeOf hdr) then skip pos (filesize hdr) else pos, 0,
    decide (typeOf hdr = 0x4c), decide (typeOf hdr = 0x4b)⟩

theorem not_long_of_link {filetype : Byte} (h : IsLink filetype) :
    ¬ IsLong filetype ∧ ¬ IsFile filetype := by
  rcases h with rfl | rfl
  · decide
  · decide

theorem not_long_of_file {filetype : Byte} (h : IsFile filetype) :
    ¬ IsLong filetype ∧ ¬ IsLink filetype := by
  rcases h with rfl | rfl
  · decide
  · decide

theorem memberFits_long {b : Bool} (h : IsLong (typeOf hdr)) : MemberFits hdr b ↔
    (filesize hdr < pathMax → 0 < filesize hdr ∧ filesize hdr ≤ (hdr.drop 512).length) := by
  have hlink : ¬ IsLink (typeOf hdr) := fun h' => (not_long_of_link h').1 h
  have hfile : ¬ IsFile (typeOf hdr) := fun h' => (not_long_of_file h').1 h
  rw [MemberFits, List.length_drop]
  constructor
  · rintro ⟨hlong, -, -⟩ hlt
    have hfits := hlong h hlt
    omega
  · intro hlong
    refine ⟨fun _ hlt => ?_, fun h' => absurd h' hlink, fun h' => absurd h' hfile⟩
    have hfits := hlong hlt
    omega

theorem memberFits_link {b : Bool} (h : IsLink (typeOf hdr)) : MemberFits hdr b ↔
    (b = false → 0 ∈ hdr.drop 157) := by
  obtain ⟨hlong, hfile⟩ := not_long_of_link h
  exact ⟨fun hfits => hfits.2.1 h, fun hb => ⟨fun h' => absurd h' hlong, fun _ => hb,
    fun h' => absurd h' hfile⟩⟩

theorem memberFits_file {b : Bool} (h : IsFile (typeOf hdr)) : MemberFits hdr b ↔
    filesize hdr ≤ (hdr.drop 512).length := by
  obtain ⟨hlong, hlink⟩ := not_long_of_file h
  rw [MemberFits, List.length_drop]
  constructor
  · rintro ⟨-, -, hfits⟩
    have := hfits h
    omega
  · intro hfits
    refine ⟨fun h' => absurd h' hlong, fun h' => absurd h' hlink, fun _ => ?_⟩
    omega

theorem memberFits_other {b : Bool} (hlong : ¬ IsLong (typeOf hdr))
    (hlink : ¬ IsLink (typeOf hdr)) (hfile : ¬ IsFile (typeOf hdr)) : MemberFits hdr b :=
  ⟨fun h => absurd h hlong, fun h => absurd h hlink, fun h => absurd h hfile⟩

theorem handled_plain (pos : ℕ) (hlong : ¬ IsLong (typeOf hdr)) (hfile : ¬ IsFile (typeOf hdr)) :
    Handled hdr pos ⟨pos, 0, none, none⟩ := by
  have hL : typeOf hdr ≠ 0x4c := fun h => hlong (Or.inl h)
  have hK : typeOf hdr ≠ 0x4b := fun h => hlong (Or.inr h)
  rw [Handled, if_neg (not_or.mpr ⟨hlong, hfile⟩), decide_eq_false hL, decide_eq_false hK]
  rfl

/-- **The `switch` over the type.** -/
theorem handle_goes (path pathbuf : List Byte) (linkname : Option (List Byte)) (pos : ℕ)
    (hlen : 156 < hdr.length) :
    Goes Kind (handle path hdr (hdr.drop 512) pathbuf linkname (typeOf hdr) pos)
      (MemberFits hdr linkname.isSome) (¬ (IsLong (typeOf hdr) ∧ pathMax ≤ filesize hdr))
      (Handled hdr pos) := by
  have hsize : Goes Kind (decodeOctal (hdr.drop 124) 12) True True (· = filesize hdr) :=
    field_goes 124 12 (by omega) hlen
  have htarget := linkname_goes linkname (hdr.drop 157)
  unfold handle
  by_cases hL : typeOf hdr = 0x4c
  · -- a long name
    have hlong : IsLong (typeOf hdr) := Or.inl hL
    rw [if_pos hL]
    refine (hsize.value ((readLong_goes _ _).bind fun text _ => Goes.pure ?_)).congr ?_
      (fun _ => ?_) (fun _ _ _ h => h)
    · rw [Handled, if_pos (Or.inl hlong), hL]
      rfl
    · rw [memberFits_long hlong]
      simp only [true_and, implies_true, and_true, true_implies]
    · rw [and_iff_right hlong, Nat.not_le]
      simp only [true_and, and_true]
  rw [if_neg hL]
  by_cases hK : typeOf hdr = 0x4b
  · -- a long link name
    have hlong : IsLong (typeOf hdr) := Or.inr hK
    rw [if_pos hK]
    refine (hsize.value ((readLong_goes _ _).bind fun text _ => Goes.pure ?_)).congr ?_
      (fun _ => ?_) (fun _ _ _ h => h)
    · rw [Handled, if_pos (Or.inl hlong), hK]
      rfl
    · rw [memberFits_long hlong]
      simp only [true_and, implies_true, and_true, true_implies]
    · rw [and_iff_right hlong, Nat.not_le]
      simp only [true_and, and_true]
  rw [if_neg hK]
  have hlong : ¬ IsLong (typeOf hdr) := not_or.mpr ⟨hL, hK⟩
  have hdone : (¬ (IsLong (typeOf hdr) ∧ pathMax ≤ filesize hdr)) ↔ True :=
    iff_true_intro fun h => hlong h.1
  rw [hdone]
  by_cases h1 : typeOf hdr = 0x31
  · have hlink : IsLink (typeOf hdr) := Or.inl h1
    have hplain := handled_plain pos hlong (not_long_of_link hlink).2
    rw [if_pos h1, memberFits_link hlink]
    refine (htarget.bind fun _ _ => (linkOrCopy_goes _ _).bind fun _ _ =>
      Goes.pure hplain).congr ?_ (fun _ => ?_) (fun _ _ _ h => h)
    · tauto
    · tauto
  rw [if_neg h1]
  by_cases h2 : typeOf hdr = 0x32
  · have hlink : IsLink (typeOf hdr) := Or.inr h2
    have hplain := handled_plain pos hlong (not_long_of_link hlink).2
    rw [if_pos h2, memberFits_link hlink]
    refine (htarget.bind fun _ _ => (expect_goes _).bind fun _ _ => Goes.pure hplain).congr ?_
      (fun _ => ?_) (fun _ _ _ h => h)
    · tauto
    · tauto
  rw [if_neg h2]
  have hlink : ¬ IsLink (typeOf hdr) := not_or.mpr ⟨h1, h2⟩
  by_cases h0 : typeOf hdr = 0x30 ∨ typeOf hdr = 0
  · have hfile : IsFile (typeOf hdr) := h0
    rw [if_pos h0, memberFits_file hfile]
    refine ((expect_goes _).bind fun _ _ => hsize.value ((readBytes_goes _ _).bind
      fun _ _ => (expect_goes _).bind fun _ _ => Goes.pure ?_)).congr ?_ (fun _ => ?_)
      (fun _ _ _ h => h)
    · rw [Handled, if_pos (Or.inr hfile), decide_eq_false hL, decide_eq_false hK]
      rfl
    · simp only [true_and, implies_true, and_true, true_implies]
    · tauto
  rw [if_neg h0]
  have hfile : ¬ IsFile (typeOf hdr) := h0
  have hplain := handled_plain pos hlong hfile
  by_cases h5 : typeOf hdr = 0x35
  · rw [if_pos h5]
    refine ((expect_goes _).bind fun _ _ => Goes.pure hplain).congr ?_ (fun _ => ?_)
      (fun _ _ _ h => h)
    · exact iff_of_true (by tauto) (memberFits_other hlong hlink hfile)
    · tauto
  · rw [if_neg h5]
    exact Goes.pure_of (memberFits_other hlong hlink hfile) trivial hplain

/-! ## The run -/

theorem isZeroBlock_eq (hdr : List Byte) :
    Initrd.isZeroBlock hdr = (hdr.take 512).all (· = 0) := rfl

theorem walk_next (hlen : data.length < 2 ^ 63) (hpos : s.pos ≤ data.length) {s' : State}
    (hzero : Initrd.isZeroBlock (data.drop s.pos) = false)
    (hfits : HeaderFits (data.drop s.pos) s.walk)
    (hnot : ¬ (IsLong (typeOf (data.drop s.pos)) ∧ pathMax ≤ filesize (data.drop s.pos)))
    (h : Handled (data.drop s.pos) ((s.pos + 512) % 2 ^ 64) s') :
    s'.walk = s.walk.next (data.drop s.pos) := by
  have hdrop : (data.drop s.pos).length = data.length - s.pos := List.length_drop
  rw [HeaderFits, if_neg (by rw [hzero]; exact Bool.false_ne_true)] at hfits
  obtain ⟨-, -, hlong, -, hfile⟩ := hfits
  have hmod : (s.pos + 512) % 2 ^ 64 = s.pos + 512 := Nat.mod_eq_of_lt (by omega)
  rw [Walk.next, if_neg (by rw [hzero]; exact Bool.false_ne_true), h, hmod]
  by_cases hmember : IsLong (typeOf (data.drop s.pos)) ∨ IsFile (typeOf (data.drop s.pos))
  · have hsize : s.pos + filesize (data.drop s.pos) ≤ data.length := by
      rcases hmember with h' | h'
      · have hlt : filesize (data.drop s.pos) < pathMax := Nat.lt_of_not_le fun hle => hnot ⟨h', hle⟩
        have := (hlong h' hlt).2
        omega
      · have := hfile h'
        omega
    have hskip : skip (s.pos + 512) (filesize (data.drop s.pos)) =
        s.pos + 512 + alignUp (filesize (data.drop s.pos)) := by
      rw [skip, alignUp, Nat.mod_eq_of_lt (by omega)]
    rw [if_pos hmember, if_pos hmember, hskip]
    rfl
  · rw [if_neg hmember, if_neg hmember]
    rfl

theorem nameprefix_goes (longName : Option (List Byte)) (p : List Byte) :
    Goes Kind (longName.elim (readString p) fun _ => pure []) (longName.isSome = false → 0 ∈ p)
      True (fun _ => True) := by
  cases longName with
  | none => exact (readString_goes p).congr (by simp) (fun _ => Iff.rfl) (fun _ _ _ h => h)
  | some text => exact Goes.pure_of (fun h => absurd h (by simp)) trivial trivial

/-- **A header that is not a block of zeros.** -/
theorem unpackHeader_goes (path hdr : List Byte) (s : State) (pos : ℕ) :
    Goes Kind (unpackHeader path hdr (hdr.drop 512) s pos)
      ((s.longName.isSome = false → 0 ∈ hdr.drop 345) ∧ 156 < hdr.length ∧
        MemberFits hdr s.longLinkname.isSome)
      (¬ (IsLong (typeOf hdr) ∧ pathMax ≤ filesize hdr)) (Handled hdr pos) := by
  have hswitch : ∀ pathbuf b, 156 < hdr.length ∧ b = hdr.getD 156 0 →
      Goes Kind (handle path hdr (hdr.drop 512) pathbuf s.longLinkname b pos)
        (MemberFits hdr s.longLinkname.isSome)
        (¬ (IsLong (typeOf hdr) ∧ pathMax ≤ filesize hdr)) (Handled hdr pos) := by
    rintro pathbuf b ⟨hlen, rfl⟩
    exact handle_goes path pathbuf s.longLinkname pos hlen
  refine ((nameprefix_goes s.longName (hdr.drop 345)).bind fun _ _ =>
    (linkname_goes s.longName hdr).bind fun _ _ => (decodeOctal_goes (hdr.drop 100) 8).bind
    fun _ _ => (decodeOctal_goes (hdr.drop 108) 8).bind fun _ _ =>
    (decodeOctal_goes (hdr.drop 116) 8).bind fun _ _ => (decodeOctal_goes (hdr.drop 136) 12).bind
    fun _ _ => (readByte_goes hdr 156).bind (hswitch _)).congr ?_ (fun _ => ?_) (fun _ _ _ h => h)
  · -- the type is behind the numbers, and the end of the prefix behind the name
    have hmem : 0 ∈ hdr.drop 345 → 0 ∈ hdr := List.mem_of_mem_drop
    have hfields : 156 < hdr.length → 8 < (hdr.drop 100).length ∧ 8 < (hdr.drop 108).length ∧
        8 < (hdr.drop 116).length ∧ 12 < (hdr.drop 136).length := by
      simp only [List.length_drop]
      omega
    simp only [true_implies]
    constructor
    · rintro ⟨hname, -, -, -, -, -, hlen, hmember⟩
      exact ⟨hname, hlen, hmember⟩
    · rintro ⟨hname, hlen, hmember⟩
      obtain ⟨hmode, huid, hgid, hmtime⟩ := hfields hlen
      exact ⟨hname, fun h => hmem (hname h), hmode, huid, hgid, hmtime, hlen, hmember⟩
  · simp only [true_and]

/-- **The body of the loop.** -/
theorem unpackBlock_goes (hlen : data.length < 2 ^ 63) (path : List Byte)
    (hpos : s.pos ≤ data.length) :
    Goes Kind (unpackBlock path data s) (HeaderFits (data.drop s.pos) s.walk)
      (¬ Refused (data.drop s.pos))
      (fun s' => HeaderFits (data.drop s.pos) s.walk ∧
        s'.walk = s.walk.next (data.drop s.pos)) := by
  have hzero := isZeroBlock_goes 512 (data.drop s.pos)
  rw [← isZeroBlock_eq] at hzero
  have hmod : (s.pos + 512) % 2 ^ 64 = s.pos + 512 := Nat.mod_eq_of_lt (by omega)
  have hbody : data.drop (s.pos + 512) = (data.drop s.pos).drop 512 := by
    rw [List.drop_drop]
  simp only [unpackBlock, hmod, hbody]
  cases hblock : Initrd.isZeroBlock (data.drop s.pos) with
  | true =>
    rw [hblock] at hzero
    have hfits : HeaderFits (data.drop s.pos) s.walk ↔ 512 ≤ (data.drop s.pos).length := by
      rw [HeaderFits, if_pos hblock]
    have hskipped : Goes Kind (pure { s with pos := s.pos + 512, zeroFilled := s.zeroFilled + 1 } :
        UnpackM State) True True (fun s' => s'.walk = s.walk.next (data.drop s.pos)) := by
      refine Goes.pure ?_
      rw [Walk.next, if_pos hblock]
      rfl
    refine (hzero.value hskipped).congr ?_ (fun _ => ?_) (fun s' hfine _ h => ⟨?_, h⟩)
    · rw [hfits]
      exact ⟨fun h => h.1 rfl, fun h => ⟨fun _ => h, fun _ => trivial⟩⟩
    · refine iff_of_true ⟨trivial, trivial⟩ fun hr => ?_
      rw [hr.1] at hblock
      cases hblock
    · exact hfits.mpr (hfine.1 rfl)
  | false =>
    rw [hblock] at hzero
    have hfits : HeaderFits (data.drop s.pos) s.walk ↔
        (s.longName.isSome = false → 0 ∈ (data.drop s.pos).drop 345) ∧
          156 < (data.drop s.pos).length ∧
          MemberFits (data.drop s.pos) s.longLinkname.isSome := by
      rw [HeaderFits, if_neg (by rw [hblock]; exact Bool.false_ne_true)]
      rfl
    refine (hzero.value (unpackHeader_goes path (data.drop s.pos) s _)).congr ?_ (fun _ => ?_)
      (fun s' hfine hdone h => ?_)
    · rw [hfits]
      exact ⟨fun h => h.2 trivial, fun h => ⟨fun h' => absurd h' Bool.false_ne_true, fun _ => h⟩⟩
    · rw [Refused, true_and, and_iff_right hblock]
    · have hheader := hfits.mpr (hfine.2 trivial)
      exact ⟨hheader, walk_next hlen hpos hblock hheader hdone.2 (by rw [hmod]; exact h)⟩

/-! ### The loop -/

/-- What is reached from the start is reached at once, or behind the first header. -/
theorem reached_iff {v : Walk} : Reached data w v ↔
    v = w ∨ w.Continues data ∧ ¬ Refused (data.drop w.pos) ∧
      Reached data (w.next (data.drop w.pos)) v := by
  constructor
  · intro h
    induction h with
    | start => exact Or.inl rfl
    | next h hc hr ih =>
      rcases ih with rfl | ⟨hc', hr', hrest⟩
      · exact Or.inr ⟨hc, hr, .start⟩
      · exact Or.inr ⟨hc', hr', hrest.next hc hr⟩
  · rintro (rfl | ⟨hc, hr, h⟩)
    · exact .start
    · induction h with
      | start => exact .next .start hc hr
      | next _ hc' hr' ih => exact ih.next hc' hr'

theorem staysInside_iff_next (hc : w.Continues data) : StaysInside data w ↔
    HeaderFits (data.drop w.pos) w ∧
      (¬ Refused (data.drop w.pos) → StaysInside data (w.next (data.drop w.pos))) := by
  constructor
  · intro h
    exact ⟨h w .start hc, fun hr v hv => h v (reached_iff.mpr (Or.inr ⟨hc, hr, hv⟩))⟩
  · rintro ⟨hfits, hrest⟩ v hv hvc
    rcases reached_iff.mp hv with rfl | ⟨-, hr, hv'⟩
    · exact hfits
    · exact hrest hr v hv' hvc

/-- The code is refused nothing that the archive asks for. -/
def Accepted (data : List Byte) (w : Walk) : Prop :=
  ∀ v, Reached data w v → v.Continues data → ¬ Refused (data.drop v.pos)

theorem accepted_iff_next (hc : w.Continues data) : Accepted data w ↔
    ¬ Refused (data.drop w.pos) ∧ Accepted data (w.next (data.drop w.pos)) := by
  constructor
  · intro h
    have hr := h w .start hc
    exact ⟨hr, fun v hv => h v (reached_iff.mpr (Or.inr ⟨hc, hr, hv⟩))⟩
  · rintro ⟨hr, hrest⟩ v hv hvc
    rcases reached_iff.mp hv with rfl | ⟨-, -, hv'⟩
    · exact hr
    · exact hrest v hv' hvc

theorem stays_of_end (hc : ¬ w.Continues data) : StaysInside data w ∧ Accepted data w := by
  have hend : ∀ v, Reached data w v → v = w := by
    intro v hv
    rcases reached_iff.mp hv with rfl | ⟨hc', -⟩
    · rfl
    · exact absurd hc' hc
  refine ⟨fun v hv hvc => ?_, fun v hv hvc => ?_⟩
  · exact absurd (hend v hv ▸ hvc) hc
  · exact absurd (hend v hv ▸ hvc) hc

theorem pos_le_next (hdr : List Byte) (w : Walk) : w.pos + 512 ≤ (w.next hdr).pos := by
  unfold Walk.next
  split
  · exact le_rfl
  · exact Nat.le_add_right _ _

/-- **The loop**, with rounds enough for the blocks that are left. -/
theorem unpackLoop_goes (hlen : data.length < 2 ^ 63) (path : List Byte) (m : ℕ) (s : State)
    (hfuel : data.length < s.pos + 512 * m) :
    Goes Kind (unpackLoop path data (m + 1) s) (StaysInside data s.walk) (Accepted data s.walk)
      (fun _ => True) := by
  induction m generalizing s with
  | zero =>
    have hc : ¬ (s.pos ≤ data.length ∧ s.zeroFilled < 2) := by omega
    obtain ⟨hstays, haccepted⟩ := stays_of_end (w := s.walk) hc
    rw [unpackLoop, if_neg hc]
    exact Goes.pure_of hstays haccepted trivial
  | succ m ih =>
    rw [unpackLoop]
    by_cases hc : s.pos ≤ data.length ∧ s.zeroFilled < 2
    · have hc' : s.walk.Continues data := hc
      rw [if_pos hc, staysInside_iff_next hc', accepted_iff_next hc']
      refine (unpackBlock_goes hlen path hc.1).bind fun s' hs' => ?_
      rw [← show s.walk.pos = s.pos from rfl] at hs'
      rw [← hs'.2]
      refine ih s' ?_
      have hpos : s.pos + 512 ≤ s'.pos := by
        have hnext := pos_le_next (data.drop s.walk.pos) s.walk
        rw [← hs'.2] at hnext
        exact hnext
      omega
    · obtain ⟨hstays, haccepted⟩ := stays_of_end (w := s.walk) hc
      rw [if_neg hc]
      exact Goes.pure_of hstays haccepted trivial

/-- **The unpacking stays inside the archive**, terminates, and writes its buffers inside their
bounds, whatever the file system says, exactly if all that the headers ask for is there. -/
theorem initrdUnpackTar_safe_iff (path : List Byte) (longName longLinkname : Option (List Byte))
    (hlen : data.length < 2 ^ 63) :
    (∀ fs n c, initrdUnpackTar path data longName longLinkname fs n ≠ .error (.wrong c)) ↔
      StaysInside data ⟨0, 0, longName.isSome, longLinkname.isSome⟩ := by
  have hfuel : data.length < 512 * (data.length / 512 + 1) := Nat.lt_mul_div_succ _ (by decide)
  have hloop := unpackLoop_goes hlen path (data.length / 512 + 1)
    ⟨0, 0, longName, longLinkname⟩ ((Nat.zero_add _).symm ▸ hfuel)
  exact hloop.never_wrong_iff ⟨⟨fun _ _ => .success, fun _ => 0⟩, fun _ _ => rfl⟩

theorem isZeroBlock_zeros (n k : ℕ) :
    Initrd.isZeroBlock ((List.replicate n 0).drop k) = true := by
  rw [List.drop_replicate, isZeroBlock_eq, List.take_replicate, List.all_eq_true]
  intro b hb
  exact decide_eq_true (List.eq_of_mem_replicate hb)

/-- Two blocks of zeros are all that is read of an archive without members. -/
theorem staysInside_zeros : StaysInside (List.replicate 1024 0) ⟨0, 0, false, false⟩ := by
  have hreached : ∀ v, Reached (List.replicate 1024 0) ⟨0, 0, false, false⟩ v →
      v.pos = 512 * v.zeroFilled := by
    intro v hv
    induction hv with
    | start => rfl
    | @next v _ _ _ ih =>
      rw [Walk.next, if_pos (isZeroBlock_zeros 1024 v.pos)]
      show v.pos + 512 = 512 * (v.zeroFilled + 1)
      omega
  intro v hv hc
  have hpos := hreached v hv
  have hzero := hc.2
  rw [HeaderFits, if_pos (isZeroBlock_zeros 1024 v.pos), List.length_drop, List.length_replicate]
  omega

theorem zeros_length : (List.replicate 1024 (0 : Byte)).length < 2 ^ 63 := by
  rw [List.length_replicate]
  decide

theorem initrdUnpackTar_safe_zeros :
    (List.replicate 1024 (0 : Byte)).length < 2 ^ 63 ∧
      ∀ fs n c, initrdUnpackTar [] (List.replicate 1024 0) none none fs n ≠ .error (.wrong c) :=
  ⟨zeros_length, (initrdUnpackTar_safe_iff [] none none zeros_length).mpr staysInside_zeros⟩

/-- **Of an archive of no bytes** one is read. -/
theorem initrdUnpackTar_not_safe :
    initrdUnpackTar [] [] none none ⟨fun _ _ => .success, fun _ => 0⟩ 0 =
      .error (.wrong .outOfBounds) :=
  rfl

end InitrdBounds
