/-
# Kernel status codes

`enum status` of `include/yak/status.h` with its tests `IS_OK` and `IS_ERR`.
-/
import Mathlib.Tactic

/-- The kernel's result codes; `waitSuccess i` is `YAK_WAIT_SUCCESS` with the
object index `i` added in. -/
inductive Status : Type where
  | success
  | noent
  | nullDeref
  | notImplemented
  | notSupported
  | busy
  | oom
  | timeout
  | cancelled
  | io
  | invalidArgs
  | unknownFs
  | nodev
  | nodir
  | exists
  | nospace
  | eof
  | mfile
  | permDenied
  | badf
  | notty
  | crossDevice
  | isdir
  | waitSuccess (i : ℕ)
  deriving DecidableEq, Repr, Inhabited

namespace Status

/-- `IS_OK`. -/
def isOk (s : Status) : Bool := s = success

/-- `IS_ERR`: everything but `YAK_SUCCESS`. -/
def isErr (s : Status) : Bool := s ≠ success

@[simp] theorem isErr_success : isErr success = false := rfl

end Status
