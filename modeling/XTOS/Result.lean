import Mathlib.Tactic

/-!
# Result codes

`XTResult` of `include/xt/result.h`. The source packs the code and the error
class into a signed 64-bit word; every value the modelled functions return is
one of the named codes, so the type is the enumeration of these.
-/

namespace XTOS

/-- The result codes the kernel functions return. -/
inductive XTResult where
  | success
  | invalidParameter
  | notImplemented
  | outOfMemory
  | outOfBoundary
  | notFound
  | notEqual
  | invalidInitialization
  | badName
  | accessDenied
  | endOfFile
  | invalidModule
  | archException
  | fileAlreadyExists
  | unknownError
  | accessViolation
  | wouldBlock
  | brokenPipe
  | timeout
  deriving DecidableEq, Repr

/-- `XT_IS_ERROR`: every named code but `XT_SUCCESS` carries the error mask. -/
def XTResult.isError : XTResult → Bool
  | .success => false
  | _ => true

end XTOS
