import Mathlib.Data.Int.Notation
import Mathlib.Data.Nat.Notation

/-! The result codes every XPCOM method returns. A success is `ok`; the code of
a failure is kept because callers pass it on. -/

namespace Kompozer

/-- `nsresult`. -/
inductive NsResult
  | ok
  | error (code : ℕ)
  deriving DecidableEq, Repr

namespace NsResult

def NS_ERROR_NOT_IMPLEMENTED : NsResult := .error 0x80004001
def NS_ERROR_NULL_POINTER : NsResult := .error 0x80004003
def NS_ERROR_ABORT : NsResult := .error 0x80004004
def NS_ERROR_FAILURE : NsResult := .error 0x80004005
def NS_ERROR_UNEXPECTED : NsResult := .error 0x8000FFFF
def NS_ERROR_ILLEGAL_VALUE : NsResult := .error 0x80070057
def NS_ERROR_NOT_INITIALIZED : NsResult := .error 0xC1F30001
def NS_ERROR_NOT_AVAILABLE : NsResult := .error 0x80040111
def NS_ERROR_OUT_OF_MEMORY : NsResult := .error 0x8007000E
def NS_BASE_STREAM_CLOSED : NsResult := .error 0x80470002
def NS_BASE_STREAM_WOULD_BLOCK : NsResult := .error 0x80470007
def NS_ERROR_CACHE_KEY_NOT_FOUND : NsResult := .error 0x804B003D
def NS_ERROR_MALFORMED_URI : NsResult := .error 0x804B000A

def NS_ERROR_DOM_INDEX_SIZE_ERR : NsResult := .error 0x80530001
def NS_ERROR_DOM_HIERARCHY_REQUEST_ERR : NsResult := .error 0x80530003
def NS_ERROR_DOM_NOT_FOUND_ERR : NsResult := .error 0x80530008
def NS_ERROR_DOM_NOT_SUPPORTED_ERR : NsResult := .error 0x80530009

/-- `NS_FAILED`. -/
def failed : NsResult → Bool
  | ok => false
  | error _ => true

/-- `if (NS_SUCCEEDED(result)) result = result2;` -/
def orElse (result result2 : NsResult) : NsResult :=
  if result.failed then result else result2

@[simp] theorem failed_ok : ok.failed = false := rfl
@[simp] theorem failed_error (c : ℕ) : (error c).failed = true := rfl
@[simp] theorem ok_orElse (r : NsResult) : ok.orElse r = r := rfl
@[simp] theorem error_orElse (c : ℕ) (r : NsResult) : (error c).orElse r = error c := rfl

@[simp] theorem orElse_ok (r : NsResult) : r.orElse ok = r := by
  cases r <;> rfl

end NsResult

end Kompozer
