import CheckerAudit.Invocation
import CheckerAudit.ProofCode

/-!
Why a case fails.
-/
namespace CheckerAudit

/-- The cause of a failed case. -/
inductive Failure where
  | missingResult
  | resultMismatch (expected actual : Int64)
  | proofMismatch (expected : ProofCode) (actual : Option String)
  | invoke (error : InvokeError)
deriving DecidableEq, Repr

/-- The kinds of failure that a reader of the event stream can tell apart. -/
inductive FailureKind where
  | missingResult
  | resultMismatch
  | proofMismatch
  | timedOut
  | malformedResult
  | invokeError
deriving DecidableEq, Repr

/-- The word for a kind. -/
def FailureKind.name : FailureKind → String
  | missingResult => "missing_result"
  | resultMismatch => "result_mismatch"
  | proofMismatch => "proof_mismatch"
  | timedOut => "timed_out"
  | malformedResult => "malformed_result"
  | invokeError => "invoke_error"

/-- The kind of a failure. A checker that cannot be started or is lost counts as one kind. -/
def Failure.kind : Failure → FailureKind
  | missingResult => .missingResult
  | resultMismatch .. => .resultMismatch
  | proofMismatch .. => .proofMismatch
  | invoke (.timedOut ..) => .timedOut
  | invoke (.malformedResult ..) => .malformedResult
  | invoke (.spawn ..) | invoke (.wait _) => .invokeError

end CheckerAudit
