import CheckerAudit.Catalog
import CheckerAudit.Failure

/-!
What a run tells its reporter, step by step.
-/
namespace CheckerAudit

/-- A failed case with everything needed to diagnose it. -/
structure CaseFailure where
  case : Case
  salt : Salt
  failure : Failure
  output : Option Captured
  exitCode : Option Int32
deriving DecidableEq, Repr

/-- The totals of a run. -/
structure Summary where
  total : Nat
  passed : Nat
  aborted : Bool
  duration : Duration
deriving DecidableEq, Repr

/-- One message to a reporter. -/
inductive ReportEvent where
  | collected (count : Nat)
  | caseStarted (case : Case) (salt : Salt)
  | casePassed (case : Case) (duration : Duration)
  | caseFailed (failure : CaseFailure)
  | completed (summary : Summary)
deriving DecidableEq, Repr

/-- A failure in one line, without the captured output. -/
def CaseFailure.describe (f : CaseFailure) : String :=
  match f.failure with
  | .missingResult =>
    "No result code reported (expected " ++ toString f.case.expected.toInt ++
      ") while testing log " ++ f.case.log
  | .resultMismatch expected actual =>
    "Wrong result " ++ toString actual.toInt ++ " (expected " ++ toString expected.toInt ++
      ") while testing log " ++ f.case.log
  | .proofMismatch expected actual =>
    "Wrong result code '" ++ actual.getD "<none>" ++ "' (expected '" ++ expected.hex ++
      "') while testing log " ++ f.case.log
  | .invoke error => "Checker error while testing log " ++ f.case.log ++ ": " ++ error.message

end CheckerAudit
