import CheckerAudit.Duration
import CheckerAudit.Salt.Basic

/-!
One launch of a checker: what it is given, what it reports, and why it may report nothing.
-/
namespace CheckerAudit

/-- The arguments of one launch, in the order of the checker's command line. -/
structure Invocation where
  config : String
  task : String
  salt : Salt
  log : String
deriving DecidableEq, Repr

/-- The arguments as a program gets them. -/
def Invocation.arguments (i : Invocation) : List String :=
  [i.config, i.task, i.salt.text, i.log]

/-- Text captured from a checker; the lines of its standard output are trimmed. -/
structure Captured where
  stdout : String := ""
  stderr : String := ""
deriving DecidableEq, Repr

/-- What a launch reported. The exit code is for information, the verdict is in the output. -/
structure Outcome where
  result : Option Int64 := none
  proof : Option String := none
  output : Captured := {}
  exitCode : Option Int32 := none
deriving DecidableEq, Repr

/-- How long a checker may run: until it exits and closes its streams, or for some time. -/
inductive WaitPolicy where
  | unbounded
  | limit (time : Duration)
deriving DecidableEq, Repr

/-- Why a launch gave no outcome. -/
inductive InvokeError where
  | spawn (checker cause : String)
  | wait (cause : String)
  | timedOut (limit : Duration) (output : Captured)
  | malformedResult (value : String) (output : Captured)
deriving DecidableEq, Repr

namespace InvokeError

/-- What is said about a launch without an outcome. -/
def message : InvokeError → String
  | spawn checker cause => "failed to launch checker '" ++ checker ++ "': " ++ cause
  | wait cause => "failed while waiting for checker: " ++ cause
  | timedOut limit _ =>
    "checker did not finish within " ++ limit.toBinary64.text ++ "s and was killed"
  | malformedResult value _ => "checker printed a non-integer result code '" ++ value ++ "'"

/-- The output captured before the error, if the checker got that far. -/
def captured : InvokeError → Option Captured
  | timedOut _ output | malformedResult _ output => some output
  | spawn .. | wait _ => none

end InvokeError

end CheckerAudit
