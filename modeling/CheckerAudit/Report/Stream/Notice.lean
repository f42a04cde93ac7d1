import CheckerAudit.Report.Json.Reader
import CheckerAudit.Report.Stream
import CheckerAudit.Text.Utf8

/-!
What a line of the event stream tells. Its reader knows which members each event has, and refuses an
object with fewer members, with more, or with others.
-/
namespace CheckerAudit

/-- The kind of a name. -/
def FailureKind.ofName? (name : String) : Option FailureKind :=
  [missingResult, resultMismatch, proofMismatch, timedOut, malformedResult, invokeError].find?
    (·.name = name)

namespace Report

namespace Json

/-- The values of an object that has just these keys. -/
def values? (keys : List String) : Json → Option (List Json)
  | object members => if members.map Prod.fst = keys then some (members.map Prod.snd) else none
  | _ => none

def member? (key : String) : Json → Option Json
  | object members => members.lookup key
  | _ => none

def string? : Json → Option String
  | string s => some s
  | _ => none

def integer? : Json → Option Int
  | integer n => some n
  | _ => none

def natural? : Json → Option Nat
  | integer (.ofNat n) => some n
  | _ => none

/-- What a value is when it is not null. -/
def nullable? {α : Type} (read : Json → Option α) : Json → Option (Option α)
  | null => some none
  | j => (read j).map some

end Json

/-- What the kind of a failure adds to it. -/
inductive Detail where
  | nothing
  | results (expected actual : Int)
  | codes (expected : String) (actual : Option String)
  | error (message : String)
deriving DecidableEq, Repr

namespace Detail

def ofFailure : Failure → Detail
  | .missingResult => nothing
  | .resultMismatch expected actual => results expected.toInt actual.toInt
  | .proofMismatch expected actual => codes expected.hex actual
  | .invoke e => error e.message

/-- Reads the detail of a failure, whose members depend on its kind. -/
def ofJson? (kind : FailureKind) (j : Json) : Option Detail :=
  match kind with
  | .missingResult => do
    let [] ← j.values? [] | none
    return nothing
  | .resultMismatch => do
    let [actual, expected] ← j.values? ["actual", "expected"] | none
    return results (← expected.integer?) (← actual.integer?)
  | .proofMismatch => do
    let [actual, expected] ← j.values? ["actual", "expected"] | none
    return codes (← expected.string?) (← actual.nullable? Json.string?)
  | .timedOut | .malformedResult | .invokeError => do
    let [message] ← j.values? ["error"] | none
    return error (← message.string?)

end Detail

/-- What is told of an event. Of a case these are task and log path, and the line where it fails; a
duration is in milliseconds of a 64-bit word. -/
inductive Notice where
  | collected (total : Nat)
  | caseStarted (task log : String) (salt : Nat)
  | casePassed (task log : String) (millis : Nat)
  | caseFailed (task log : String) (line salt : Nat) (kind : FailureKind) (detail : Detail)
    (exitCode : Option Int) (message : String) (stdout stderr : Option String)
  | completed (total passed : Nat) (aborted : Bool) (millis : Nat)
deriving DecidableEq, Repr

namespace Notice

/-- The milliseconds that a 64-bit word holds. -/
def wordMillis (d : Duration) : Nat :=
  d.toNanos / 1000000 % 18446744073709551616

def ofEvent : ReportEvent → Notice
  | .collected count => collected count
  | .caseStarted c salt => caseStarted c.task c.log salt.toNat
  | .casePassed c duration => casePassed c.task c.log (wordMillis duration)
  | .caseFailed f =>
    caseFailed f.case.task f.case.log f.case.line f.salt.toNat f.failure.kind
      (.ofFailure f.failure) (f.exitCode.map (·.toInt)) f.describe (f.output.map (·.stdout))
      (f.output.map (·.stderr))
  | .completed s => completed s.total s.passed s.aborted (wordMillis s.duration)

def aborted? (status : String) : Option Bool :=
  if status = "aborted" then some true else if status = "all_passed" then some false else none

/-- Reads an object, whose event says which other members it has. -/
def ofJson? (j : Json) : Option Notice := do
  match ← (← j.member? "event").string? with
  | "collected" =>
    let [_, total] ← j.values? ["event", "total"] | none
    return collected (← total.natural?)
  | "case_started" =>
    let [_, log, salt, task] ← j.values? ["event", "log", "salt", "task"] | none
    return caseStarted (← task.string?) (← log.string?) (← salt.natural?)
  | "case_passed" =>
    let [millis, _, log, task] ← j.values? ["duration_ms", "event", "log", "task"] | none
    return casePassed (← task.string?) (← log.string?) (← millis.natural?)
  | "case_failed" =>
    let [details, _, exitCode, kind, line, log, message, salt, stderr, stdout, task] ←
      j.values? ["details", "event", "exit_code", "kind", "line", "log", "message", "salt",
        "stderr", "stdout", "task"] | none
    let kind ← FailureKind.ofName? (← kind.string?)
    return caseFailed (← task.string?) (← log.string?) (← line.natural?) (← salt.natural?) kind
      (← Detail.ofJson? kind details) (← exitCode.nullable? Json.integer?) (← message.string?)
      (← stdout.nullable? Json.string?) (← stderr.nullable? Json.string?)
  | "run_complete" =>
    let [millis, _, passed, status, total] ←
      j.values? ["duration_ms", "event", "passed", "status", "total"] | none
    return completed (← total.natural?) (← passed.natural?) (← aborted? (← status.string?))
      (← millis.natural?)
  | _ => none

/-- Reads the bytes of a line, without its line feed. -/
def ofLine? (line : Text.Bytes) : Option Notice := do
  ofJson? (← Json.read? (← Text.Utf8.decode? line))

end Notice

end Report

end CheckerAudit
