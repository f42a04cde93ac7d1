import CheckerAudit.Report.Event
import CheckerAudit.Report.Json

/-!
Progress for a program: one JSON object per event, each on a line of its own. The members of every
object stand in the byte order of their keys.
-/
namespace CheckerAudit.Report.Stream

/-- Milliseconds in a 64-bit word. -/
def millis (d : Duration) : Json :=
  .integer (d.millis % 18446744073709551616 : Nat)

/-- What a failure's kind adds to it. -/
def details : Failure → Json
  | .missingResult => .object []
  | .resultMismatch expected actual =>
    .object [("actual", .integer actual.toInt), ("expected", .integer expected.toInt)]
  | .proofMismatch expected actual =>
    .object [("actual", .ofString? actual), ("expected", .string expected.hex)]
  | .invoke error => .object [("error", .string error.message)]

/-- The object of an event. -/
def ofEvent : ReportEvent → Json
  | .collected count => .object [("event", .string "collected"), ("total", .integer count)]
  | .caseStarted case salt =>
    .object
      [("event", .string "case_started"), ("log", .string case.log),
        ("salt", .integer salt.toNat), ("task", .string case.task)]
  | .casePassed case duration =>
    .object
      [("duration_ms", millis duration), ("event", .string "case_passed"),
        ("log", .string case.log), ("task", .string case.task)]
  | .caseFailed f =>
    .object
      [("details", details f.failure), ("event", .string "case_failed"),
        ("exit_code", .ofInt? (f.exitCode.map (·.toInt))), ("kind", .string f.failure.kind.name),
        ("line", .integer f.case.line), ("log", .string f.case.log),
        ("message", .string f.describe), ("salt", .integer f.salt.toNat),
        ("stderr", .ofString? (f.output.map (·.stderr))),
        ("stdout", .ofString? (f.output.map (·.stdout))), ("task", .string f.case.task)]
  | .completed s =>
    .object
      [("duration_ms", millis s.duration), ("event", .string "run_complete"),
        ("passed", .integer s.passed),
        ("status", .string (if s.aborted then "aborted" else "all_passed")),
        ("total", .integer s.total)]

/-- The line of an event. -/
def line (event : ReportEvent) : String :=
  (ofEvent event).text ++ "\n"

end CheckerAudit.Report.Stream
