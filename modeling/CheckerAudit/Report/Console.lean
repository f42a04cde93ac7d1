import CheckerAudit.Report.Event

/-!
Progress and diagnostics for a person at a console.
-/
namespace CheckerAudit.Report

/-- How a console is written to: with timings and catalog lines, and with colours. -/
structure Console where
  verbose : Bool := false
  color : Bool := false
deriving DecidableEq, Repr

namespace Console

/-- Wraps a text in a colour, if there are colours. -/
def paint (c : Console) (code text : String) : String :=
  if c.color then "\x1b[" ++ code ++ "m" ++ text ++ "\x1b[0m" else text

/-- Text that only a verbose console shows. -/
def detail (c : Console) (text : String) : String :=
  if c.verbose then text else ""

/-- A failed case: what failed, the exit code if there is one, and the captured output. -/
def failureText (c : Console) (f : CaseFailure) : String :=
  c.paint "31" f.describe ++ "\n" ++
    c.detail ("  (catalog line " ++ toString f.case.line ++ ", salt " ++ f.salt.text ++ ")\n") ++
    (match f.exitCode with
      | none => ""
      | some code => "Exit code: " ++ toString code.toInt ++ "\n") ++
    match f.output with
    | none => ""
    | some output => "Errors:\n" ++ output.stderr ++ "\n\nOutput:\n" ++ output.stdout ++ "\n\n"

/-- What an event makes the console show. -/
def text (c : Console) : ReportEvent → String
  | .collected count => "Testing (total " ++ toString count ++ "):\n"
  | .caseStarted case salt =>
    "Running checker " ++ case.task ++ " " ++ case.log ++ " with salt " ++ salt.text ++ "... "
  | .casePassed _ duration =>
    c.paint "32" "OK" ++ c.detail (" (" ++ toString duration.millis ++ "ms)") ++ "\n"
  | .caseFailed failure => c.failureText failure
  | .completed s =>
    (if s.aborted then "" else "Done!\n") ++
      c.detail (toString s.passed ++ " of " ++ toString s.total ++ " passed in " ++
        s.duration.toBinary64.fixed 2 ++ "s\n")

end Console

end CheckerAudit.Report
