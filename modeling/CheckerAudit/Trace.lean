import CheckerAudit.Failure

/-!
The diagnostic log: one event per noteworthy step, and its text.
-/
namespace CheckerAudit

/-- How much an event matters. -/
inductive Level where
  | debug
  | info
  | warn
deriving DecidableEq, Repr

/-- The word for a level. -/
def Level.name : Level → String
  | debug => "DEBUG"
  | info => "INFO"
  | warn => "WARN"

/-- A step worth a line in the log. -/
inductive TraceEvent where
  | startingRun (directory : String)
  | noCurrentDirectory (error : String)
  | skippedConfigRecord (line fields : Nat)
  | skippedCatalogRecord (line fields : Nat)
  | loadedPlan (config catalog : String) (cases : Nat)
  | invokingChecker (checker task : String) (salt : Salt) (log : String)
  | casePassed (task : String) (line : Nat)
  | caseFailed (task : String) (line : Nat) (kind : FailureKind) (exitCode : Option Int32)
  | checkerTimedOut (task : String) (limit : Duration)
  | outputAbandoned (task : String) (limit : Duration)
deriving DecidableEq, Repr

namespace TraceEvent

/-- What concerns the whole run is for everyone to see, and so is a checker out of time. -/
def level : TraceEvent → Level
  | startingRun _ | loadedPlan .. => .info
  | noCurrentDirectory _ | checkerTimedOut .. | outputAbandoned .. => .warn
  | skippedConfigRecord .. | skippedCatalogRecord .. | invokingChecker .. | casePassed ..
  | caseFailed .. => .debug

/-- Whether an event is shown when nobody asks for more. -/
def isShown (e : TraceEvent) : Bool :=
  e.level ≠ .debug

/-- An exit code that may be missing. -/
def exitCodeText : Option Int32 → String
  | none => "None"
  | some code => "Some(" ++ toString code.toInt ++ ")"

/-- The message and the fields of an event. -/
def sentence : TraceEvent → String
  | startingRun directory => "starting run cwd=" ++ directory
  | noCurrentDirectory error => "cannot determine current directory error=" ++ error
  | skippedConfigRecord line fields =>
    "skipping config record line=" ++ toString line ++ " fields=" ++ toString fields
  | skippedCatalogRecord line fields =>
    "skipping catalog record line=" ++ toString line ++ " fields=" ++ toString fields
  | loadedPlan config catalog cases =>
    "loaded run plan config=" ++ config ++ " catalog=" ++ catalog ++ " cases=" ++ toString cases
  | invokingChecker checker task salt log =>
    "invoking checker checker=" ++ checker ++ " task=" ++ task ++ " salt=" ++ salt.text ++
      " log=" ++ log
  | casePassed task line => "case passed task=" ++ task ++ " line=" ++ toString line
  | caseFailed task line kind exitCode =>
    "case failed task=" ++ task ++ " line=" ++ toString line ++ " kind=" ++ kind.name ++
      " exit_code=" ++ exitCodeText exitCode
  | checkerTimedOut task limit =>
    "checker timed out task=" ++ task ++ " timeout=" ++ limit.unitText
  | outputAbandoned task limit =>
    "checker output still open at deadline, abandoning it task=" ++ task ++ " timeout=" ++
      limit.unitText

/-- The line of an event, from its level on. -/
def text (e : TraceEvent) : String :=
  e.level.name ++ " " ++ e.sentence

end TraceEvent

/-- A value and the events logged on the way to it. -/
structure Traced (α : Type) where
  trace : List TraceEvent
  value : α
deriving Repr

end CheckerAudit
