import CheckerAudit.Process
import CheckerAudit.Report.Console
import CheckerAudit.Report.Stream
import CheckerAudit.Run
import CheckerAudit.Salt.Draw

/-!
A run as the options describe it: the plan is loaded from the files, and each case is put to the
checker program with a random salt.
-/
namespace CheckerAudit

/-- How the progress of a run is reported. -/
inductive OutputFormat where
  | console
  | json
deriving DecidableEq, Repr

/-- What a run needs to know, each field with the value it has when it is not given. -/
structure RunOptions where
  config : String := "default.cfg"
  catalog : String := "tests.csv"
  checker : String := "./ursulalogchecktester"
  wait : WaitPolicy := .unbounded
  format : OutputFormat := .console
  verbose : Bool := false
  color : Bool := false
deriving DecidableEq, Repr

/-- Who the progress of a run is reported to. -/
inductive Reporter where
  | console (style : Report.Console)
  | stream
deriving DecidableEq, Repr

/-- The text that an event makes a reporter write. -/
def Reporter.text : Reporter → ReportEvent → String
  | console style, event => style.text event
  | stream, event => Report.Stream.line event

/-- What a run needs of the machine it happens on. Random words after the given ones are zero, and
the clock is read before each launch. -/
structure Host where
  files : Files
  launch : Launcher
  words : List UInt32
  timing : Timing
  terminal : Bool := false
  directory : Except FileError String := .ok "/"
  clock : Nat → Instant := fun _ => .zero

/-- What is logged about a run before anything else. -/
def Host.startEvent (host : Host) : TraceEvent :=
  match host.directory with
  | .ok directory => .startingRun directory
  | .error e => .noCurrentDirectory e.message

/-- A program as a checker without a state of its own. -/
def ProcessChecker.checker (p : ProcessChecker) (launch : Launcher) : Checker Unit where
  invoke _ invocation := (p.invoke launch invocation, ())

/-- Random salts. The state is what is left of the random words. -/
def SaltSource.random : SaltSource (List UInt32) where
  next := Salt.draw

namespace Suite

/-- The runner for a plan. -/
def setup (host : Host) (options : RunOptions) (plan : Plan) : Setup Unit (List UInt32) where
  plan := plan
  checker := ProcessChecker.checker ⟨options.checker, options.wait⟩ host.launch
  salts := .random

/-- How a run went: what was done, and how it ended unless a launch broke off. -/
structure Course where
  activities : List Activity
  outcome? : Option RunOutcome
deriving DecidableEq, Repr

/-- What is done up to the first launch that breaks off, if one does. Launches are counted from
`number` on; of the one that breaks off there is the launch and what is logged about it. -/
def untilBreak? (breaks : Nat → Invocation → Bool) (announce : Invocation → TraceEvent)
    (number : Nat) : List Activity → Option (List Activity)
  | [] => none
  | .launch i :: rest =>
    if breaks number i then some [.launch i, .log (announce i)]
    else (untilBreak? breaks announce (number + 1) rest).map (.launch i :: ·)
  | activity :: rest => (untilBreak? breaks announce number rest).map (activity :: ·)

/-- What a run on this host does up to the first launch that breaks off, if one does. -/
def broken? (host : Host) (options : RunOptions) (activities : List Activity) :
    Option (List Activity) :=
  let checker : ProcessChecker := ⟨options.checker, options.wait⟩
  untilBreak? (fun number => checker.breaksOff host.launch (host.clock number))
    checker.announcement 0 activities

/-- The course of a run whose launches can break off. -/
def course (host : Host) (options : RunOptions) (done : Run Unit (List UInt32)) : Course :=
  match broken? host options done.activities with
  | some activities => ⟨activities, none⟩
  | none => ⟨done.activities, some done.outcome⟩

/-- Loads the plan and runs it. When there is no plan nothing is run. -/
def run (host : Host) (options : RunOptions) : Traced (Except LoadError Course) :=
  let loaded := Plan.load host.files options.config options.catalog
  match loaded.value with
  | .error e => ⟨loaded.trace, .error e⟩
  | .ok plan =>
    let s := setup host options plan
    let went := course host options (s.run host.timing (s.start () host.words))
    ⟨loaded.trace ++ went.activities.filterMap Activity.log?, .ok went⟩

/-- The reporter that the options ask for. -/
def reporter (options : RunOptions) : Reporter :=
  match options.format with
  | .console => .console ⟨options.verbose, options.color⟩
  | .json => .stream

end Suite

end CheckerAudit
