import CheckerAudit.Plan
import CheckerAudit.Report.Event
import CheckerAudit.Verdict

/-!
The verification loop. For each case in order a fresh salt is drawn, the checker is launched, and
its outcome is judged; the first case that fails ends the run. Checker and salt source are any
machines with a state, which they keep from one run to the next, as a runner keeps the states of
its cases.
-/
namespace CheckerAudit

/-- Something that answers invocations and may change with each. -/
structure Checker (γ : Type) where
  invoke : γ → Invocation → Traced (Except InvokeError Outcome) × γ

/-- Something that hands out one salt after the other. -/
structure SaltSource (σ : Type) where
  next : σ → Salt × σ

/-- The life of a case. -/
inductive CaseState where
  | pending
  | running
  | passed
  | failed
deriving DecidableEq, Repr

/-- How a run ended. -/
inductive RunOutcome where
  | allPassed (passed : Nat)
  | aborted (passed : Nat) (failure : CaseFailure)
deriving DecidableEq, Repr

namespace RunOutcome

/-- Whether every case passed. -/
def isSuccess : RunOutcome → Bool
  | allPassed _ => true
  | aborted .. => false

/-- How many cases passed. -/
def passed : RunOutcome → Nat
  | allPassed passed | aborted passed _ => passed

/-- The case that ended the run. -/
def failure? : RunOutcome → Option CaseFailure
  | allPassed _ => none
  | aborted _ failure => some failure

variable (count : Nat) (failure : CaseFailure)

@[simp] theorem isSuccess_allPassed : (allPassed count).isSuccess = true := rfl

@[simp] theorem isSuccess_aborted : (aborted count failure).isSuccess = false := rfl

@[simp] theorem passed_allPassed : (allPassed count).passed = count := rfl

@[simp] theorem passed_aborted : (aborted count failure).passed = count := rfl

@[simp] theorem failure?_allPassed : (allPassed count).failure? = none := rfl

@[simp] theorem failure?_aborted : (aborted count failure).failure? = some failure := rfl

end RunOutcome

/-- What a run does, in order: messages to the reporter, launches, and log events. -/
inductive Activity where
  | report (event : ReportEvent)
  | launch (invocation : Invocation)
  | log (event : TraceEvent)
deriving DecidableEq, Repr

namespace Activity

/-- The message to the reporter, if it is one. -/
def report? : Activity → Option ReportEvent
  | report event => some event
  | _ => none

/-- The launch, if it is one. -/
def launch? : Activity → Option Invocation
  | launch invocation => some invocation
  | _ => none

/-- The log event, if it is one. -/
def log? : Activity → Option TraceEvent
  | log event => some event
  | _ => none

variable (said : ReportEvent) (invocation : Invocation) (logged : TraceEvent)

@[simp] theorem report?_report : (report said).report? = some said := rfl

@[simp] theorem report?_launch : (launch invocation).report? = none := rfl

@[simp] theorem report?_log : (log logged).report? = none := rfl

@[simp] theorem launch?_report : (report said).launch? = none := rfl

@[simp] theorem launch?_launch : (launch invocation).launch? = some invocation := rfl

@[simp] theorem launch?_log : (log logged).launch? = none := rfl

@[simp] theorem log?_report : (report said).log? = none := rfl

@[simp] theorem log?_launch : (launch invocation).log? = none := rfl

@[simp] theorem log?_log : (log logged).log? = some logged := rfl

end Activity

/-- What the clock shows in one run: the time of each case, and of the whole. -/
structure Timing where
  ofCase : Nat → Duration
  total : Duration

/-- The fixed parts of a runner. -/
structure Setup (γ σ : Type) where
  plan : Plan
  checker : Checker γ
  salts : SaltSource σ

/-- The parts of a runner that change. -/
structure Runner (γ σ : Type) where
  checker : γ
  salts : σ
  states : List CaseState

/-- A run, or the rest of one: what was done, how it ended, and the runner afterwards. -/
structure Run (γ σ : Type) where
  activities : List Activity
  outcome : RunOutcome
  runner : Runner γ σ

/-- One executed case. -/
structure CaseRun (γ σ : Type) where
  activities : List Activity
  failure : Option CaseFailure
  runner : Runner γ σ

/-- The failure of a case whose launch gave this answer. -/
def CaseFailure.ofAnswer? (secret : Secret) (c : Case) (salt : Salt) :
    Except InvokeError Outcome → Option CaseFailure
  | .ok outcome =>
    match evaluate secret c salt outcome with
    | .ok () => none
    | .error failure => some ⟨c, salt, failure, some outcome.output, outcome.exitCode⟩
  | .error error => some ⟨c, salt, .invoke error, error.captured, none⟩

namespace Setup

variable {γ σ : Type}

/-- A runner before its first run. -/
def start (s : Setup γ σ) (checker : γ) (salts : σ) : Runner γ σ :=
  ⟨checker, salts, List.replicate s.plan.cases.length .pending⟩

/-- Executes the case at an index. -/
def runCase (s : Setup γ σ) (time : Duration) (index : Nat) (c : Case) (r : Runner γ σ) :
    CaseRun γ σ :=
  let (salt, salts) := s.salts.next r.salts
  let states := r.states.set index .running
  let invocation := s.plan.invocation c salt
  let (answer, checker) := s.checker.invoke r.checker invocation
  let begun : List Activity :=
    .report (.caseStarted c salt) :: .launch invocation :: answer.trace.map .log
  match CaseFailure.ofAnswer? s.plan.secret c salt answer.value with
  | none =>
    { activities :=
        begun ++ [.log (.casePassed c.task c.line), .report (.casePassed c time)]
      failure := none
      runner := ⟨checker, salts, states.set index .passed⟩ }
  | some failure =>
    { activities :=
        begun ++
          [.log (.caseFailed c.task c.line failure.failure.kind failure.exitCode),
            .report (.caseFailed failure)]
      failure := some failure
      runner := ⟨checker, salts, states.set index .failed⟩ }

/-- Executes the cases from an index on; as many as the index have passed. -/
def runFrom (s : Setup γ σ) (timing : Timing) (index : Nat) : List Case → Runner γ σ → Run γ σ
  | [], r => ⟨[], .allPassed index, r⟩
  | c :: rest, r =>
    let now := s.runCase (timing.ofCase index) index c r
    match now.failure with
    | some failure => ⟨now.activities, .aborted index failure, now.runner⟩
    | none =>
      let later := runFrom s timing (index + 1) rest now.runner
      { later with activities := now.activities ++ later.activities }

/-- One run over the whole plan. -/
def run (s : Setup γ σ) (timing : Timing) (r : Runner γ σ) : Run γ σ :=
  let total := s.plan.cases.length
  let body := s.runFrom timing 0 s.plan.cases r
  let summary : Summary :=
    ⟨total, body.outcome.passed, !body.outcome.isSuccess, timing.total⟩
  { body with
    activities :=
      .report (.collected total) :: (body.activities ++ [.report (.completed summary)]) }

/-- Runs one after the other on the same runner, each with its own clock. -/
def runs (s : Setup γ σ) : List Timing → Runner γ σ → List (Run γ σ)
  | [], _ => []
  | timing :: rest, r =>
    let now := s.run timing r
    now :: runs s rest now.runner

end Setup

namespace Run

variable {γ σ : Type}

/-- All messages to the reporter. -/
def reports (r : Run γ σ) : List ReportEvent :=
  r.activities.filterMap Activity.report?

/-- All launches. -/
def launches (r : Run γ σ) : List Invocation :=
  r.activities.filterMap Activity.launch?

/-- All log events. -/
def trace (r : Run γ σ) : List TraceEvent :=
  r.activities.filterMap Activity.log?

end Run

end CheckerAudit
