import CheckerAudit.CommandLine.Help
import CheckerAudit.CommandLine.Parse
import CheckerAudit.Suite

/-!
Carrying out a command line: what is printed, what is logged, and the exit status, 2 for a command
line that is refused, 1 for a run that fails or cannot start, 101 for one that breaks off.
-/
namespace CheckerAudit.CommandLine

/-- What the program leaves behind. The log goes to standard error too, before the rest of it: each
shown event is a line there, with the time and the place in the program, which are left out here. -/
structure Exit where
  stdout : String := ""
  stderr : String := ""
  status : Nat := 0
  log : List TraceEvent := []
deriving DecidableEq, Repr

/-- The exit with an error that keeps a command from starting. -/
def Exit.ofLoadError (log : List TraceEvent) (e : LoadError) : Exit :=
  { stderr := (Diagnostic.ofLoadError e).report ++ "\n", status := 1, log }

/-- What is said when a launch breaks off. The place in the program, before it, and the hint behind
it are left out here. -/
def clockOverflow : String :=
  "overflow when adding duration to instant"

/-- Runs the suite, with the reporter's texts on standard output. -/
def runSuite (host : Host) (options : RunOptions) : Exit :=
  let ran := Suite.run host options
  let log := host.startEvent :: ran.trace
  match ran.value with
  | .error e => .ofLoadError log e
  | .ok went =>
    let reports := went.activities.filterMap Activity.report?
    let stdout := String.join (reports.map (Suite.reporter options).text)
    match went.outcome? with
    | some outcome => { stdout, status := if outcome.isSuccess then 0 else 1, log }
    | none => { stdout, stderr := clockOverflow ++ "\n", status := 101, log }

/-- A number in at least `width` columns. -/
def column (width n : Nat) : String :=
  let digits := toString n
  String.ofList (List.replicate (width - digits.length) ' ') ++ digits

/-- A case as a row of a listing. -/
def caseRow (c : Case) : String :=
  "  line " ++ column 4 c.line ++ ": " ++ c.task ++ " expects " ++ toString c.expected.toInt ++
    " on " ++ c.log ++ "\n"

/-- Lists the cases of a catalog. -/
def listCatalog (host : Host) (catalog : String) : Exit :=
  let loaded := Catalog.load host.files catalog
  match loaded.value with
  | .error e => .ofLoadError loaded.trace (.catalog e)
  | .ok cases =>
    { stdout :=
        toString cases.length ++ " case(s) in " ++ catalog ++ "\n" ++
          String.join (cases.map caseRow)
      log := loaded.trace }

/-- Prints the proof code of a verdict. -/
def printProof (secret task : String) (salt : UInt32) (result : Int64) : Exit :=
  match Salt.ofWord? salt with
  | none =>
    { stderr :=
        "Error: salt must be between " ++ toString Salt.least.toNat ++ " and " ++
          toString Salt.greatest.toNat ++ "\n"
      status := 1 }
  | some salt => { stdout := (ProofCode.derive secret task salt result).hex ++ "\n" }

/-- Carries out what a command line asks for. -/
def perform (host : Host) : Action → Exit
  | .run _ values => runSuite host (values.runOptions host.terminal)
  | .list catalog => listCatalog host catalog
  | .proof secret task salt result => printProof secret task salt result

/-- The version line. -/
def versionText : String :=
  Command.top.name ++ " " ++ programVersion ++ "\n"

/-- Carries out a command line. -/
def execute (host : Host) (arguments : List String) : Exit :=
  match parse arguments with
  | .ok action => perform host action
  | .error (.help c) => { stdout := Help.text c }
  | .error .version => { stdout := versionText }
  | .error (.error e) => { stderr := e.message .stream ++ "\n", status := 2 }

end CheckerAudit.CommandLine
