import CheckerAudit.FileTree
import CheckerAudit.Process.Schedule
import CheckerAudit.StubChecker

/-!
The stand-in from outside: what the records of a log tell it, which logs leave it honest, and what
it is to start it as a process.
-/
namespace CheckerAudit.StubChecker

/-- The records of a log; none when it has no text. -/
def logRecords (files : Files) (path : String) : List Record :=
  match files.readText path with
  | .error _ => []
  | .ok source => (Record.read source).toOption.getD []

/-- The text of a verdict, when a record tells one. -/
def verdictText? (r : Record) : Option String :=
  match r.fields with
  | [key, value] => if key = verdictKey then some value else none
  | _ => none

/-- The verdict of the first record that tells one, and 0 without such a record. -/
def toldVerdict (records : List Record) : Int64 :=
  match records.findSome? verdictText? with
  | none => 0
  | some text => (Numeral.readInt64 (Text.trim text)).toOption.getD 0

/-- The verdict that a case's log tells. -/
def told (files : Files) (c : Case) : Int64 :=
  toldVerdict (logRecords files c.log)

/-- One of some records is this word alone. -/
def hasWord (word : String) (records : List Record) : Bool :=
  records.any fun r => r.fields = [word]

/-- A log that the stand-in can follow and that asks for no misbehaviour. -/
structure HonestLog (files : Files) (path : String) : Prop where
  isScript : ∃ script, Script.load files path = .ok script
  honest : ∀ word ∈ ["tamper", "silent", "garbled"], hasWord word (logRecords files path) = false

/-- The stand-in as a file that can be executed. -/
def program : Program := fun files words wait =>
  (run files words).events wait

/-- A launcher starts the stand-in under a name: for all arguments that a process can have, what it
writes about these files arrives in some schedule, and it closes its output and exits. -/
def StartedBy (launch : Launcher) (name : String) (files : Files) : Prop :=
  ∀ arguments : List String, (∀ a ∈ arguments, FileTree.holdsNul a = false) →
    ∃ events, launch ⟨name, arguments⟩ .unbounded = .ok events ∧
      let done := run files (name :: arguments)
      Completes (Text.Utf8.encode done.stdout.toList) (Text.Utf8.encode done.stderr.toList)
        done.status events

/-- A plan for the stand-in: the launcher starts it on the files that the plan's secret comes from,
each case can be given to it as arguments, and each log leaves it honest. -/
structure Prepared (launch : Launcher) (name : String) (files : Files) (plan : Plan) : Prop where
  started : StartedBy launch name files
  secret : (Secret.load files plan.config).value = .ok plan.secret
  config : FileTree.holdsNul plan.config = false
  arguments : ∀ c ∈ plan.cases, FileTree.holdsNul c.task = false ∧ FileTree.holdsNul c.log = false
  logs : ∀ c ∈ plan.cases, HonestLog files c.log

end CheckerAudit.StubChecker
