import CheckerAudit.Process
import CheckerAudit.Plan

/-!
A stand-in for a checker. It keeps the command line and the output rules of a real one, but takes
its verdict from the log instead of finding it: log records tell it what to report and how to
misbehave.
-/
namespace CheckerAudit

/-- What a program did by the time it ended, and how long it was silent before that. -/
structure Completion where
  stdout : String := ""
  stderr : String := ""
  status : Option Int32 := some 0
  delay : Duration := .zero
deriving DecidableEq, Repr

/-- A program that writes and exits after its delay. One that is silent up to its limit is killed
before it writes anything. -/
def Completion.events (c : Completion) (wait : WaitPolicy) : List ProcessEvent :=
  let closing : List ProcessEvent := [.closed .stdout, .closed .stderr]
  let finished : List ProcessEvent :=
    .chunk .stdout (Text.Utf8.encode c.stdout.toList) ::
      .chunk .stderr (Text.Utf8.encode c.stderr.toList) :: closing ++ [.exited c.status]
  match wait with
  | .unbounded => finished
  | .limit time => if time.toNanos ≤ c.delay.toNanos then .deadline :: closing else finished

namespace StubChecker

/-- What the log asks for. -/
structure Script where
  verdict : Option Int64 := none
  tamper : Bool := false
  silent : Bool := false
  garbled : Bool := false
  sleepMillis : Option Nat := none
  noise : Nat := 0
deriving DecidableEq, Repr

/-- Why a log is no script. -/
inductive ScriptError where
  | unreadable (path : String) (cause : FileError)
  | malformed (path : String) (cause : Record.Fault)
  | badVerdict (value : String)
  | badSleep (value : String)
  | badNoise (value : String)
deriving DecidableEq, Repr

/-- What is said about a log that is no script. -/
def ScriptError.message : ScriptError → String
  | unreadable path cause => "cannot read log '" ++ path ++ "': " ++ cause.message
  | malformed path _ => "cannot parse log '" ++ path ++ "'"
  | badVerdict value => "bad verdict '" ++ value ++ "'"
  | badSleep value => "bad sleep '" ++ value ++ "'"
  | badNoise value => "bad noise '" ++ value ++ "'"

/-- A count with the white space around it. -/
def readCount? (text : String) : Option Nat :=
  match Numeral.read Numeral.unsigned64 (Text.trimChars text.toList) with
  | .ok n => some n.toNat
  | .error _ => none

/-- The record that sets the verdict. -/
def verdictKey : String := "verdict"

/-- Follows one record; the first verdict stands. -/
def Script.follow (s : Script) (r : Record) : Except ScriptError Script :=
  match r.fields with
  | [word] =>
    if word = "tamper" then .ok { s with tamper := true }
    else if word = "silent" then .ok { s with silent := true }
    else if word = "garbled" then .ok { s with garbled := true }
    else .ok s
  | [key, value] =>
    if key = verdictKey ∧ s.verdict = none then
      match Numeral.readInt64 (Text.trim value) with
      | .ok n => .ok { s with verdict := some n }
      | .error _ => .error (.badVerdict value)
    else if key = "sleep" then
      match readCount? value with
      | some n => .ok { s with sleepMillis := some n }
      | none => .error (.badSleep value)
    else if key = "noise" then
      match readCount? value with
      | some n => .ok { s with noise := n }
      | none => .error (.badNoise value)
    else .ok s
  | _ => .ok s

/-- Follows records in order, up to the first that is bad. -/
def Script.ofRecords (s : Script) : List Record → Except ScriptError Script
  | [] => .ok s
  | r :: rest =>
    match s.follow r with
    | .ok next => Script.ofRecords next rest
    | .error e => .error e

/-- The script in a log. -/
def Script.load (files : Files) (path : String) : Except ScriptError Script :=
  match files.readText path with
  | .error cause => .error (.unreadable path cause)
  | .ok source =>
    match Record.read source with
    | .error fault => .error (.malformed path fault)
    | .ok records => Script.ofRecords {} records

/-- A text of lines, each with its end. -/
def printed (lines : List String) : String :=
  .ofList (Text.joinLines (lines.map String.toList))

/-- What signs a proof that is meant to be refused. -/
def wrongSecret : String := "not-the-secret"

/-- The line that reports a result. -/
def resultLine (value : String) : String :=
  Marker.resultCode.spelling ++ " " ++ value

/-- The line that reports a proof. -/
def proofLine (code : ProofCode) : String :=
  Marker.proofCode.spelling ++ " " ++ code.hex

/-- The report on a task: a verdict and its proof, unless the script wants something else. -/
def Script.report (s : Script) (secret : Secret) (task : String) (salt : Salt) : List String :=
  if s.silent then ["Checking completed!"]
  else if s.garbled then [resultLine "many"]
  else
    let result := s.verdict.getD 0
    let signing := if s.tamper then wrongSecret else secret.value
    ["Checking completed!", resultLine (toString result.toInt),
      proofLine (ProofCode.derive signing task salt result)]

/-- A script carried out: the noise on both streams, then the report. -/
def Script.perform (s : Script) (secret : Secret) (task : String) (salt : Salt) : Completion where
  stdout :=
    printed ((List.range s.noise).map (fun i => "processing event " ++ toString i) ++
      s.report secret task salt)
  stderr := printed ((List.range s.noise).map fun i => "debug: event " ++ toString i)
  delay := .ofMillis (s.sleepMillis.getD 0)

/-- A refusal: a zero result, the reason, and an exit code. -/
def refusal (reason : String) (status : Int32) : Completion where
  stdout := printed [resultLine "0"]
  stderr := printed ["Program checking error: " ++ reason]
  status := some status

/-- How the program is called, by the name that it was started under. -/
def usage (name? : Option String) : String :=
  "Usage: " ++ name?.getD "logcheck-stub-checker" ++ " <config-file> <task-id> <salt> <log-file>"

/-- The salt in an argument. -/
def readSalt? (text : String) : Option Salt :=
  match Numeral.read Numeral.unsigned32 text.toList with
  | .ok n => Salt.ofWord? (UInt32.ofNat n.toNat)
  | .error _ => none

/-- Runs on the words of its command line: its name, config, task, salt and log. -/
def run (files : Files) : List String → Completion
  | [_, config, task, salt, log] =>
    match (Secret.load files config).value with
    | .error e =>
      { stderr := printed ["Cannot initialize checker: " ++ (Diagnostic.ofConfigError e).message]
        status := some 1 }
    | .ok secret =>
      match readSalt? salt with
      | none => refusal ("bad salt '" ++ salt ++ "'") 99
      | some challenge =>
        match Script.load files log with
        | .error e => refusal e.message 2
        | .ok script => script.perform secret task challenge
  | words => { stderr := printed [usage words.head?, ""], status := some 99 }

end StubChecker

end CheckerAudit
