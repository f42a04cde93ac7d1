import CheckerAudit.Text.Utf8
import CheckerAudit.Trace
import CheckerAudit.Transcript

/-!
A checker as a child process. What happens to it is a list of events in the order of their arrival:
output chunks, streams that close, the exit, and deadlines that pass. Output is decoded only when
it is complete or given up, so neither the cut into chunks nor the interleaving of the streams
shows. A launch breaks off without any answer when the clock cannot show the end of its limit.
-/
namespace CheckerAudit

/-- The two captured streams of a process. -/
inductive Stream where
  | stdout
  | stderr
deriving DecidableEq, Repr

/-- One thing that happens to a running process. A deadline is the one that is waited for at the
time: first that of the process, and once it is gone that of its output. -/
inductive ProcessEvent where
  | chunk (stream : Stream) (bytes : Text.Bytes)
  | closed (stream : Stream)
  | exited (code : Option Int32)
  | deadline
deriving DecidableEq, Repr

/-- How the wait for a process ended. -/
inductive Ending where
  | exited (code : Option Int32)
  | killed
deriving DecidableEq, Repr

/-- A process that is watched: the bytes so far, which streams are open, and how it ended. -/
structure Watch where
  stdout : Text.Bytes := []
  stderr : Text.Bytes := []
  stdoutOpen : Bool := true
  stderrOpen : Bool := true
  ending : Option Ending := none
deriving DecidableEq, Repr

/-- The gathered output; it is complete when both streams closed in time. -/
structure Gathered where
  stdout : String
  stderr : String
  complete : Bool
deriving DecidableEq, Repr

namespace Watch

/-- Takes in a chunk or the end of a stream. -/
def record (w : Watch) : ProcessEvent → Watch
  | .chunk .stdout bytes => { w with stdout := w.stdout ++ bytes }
  | .chunk .stderr bytes => { w with stderr := w.stderr ++ bytes }
  | .closed .stdout => { w with stdoutOpen := false }
  | .closed .stderr => { w with stderrOpen := false }
  | .exited _ | .deadline => w

/-- The output so far, decoded. -/
def gather (w : Watch) (complete : Bool) : Gathered :=
  { stdout := .ofList (Text.Utf8.decodeLossy w.stdout)
    stderr := .ofList (Text.Utf8.decodeLossy w.stderr)
    complete }

/-- Whether both streams are closed. -/
def allClosed (w : Watch) : Bool :=
  !w.stdoutOpen && !w.stderrOpen

/-- Watches until the process is gone and its output is complete or given up. With no limit a
deadline means nothing. The answer is `none` when the events run out first. -/
def follow (wait : WaitPolicy) (w : Watch) : List ProcessEvent → Option (Ending × Gathered)
  | [] =>
    match w.ending with
    | some ending => if w.allClosed then some (ending, w.gather true) else none
    | none => none
  | event :: rest =>
    match w.ending with
    | some ending =>
      if w.allClosed then some (ending, w.gather true)
      else
        match wait, event with
        | .limit _, .deadline => some (ending, w.gather false)
        | _, _ => follow wait (w.record event) rest
    | none =>
      match wait, event with
      | _, .exited code => follow wait { w with ending := some (.exited code) } rest
      | .limit _, .deadline => follow wait { w with ending := some .killed } rest
      | _, _ => follow wait (w.record event) rest

end Watch

/-- What a watched process amounts to. Under a limit no verdict is read from a process that was
killed or whose output stayed open, even if a result had arrived. -/
def judgeProcess (wait : WaitPolicy) (ending : Ending) (gathered : Gathered) :
    Except InvokeError Outcome :=
  let readAll : Except InvokeError Outcome :=
    match Transcript.read gathered.stdout with
    | .ok t =>
      .ok
        { result := t.result
          proof := t.proof
          output := ⟨t.text, gathered.stderr⟩
          exitCode :=
            match ending with
            | .exited code => code
            | .killed => none }
    | .error m => .error (.malformedResult m.value ⟨m.text, gathered.stderr⟩)
  match wait with
  | .unbounded => readAll
  | .limit time =>
    if ending = .killed || !gathered.complete then
      .error (.timedOut time ⟨Transcript.textOf gathered.stdout, gathered.stderr⟩)
    else readAll

/-- The warning about a process that ran over its limit. -/
def limitEvents (wait : WaitPolicy) (task : String) (ending : Ending) (gathered : Gathered) :
    List TraceEvent :=
  match wait with
  | .unbounded => []
  | .limit time =>
    if !gathered.complete then [.outputAbandoned task time]
    else if ending = .killed then [.checkerTimedOut task time]
    else []

/-- Whether the clock can show when the wait ends for a process that starts at an instant. Without a
limit there is no such end. -/
def WaitPolicy.fits (wait : WaitPolicy) (started : Instant) : Bool :=
  match wait with
  | .unbounded => true
  | .limit time => (started.after? time).isSome

theorem WaitPolicy.fits_eq_false_iff {wait : WaitPolicy} {started : Instant} :
    wait.fits started = false ↔
      ∃ time, wait = .limit time ∧
        Instant.endNanos ≤ started.sinceStart.toNanos + time.toNanos := by
  cases wait with
  | unbounded => simp [fits]
  | limit time => simp [fits, Instant.after?_eq_none_iff]

/-- A program and its arguments. -/
structure Command where
  program : String
  arguments : List String
deriving DecidableEq, Repr

/-- Starts programs: the events of the process, or why there is none. -/
abbrev Launcher := Command → WaitPolicy → Except String (List ProcessEvent)

/-- A checker that is a program, with the time it may take. -/
structure ProcessChecker where
  program : String
  wait : WaitPolicy := .unbounded
deriving DecidableEq, Repr

namespace ProcessChecker

/-- The cause given for a process that is lost before it answers. -/
def lostProcess : String := "No child processes (os error 10)"

/-- What is logged about a launch before it happens. -/
def announcement (checker : ProcessChecker) (i : Invocation) : TraceEvent :=
  .invokingChecker checker.program i.task i.salt i.log

/-- Whether a launch at an instant breaks off: the program starts, and then the end of its limit is
found to lie beyond the clock. -/
def breaksOff (checker : ProcessChecker) (launch : Launcher) (started : Instant)
    (i : Invocation) : Bool :=
  match launch ⟨checker.program, i.arguments⟩ checker.wait with
  | .error _ => false
  | .ok _ => !checker.wait.fits started

theorem breaksOff_iff {checker : ProcessChecker} {launch : Launcher} {started : Instant}
    {i : Invocation} :
    checker.breaksOff launch started i = true ↔
      (∃ events, launch ⟨checker.program, i.arguments⟩ checker.wait = .ok events) ∧
        ∃ time, checker.wait = .limit time ∧
          Instant.endNanos ≤ started.sinceStart.toNanos + time.toNanos := by
  unfold breaksOff
  cases launch ⟨checker.program, i.arguments⟩ checker.wait with
  | error cause => simp
  | ok events => simp [WaitPolicy.fits_eq_false_iff]

/-- Launches the checker and waits for its answer. This is for a launch that does not break off:
the deadlines among the events are then those of the limit. -/
def invoke (checker : ProcessChecker) (launch : Launcher) (i : Invocation) :
    Traced (Except InvokeError Outcome) :=
  let start : List TraceEvent := [checker.announcement i]
  match launch ⟨checker.program, i.arguments⟩ checker.wait with
  | .error cause => ⟨start, .error (.spawn checker.program cause)⟩
  | .ok events =>
    match Watch.follow checker.wait {} events with
    | none => ⟨start, .error (.wait lostProcess)⟩
    | some (ending, gathered) =>
      { trace := start ++ limitEvents checker.wait i.task ending gathered
        value := judgeProcess checker.wait ending gathered }

end ProcessChecker

end CheckerAudit
