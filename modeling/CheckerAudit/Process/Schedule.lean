import CheckerAudit.Process

/-!
Schedules of a process: the bytes that a list of events brings on each stream, when it brings all
that the process wrote, and where the watch over the process stops.
-/
namespace CheckerAudit

namespace ProcessEvent

/-- The bytes that an event brings on a stream. -/
def bytesOn (s : Stream) : ProcessEvent → Text.Bytes
  | chunk stream bytes => if stream = s then bytes else []
  | _ => []

/-- The code with which an event tells the exit. -/
def exit? : ProcessEvent → Option (Option Int32)
  | exited code => some code
  | _ => none

end ProcessEvent

/-- All bytes on a stream, in the order of their arrival. -/
def outputOn (s : Stream) (events : List ProcessEvent) : Text.Bytes :=
  events.flatMap (ProcessEvent.bytesOn s)

/-- The output that some events bring, decoded. -/
def Gathered.ofEvents (events : List ProcessEvent) (complete : Bool) : Gathered where
  stdout := .ofList (Text.Utf8.decodeLossy (outputOn .stdout events))
  stderr := .ofList (Text.Utf8.decodeLossy (outputOn .stderr events))
  complete := complete

/-- What a process amounts to that wrote this output and exited with this code. -/
def Outcome.ofOutput (stdout stderr : String) (code : Option Int32) : Except InvokeError Outcome :=
  match Transcript.read stdout with
  | .ok t => .ok ⟨t.result, t.proof, ⟨t.text, stderr⟩, code⟩
  | .error m => .error (.malformedResult m.value ⟨m.text, stderr⟩)

/-- Both streams close within some events. -/
def AllClosed (events : List ProcessEvent) : Prop :=
  .closed .stdout ∈ events ∧ .closed .stderr ∈ events

instance (events : List ProcessEvent) : Decidable (AllClosed events) :=
  inferInstanceAs (Decidable (_ ∧ _))

/-- A stream is open until the last of some more events arrives. -/
def OpenUntil (received more : List ProcessEvent) : Prop :=
  ∀ shorter, shorter <+: more → AllClosed (received ++ shorter) → shorter = more

/-- The events of a process that writes these bytes, closes both streams and exits before a
deadline passes. The bytes of a stream may come in any chunks and between any other events, but not
after the stream is closed; the exit may come at any time. -/
structure Completes (out err : Text.Bytes) (code : Option Int32) (events : List ProcessEvent) :
    Prop where
  stdout : outputOn .stdout events = out
  stderr : outputOn .stderr events = err
  noDeadline : .deadline ∉ events
  exits : events.filterMap ProcessEvent.exit? = [code]
  closes : AllClosed events
  closedIsLast : ∀ s, events.Pairwise fun earlier later =>
    earlier = .closed s → later.bytesOn s = []

namespace WaitPolicy

/-- Only under a limit does a deadline pass. -/
def expires : WaitPolicy → ProcessEvent → Bool
  | .limit _, .deadline => true
  | _, _ => false

/-- The end of the wait for a process that an event makes: its exit, or the deadline at which it is
killed. -/
def ending? (wait : WaitPolicy) : ProcessEvent → Option Ending
  | .exited code => some (.exited code)
  | event => if wait.expires event then some .killed else none

end WaitPolicy

/-- Where the watch over a process stops: how the process ended, whether its output is complete,
and what had arrived by then apart from the event that ended it. First the process is awaited, then
its output, until both streams are closed or a deadline passes with one of them open. -/
inductive Stops (wait : WaitPolicy) (events : List ProcessEvent) :
    Ending → Bool → List ProcessEvent → Prop where
  | complete {before after rest : List ProcessEvent} {cause : ProcessEvent} {ending : Ending}
    (order : events = before ++ cause :: (after ++ rest))
    (awaited : ∀ e ∈ before, wait.ending? e = none)
    (ends : wait.ending? cause = some ending)
    (inTime : ∀ e ∈ after, wait.expires e = false)
    (unclosed : OpenUntil before after)
    (closed : AllClosed (before ++ after)) :
    Stops wait events ending true (before ++ after)
  | abandoned {before after rest : List ProcessEvent} {cause late : ProcessEvent} {ending : Ending}
    (order : events = before ++ cause :: (after ++ late :: rest))
    (awaited : ∀ e ∈ before, wait.ending? e = none)
    (ends : wait.ending? cause = some ending)
    (inTime : ∀ e ∈ after, wait.expires e = false)
    (expired : wait.expires late = true)
    (unclosed : ¬ AllClosed (before ++ after)) :
    Stops wait events ending false (before ++ after)

end CheckerAudit
