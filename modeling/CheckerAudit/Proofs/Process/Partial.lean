import CheckerAudit.Proofs.Process.Output
import CheckerAudit.Proofs.Transcript.Text

/-!
# No verdict from partial output

Two things can be cut short, the process and the reading of its output. An answer that is judged
comes only from a process that exited on its own and whose streams were both read to their end.
Otherwise, under a limit, the answer is that the limit was overrun, with what had arrived by then,
and a result line among it counts for nothing.
-/
namespace CheckerAudit

open Text (joinLines)
open Text.Utf8 (decodeLossy)
open Transcript (trimmedLines)

variable {wait : WaitPolicy} {ending : Ending} {complete : Bool}
  {events received : List ProcessEvent}

/-- An answer whose output the verdict looks at, or would if its result were an integer. -/
def Judged (answer : Except InvokeError Outcome) : Prop :=
  (∃ outcome, answer = .ok outcome) ∨
    ∃ value output, answer = .error (.malformedResult value output)

theorem judged_ofOutput (stdout stderr : String) (code : Option Int32) :
    Judged (Outcome.ofOutput stdout stderr code) := by
  unfold Outcome.ofOutput
  cases Transcript.read stdout with
  | ok t => exact .inl ⟨_, rfl⟩
  | error m => exact .inr ⟨_, _, rfl⟩

theorem not_judged_timedOut (time : Duration) (output : Captured) :
    ¬ Judged (.error (.timedOut time output)) := by
  rintro (⟨outcome, h⟩ | ⟨value, kept, h⟩) <;> cases h

theorem not_judged_wait (cause : String) : ¬ Judged (.error (.wait cause)) := by
  rintro (⟨outcome, h⟩ | ⟨value, kept, h⟩) <;> cases h

theorem Stops.of_unbounded (h : Stops .unbounded events ending complete received) :
    complete = true ∧ ∃ code, ending = .exited code := by
  cases h with
  | @complete _ _ _ cause _ _ _ ends _ _ _ =>
    cases cause with
    | exited code => exact ⟨rfl, code, (Option.some.inj ends).symm⟩
    | _ => cases ends
  | @abandoned _ _ _ _ late _ _ _ _ _ expired _ => cases late <;> cases expired

theorem Stops.of_exited {code : Option Int32} (h : Stops wait events (.exited code) true received) :
    .exited code ∈ events ∧ AllClosed received := by
  -- Of the two ways to stop, only the first is with complete output; a kill is no exit.
  generalize hending : Ending.exited code = ending at h
  cases h with
  | @complete _ _ _ cause _ order _ ends _ _ closed =>
    subst hending
    have hcause : cause = .exited code := by
      cases cause with
      | exited told => rw [Ending.exited.inj (Option.some.inj ends)]
      | _ => cases wait <;> simp [WaitPolicy.ending?, WaitPolicy.expires] at ends
    exact ⟨by simp [order, hcause], closed⟩

/-- What is reported when the limit was overrun and these events had arrived: the trimmed lines of
standard output, and the other stream as it is. -/
def InvokeError.overrun (time : Duration) (received : List ProcessEvent) : InvokeError :=
  let stdout := String.ofList (decodeLossy (outputOn .stdout received))
  .timedOut time
    { stdout := .ofList (joinLines (trimmedLines stdout))
      stderr := .ofList (decodeLossy (outputOn .stderr received)) }

theorem judgeProcess_partial (time : Duration) (h : ending = .killed ∨ complete = false) :
    judgeProcess (.limit time) ending (.ofEvents received complete) =
      .error (.overrun time received) := by
  have hflag : (ending = .killed || !complete) = true := by
    rcases h with h | h <;> simp [h]
  simp only [judgeProcess, Gathered.ofEvents, hflag, if_true, Transcript.textOf_eq,
    InvokeError.overrun]

section
variable {checker : ProcessChecker} {launch : Launcher} {i : Invocation}
  (hlaunch : launch ⟨checker.program, i.arguments⟩ checker.wait = .ok events)
include hlaunch

theorem invoke_of_stops (h : Stops checker.wait events ending complete received) :
    (checker.invoke launch i).value =
      judgeProcess checker.wait ending (.ofEvents received complete) := by
  simp only [ProcessChecker.invoke, hlaunch, Watch.follow_of_stops h]

theorem invoke_of_complete {code : Option Int32}
    (h : Stops checker.wait events (.exited code) true received) :
    Judged (checker.invoke launch i).value := by
  rw [invoke_of_stops hlaunch h, Gathered.ofEvents, judgeProcess_complete]
  exact judged_ofOutput _ _ _

theorem invoke_of_partial {time : Duration} (hlimit : checker.wait = .limit time)
    (h : Stops checker.wait events ending complete received)
    (hcut : ending = .killed ∨ complete = false) :
    (checker.invoke launch i).value = .error (.overrun time received) := by
  rw [invoke_of_stops hlaunch h, hlimit, judgeProcess_partial time hcut]

/-- The three ways an invocation can go after its process was started. -/
theorem invoke_cases :
    (∃ code received, Stops checker.wait events (.exited code) true received ∧
      Judged (checker.invoke launch i).value) ∨
    (∃ time received, checker.wait = .limit time ∧
      (checker.invoke launch i).value = .error (.overrun time received)) ∨
    (checker.invoke launch i).value = .error (.wait ProcessChecker.lostProcess) := by
  rcases stops_or_runs_out checker.wait events with ⟨ending, complete, received, h⟩ | hnone
  · by_cases hcut : ending = .killed ∨ complete = false
    · cases hwait : checker.wait with
      | unbounded =>
        rw [hwait] at h
        obtain ⟨hcomplete, code, hexited⟩ := h.of_unbounded
        simp [hcomplete, hexited] at hcut
      | limit time => exact .inr (.inl ⟨time, received, rfl, invoke_of_partial hlaunch hwait h hcut⟩)
    · cases ending with
      | killed => exact absurd (.inl rfl) hcut
      | exited code =>
        obtain rfl : complete = true := by simpa using hcut
        exact .inl ⟨code, received, h, invoke_of_complete hlaunch h⟩
  · refine .inr (.inr ?_)
    simp only [ProcessChecker.invoke, hlaunch, hnone]

end

/-- Whatever the schedule, an answer is judged exactly when the process exited on its own and both
streams were closed before the watch stopped. Without a limit no answer says that it was overrun.
Under one, a process that was killed or whose output was given up is answered by that, with the
output received so far. -/
theorem verdict_only_from_complete_output (checker : ProcessChecker) (launch : Launcher)
    (i : Invocation) (hlaunch : launch ⟨checker.program, i.arguments⟩ checker.wait = .ok events) :
    let answer := (checker.invoke launch i).value
    (Judged answer ↔ ∃ code received, Stops checker.wait events (.exited code) true received ∧
      .exited code ∈ events ∧ AllClosed received) ∧
    (checker.wait = .unbounded → ∀ time output, answer ≠ .error (.timedOut time output)) ∧
    ∀ time ending complete received, checker.wait = .limit time →
      Stops checker.wait events ending complete received → ending = .killed ∨ complete = false →
      answer = .error (.overrun time received) := by
  intro answer
  refine ⟨⟨fun hjudged => ?_, fun ⟨code, received, h, _⟩ => invoke_of_complete hlaunch h⟩,
    fun hunbounded time output hover => ?_,
    fun time ending complete received hlimit h hcut => invoke_of_partial hlaunch hlimit h hcut⟩
  · change Judged (checker.invoke launch i).value at hjudged
    rcases invoke_cases hlaunch with ⟨code, received, h, -⟩ | ⟨time, received, -, hover⟩ | hlost
    · exact ⟨code, received, h, h.of_exited⟩
    · rw [hover] at hjudged
      exact absurd hjudged (not_judged_timedOut _ _)
    · rw [hlost] at hjudged
      exact absurd hjudged (not_judged_wait _)
  · change (checker.invoke launch i).value = _ at hover
    rcases invoke_cases hlaunch with ⟨_, _, -, hjudged⟩ | ⟨limit, _, hlimit, -⟩ | hlost
    · rw [hover] at hjudged
      exact not_judged_timedOut _ _ hjudged
    · rw [hunbounded] at hlimit
      cases hlimit
    · rw [hover] at hlost
      cases hlost

/-- A checker that reports a result and exits, but leaves its diagnostics open. -/
def heldSchedule : List ProcessEvent :=
  [.chunk .stdout (Text.Utf8.encode "Result code: 0\n".toList), .exited (some 0),
    .closed .stdout, .deadline]

theorem held_output_gives_no_verdict :
    let checker : ProcessChecker := ⟨"checker", .limit (.ofSeconds 1)⟩
    let i : Invocation := ⟨"test.cfg", "task", .nearest 7, "a.log"⟩
    let received : List ProcessEvent :=
      [.chunk .stdout (Text.Utf8.encode "Result code: 0\n".toList), .closed .stdout]
    Stops checker.wait heldSchedule (.exited (some 0)) false received ∧
    (checker.invoke (fun _ _ => .ok heldSchedule) i).value =
      .error (.timedOut (.ofSeconds 1) ⟨"Result code: 0\n", ""⟩) := by
  intro checker i received
  have hstops : Stops checker.wait heldSchedule (.exited (some 0)) false received :=
    @Stops.abandoned _ _ (received.take 1) (received.drop 1) [] (.exited (some 0)) .deadline _
      rfl (by decide +kernel) rfl (by decide +kernel) rfl (by decide +kernel)
  obtain ⟨-, -, hpartial⟩ :=
    verdict_only_from_complete_output checker (fun _ _ => .ok heldSchedule) i rfl
  have hover : InvokeError.overrun (.ofSeconds 1) received =
      .timedOut (.ofSeconds 1) ⟨"Result code: 0\n", ""⟩ := by decide +kernel
  have hanswer := hpartial (.ofSeconds 1) _ _ received rfl hstops (.inr rfl)
  rw [hover] at hanswer
  exact ⟨hstops, hanswer⟩

end CheckerAudit
