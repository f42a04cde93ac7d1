import CheckerAudit.Proofs.Process.Watch
import CheckerAudit.Proofs.Text.Utf8

/-!
# Captured output does not depend on the schedule

A process that writes, closes its streams and exits before a deadline is judged by the bytes it
wrote on each stream and by its exit code. Into which chunks the bytes were cut, how the chunks of
the two streams were mixed, and when the exit was seen among them make no difference: nothing is
decoded before both streams are closed.
-/
namespace CheckerAudit

open Text.Utf8

variable {wait : WaitPolicy} {e : ProcessEvent} {out err : Text.Bytes} {code : Option Int32}
  {events : List ProcessEvent}

theorem WaitPolicy.expires_of_ne (h : e ≠ .deadline) : wait.expires e = false := by
  cases e with
  | deadline => exact absurd rfl h
  | _ => cases wait <;> rfl

theorem WaitPolicy.ending?_of_running (hexit : e.exit? = none) (htime : wait.expires e = false) :
    wait.ending? e = none := by
  cases e with
  | exited code => cases hexit
  | _ => simp [WaitPolicy.ending?, htime]

namespace Completes

theorem outputOn_eq_nil (h : Completes out err code events) {first later : List ProcessEvent}
    (hcut : events = first ++ later) (s : Stream) (hclosed : .closed s ∈ first) :
    outputOn s later = [] := by
  have hlast := h.closedIsLast s
  rw [hcut, List.pairwise_append] at hlast
  exact List.flatMap_eq_nil_iff.mpr fun e he => hlast.2.2 _ hclosed e he rfl

theorem stops (wait : WaitPolicy) (h : Completes out err code events) :
    ∃ received, Stops wait events (.exited code) true received ∧
      ∀ s, outputOn s received = outputOn s events := by
  obtain ⟨before, cause, later, horder, hrunning, hcause, -⟩ :=
    List.filterMap_eq_cons_iff.mp h.exits
  have hintime : ∀ e ∈ events, wait.expires e = false := by
    intro e he
    exact WaitPolicy.expires_of_ne fun hdead => h.noDeadline (hdead ▸ he)
  have hawaited : ∀ e ∈ before, wait.ending? e = none := by
    intro e he
    exact WaitPolicy.ending?_of_running (hrunning e he) (hintime e (by simp [horder, he]))
  obtain rfl : cause = .exited code := by
    cases cause <;> simp_all [ProcessEvent.exit?]
  rcases collecting_cases wait before later with ⟨after, rest, rfl, hafter, hopen, hall⟩ |
    ⟨after, late, rest, rfl, -, hlate, -⟩ | ⟨-, hopen⟩
  · -- Both streams are closed before `rest`, so it brings no byte that the watch would miss.
    refine ⟨before ++ after, .complete horder hawaited rfl hafter hopen hall, fun s => ?_⟩
    have hcut : events = before ++ .exited code :: after ++ rest := by simp [horder]
    have hclosed : .closed s ∈ before ++ .exited code :: after := by
      simpa using allClosed_iff.mp hall s
    have hrest := h.outputOn_eq_nil hcut s hclosed
    rw [hcut, outputOn_append s (before ++ .exited code :: after), hrest, List.append_nil]
    simp [outputOn, ProcessEvent.bytesOn]
  · -- No deadline passes.
    have hmember : late ∈ events := by simp [horder]
    rw [hintime late hmember] at hlate
    cases hlate
  · -- Both streams are closed in the end, and neither by the exit.
    refine absurd (allClosed_iff.mpr fun s => ?_) hopen
    simpa [horder] using allClosed_iff.mp h.closes s

end Completes

theorem judgeProcess_complete (wait : WaitPolicy) (code : Option Int32) (stdout stderr : String) :
    judgeProcess wait (.exited code) ⟨stdout, stderr, true⟩ =
      Outcome.ofOutput stdout stderr code := by
  cases wait <;> rfl

theorem limitEvents_complete (wait : WaitPolicy) (task : String) (code : Option Int32)
    (stdout stderr : String) :
    limitEvents wait task (.exited code) ⟨stdout, stderr, true⟩ = [] := by
  cases wait <;> rfl

/-- The answer of a checker that completes is a function of the bytes on each stream and of the exit
code. A character or a line that was cut or mixed with the other stream is whole in it. -/
theorem answer_independent_of_schedule (checker : ProcessChecker) (launch : Launcher)
    (i : Invocation) (hlaunch : launch ⟨checker.program, i.arguments⟩ checker.wait = .ok events)
    (h : Completes out err code events) :
    let stdout := String.ofList (decodeLossy out)
    let stderr := String.ofList (decodeLossy err)
    Watch.follow checker.wait {} events = some (.exited code, ⟨stdout, stderr, true⟩) ∧
    checker.invoke launch i =
      { trace := [.invokingChecker checker.program i.task i.salt i.log]
        value := Outcome.ofOutput stdout stderr code } ∧
    (∀ text, out = encode text → stdout = .ofList text) ∧
    (∀ text, err = encode text → stderr = .ofList text) := by
  intro stdout stderr
  obtain ⟨received, hstops, houtput⟩ := h.stops checker.wait
  have hgathered : Gathered.ofEvents received true = ⟨stdout, stderr, true⟩ := by
    rw [Gathered.ofEvents, houtput, houtput, h.stdout, h.stderr]
  have hfollow := Watch.follow_of_stops hstops
  rw [hgathered] at hfollow
  refine ⟨hfollow, ?_, fun text htext => ?_, fun text htext => ?_⟩
  · simp only [ProcessChecker.invoke, ProcessChecker.announcement, hlaunch, hfollow,
      judgeProcess_complete, limitEvents_complete, List.append_nil]
  · rw [← decodeLossy_encode text, ← htext]
  · rw [← decodeLossy_encode text, ← htext]

/-- A process whose marker line and whose accented letters are cut and mixed with its diagnostics,
and whose exit is seen before its output is. -/
def cutSchedule : List ProcessEvent :=
  [.chunk .stdout (encode "Result co".toList), .chunk .stderr [0xC3], .exited (some 4),
    .chunk .stdout (encode "de: 5 \n".toList ++ [0xC3]), .chunk .stderr [0xA9], .closed .stderr,
    .chunk .stdout [0xA9, 0x0A], .closed .stdout]

theorem answer_of_cut_schedule :
    let checker : ProcessChecker := ⟨"checker", .limit (.ofSeconds 1)⟩
    let i : Invocation := ⟨"test.cfg", "task", .nearest 7, "a.log"⟩
    let out := encode "Result code: 5 \né\n".toList
    Completes out (encode ['é']) (some 4) cutSchedule ∧
    (checker.invoke (fun _ _ => .ok cutSchedule) i).value =
      .ok ⟨some 5, none, ⟨"Result code: 5\né\n", "é"⟩, some 4⟩ := by
  intro checker i out
  have hcut : Completes out (encode ['é']) (some 4) cutSchedule :=
    { stdout := by decide +kernel
      stderr := by decide +kernel
      noDeadline := by decide +kernel
      exits := by decide +kernel
      closes := by decide +kernel
      closedIsLast := fun s => by cases s <;> decide +kernel }
  obtain ⟨-, hanswer, hout, herr⟩ :=
    answer_independent_of_schedule checker (fun _ _ => .ok cutSchedule) i rfl hcut
  refine ⟨hcut, ?_⟩
  have hread : Transcript.read (.ofList "Result code: 5 \né\n".toList) =
      .ok ⟨some 5, none, "Result code: 5\né\n"⟩ := rfl
  rw [hanswer, hout _ rfl, herr _ rfl]
  simp only [Outcome.ofOutput, hread]

end CheckerAudit
