import CheckerAudit.Proofs.Process.Partial
import CheckerAudit.Proofs.Text.Broken
import CheckerAudit.Proofs.Transcript.Unmarked

/-!
# Broken bytes stay on their line

Captured bytes need not be text. Whatever is broken in them is broken up to the next line feed at
most, so two outputs that differ in a line without a marker, be it text or not, are answered alike:
only the text that is kept for diagnostics shows the difference.
-/
namespace CheckerAudit

open Text (Bytes trimChars)
open Text.Utf8 (decodeLossy decodeLossy_ended decodeLossy_ending decodeLossy_lineFeed encode
  lineFeed lineFeed_mem_iff)
open Transcript (answer rests)

variable {out out' : Bytes}

/-- The bytes of a line that begins with no marker. -/
structure Unmarked (line : Bytes) : Prop where
  whole : lineFeed ∉ line
  unmarked : ∀ m : Marker, ¬ m.spelling.toList <+: trimChars (decodeLossy line)

/-- Two outputs that are the same up to one line, which begins with a marker in neither. -/
inductive Reworded : Bytes → Bytes → Prop where
  | line {before old new after : Bytes} (begins : before = [] ∨ before.getLast? = some lineFeed)
    (ends : after = [] ∨ after.head? = some lineFeed) (unmarked : Unmarked old)
    (unmarked' : Unmarked new) : Reworded (before ++ old ++ after) (before ++ new ++ after)

/-- What is found in decoded output with such a line is found around it. -/
theorem rests_decodeLossy {before line after : Bytes} (m : Marker)
    (begins : before = [] ∨ before.getLast? = some lineFeed)
    (ends : after = [] ∨ after.head? = some lineFeed) (h : Unmarked line) :
    rests m (decodeLossy (before ++ line ++ after)) =
      rests m (decodeLossy before) ++ rests m (decodeLossy after).tail := by
  obtain ⟨hbegins, hfront⟩ := decodeLossy_ended begins
  obtain ⟨hends, hback⟩ := decodeLossy_ending ends
  have hwhole : '\n' ∉ decodeLossy line := mt lineFeed_mem_iff.mp h.whole
  rw [List.append_assoc, hfront, hback, ← List.append_assoc]
  exact Transcript.rests_around hbegins hwhole (h.unmarked m) hends

/-- Outputs that differ in a line without a marker have the same answer. -/
theorem Reworded.answer_eq (h : Reworded out out') :
    answer (Transcript.read (.ofList (decodeLossy out))) =
      answer (Transcript.read (.ofList (decodeLossy out'))) := by
  cases h with
  | line begins ends unmarked unmarked' =>
    refine Transcript.answer_congr fun m => ?_
    rw [String.toList_ofList, String.toList_ofList, rests_decodeLossy m begins ends unmarked,
      rests_decodeLossy m begins ends unmarked']

/-! ### The answer of a launch -/

/-- The answer of a launch, without the text of its standard output. -/
def withoutStdout : Except InvokeError Outcome → Except InvokeError Outcome
  | .ok o => .ok { o with output := { o.output with stdout := "" } }
  | .error (.timedOut limit output) => .error (.timedOut limit { output with stdout := "" })
  | .error (.malformedResult value output) =>
    .error (.malformedResult value { output with stdout := "" })
  | .error e => .error e

theorem ofOutput_congr {stdout stdout' : String} (stderr : String) (code : Option Int32)
    (h : answer (Transcript.read stdout) = answer (Transcript.read stdout')) :
    withoutStdout (Outcome.ofOutput stdout stderr code) =
      withoutStdout (Outcome.ofOutput stdout' stderr code) := by
  unfold Outcome.ofOutput
  cases hread : Transcript.read stdout with
  | ok t =>
    cases hread' : Transcript.read stdout' with
    | ok t' =>
      rw [hread, hread'] at h
      obtain ⟨hresult, hproof⟩ := Prod.mk.inj (Except.ok.inj h)
      simp only [withoutStdout, hresult, hproof]
    | error m' =>
      rw [hread, hread'] at h
      cases h
  | error m =>
    cases hread' : Transcript.read stdout' with
    | ok t' =>
      rw [hread, hread'] at h
      cases h
    | error m' =>
      rw [hread, hread'] at h
      have hvalue : m.value = m'.value := Except.error.inj h
      simp only [withoutStdout, hvalue]

theorem judgeProcess_congr {stdout stdout' : String} (wait : WaitPolicy) (ending : Ending)
    (stderr : String) (complete : Bool)
    (h : answer (Transcript.read stdout) = answer (Transcript.read stdout')) :
    withoutStdout (judgeProcess wait ending ⟨stdout, stderr, complete⟩) =
      withoutStdout (judgeProcess wait ending ⟨stdout', stderr, complete⟩) := by
  cases wait with
  | unbounded =>
    cases ending with
    | exited code => exact ofOutput_congr stderr code h
    | killed => exact ofOutput_congr stderr none h
  | limit time =>
    cases ending with
    | killed => rfl
    | exited code =>
      cases complete with
      | false => rfl
      | true => exact ofOutput_congr stderr code h

/-- A line feed in captured bytes is one in the text, and the bytes before it and after it are
decoded on their own, text as it is. So the answers of two launches that end alike, with the same
diagnostics, and with standard outputs that differ in the bytes of a line without a marker only, are
the same but for the text that is kept of standard output. -/
theorem broken_bytes_stay_on_line :
    (∀ a b : Bytes, decodeLossy (a ++ lineFeed :: b) = decodeLossy a ++ '\n' :: decodeLossy b) ∧
    (∀ text, decodeLossy (encode text) = text) ∧
    ∀ (checker : ProcessChecker) (i : Invocation) (launch launch' : Launcher)
      (events events' received received' : List ProcessEvent) (ending : Ending) (complete : Bool),
      launch ⟨checker.program, i.arguments⟩ checker.wait = .ok events →
      launch' ⟨checker.program, i.arguments⟩ checker.wait = .ok events' →
      Stops checker.wait events ending complete received →
      Stops checker.wait events' ending complete received' →
      outputOn .stderr received = outputOn .stderr received' →
      Reworded (outputOn .stdout received) (outputOn .stdout received') →
      withoutStdout (checker.invoke launch i).value =
        withoutStdout (checker.invoke launch' i).value := by
  refine ⟨decodeLossy_lineFeed, Text.Utf8.decodeLossy_encode, ?_⟩
  intro checker i launch launch' events events' received received' ending complete hlaunch hlaunch'
    hstops hstops' hstderr hreworded
  rw [invoke_of_stops hlaunch hstops, invoke_of_stops hlaunch' hstops', Gathered.ofEvents,
    Gathered.ofEvents, hstderr]
  exact judgeProcess_congr checker.wait ending _ complete hreworded.answer_eq

/-- A checker that writes one line between its result and its proof. -/
def wroteBetween (line : Bytes) : List ProcessEvent :=
  [.chunk .stdout (encode "Result code: 5\n".toList), .chunk .stdout line,
    .chunk .stdout (encode "\nCode string: ab".toList), .closed .stdout, .closed .stderr]

/-- The line is a character that is not finished, or a result behind a byte that begins none. -/
theorem broken_bytes_stay_on_line_between :
    let checker : ProcessChecker := ⟨"checker", .limit (.ofSeconds 1)⟩
    let i : Invocation := ⟨"test.cfg", "task", .nearest 7, "a.log"⟩
    let schedule (line : Bytes) := wroteBetween line ++ [.exited (some 0)]
    let unfinished : Bytes := [0xE2, 0x82]
    let disguised : Bytes := 0xFF :: encode "Result code: 9".toList
    Reworded (outputOn .stdout (wroteBetween unfinished))
        (outputOn .stdout (wroteBetween disguised)) ∧
      withoutStdout (checker.invoke (fun _ _ => .ok (schedule unfinished)) i).value =
        withoutStdout (checker.invoke (fun _ _ => .ok (schedule disguised)) i).value ∧
      (checker.invoke (fun _ _ => .ok (schedule unfinished)) i).value.toOption =
        some ⟨some 5, some "ab", ⟨"Result code: 5\n\uFFFD\nCode string: ab\n", ""⟩, some 0⟩ := by
  intro checker i schedule unfinished disguised
  have hunmarked (line : Bytes) (hwhole : lineFeed ∉ line)
      (hhead : (trimChars (decodeLossy line)).head? = some '\uFFFD') : Unmarked line := by
    refine ⟨hwhole, fun m => Marker.rest?_eq_none_iff.mp (Marker.rest?_eq_none_of_head ?_)⟩
    rw [hhead]
    cases m <;> decide
  have hreworded : Reworded (outputOn .stdout (wroteBetween unfinished))
      (outputOn .stdout (wroteBetween disguised)) := by
    have hout (line : Bytes) : outputOn .stdout (wroteBetween line) =
        encode "Result code: 5\n".toList ++ line ++ encode "\nCode string: ab".toList := by
      simp [outputOn, wroteBetween, ProcessEvent.bytesOn]
    rw [hout, hout]
    exact .line (.inr (by decide +kernel)) (.inr (by decide +kernel))
      (hunmarked unfinished (by decide) (by decide +kernel))
      (hunmarked disguised (by decide +kernel) (by decide +kernel))
  have hstops (line : Bytes) :
      Stops checker.wait (schedule line) (.exited (some 0)) true (wroteBetween line) :=
    @Stops.complete _ _ (wroteBetween line) [] [] (.exited (some 0)) _ rfl
      (by simp [wroteBetween, WaitPolicy.ending?, WaitPolicy.expires, checker]) rfl (List.forall_mem_nil _)
      (fun shorter hshorter _ => List.prefix_nil.mp hshorter) (by simp [wroteBetween, AllClosed])
  obtain ⟨-, -, hsame⟩ := broken_bytes_stay_on_line
  exact ⟨hreworded, hsame checker i _ _ _ _ _ _ _ _ rfl rfl (hstops unfinished) (hstops disguised)
    rfl hreworded, by decide +kernel⟩

end CheckerAudit
