import CheckerAudit.Proofs.Report.Json
import CheckerAudit.Proofs.Text.Utf8
import CheckerAudit.Suite
import CheckerAudit.Report.Stream.Notice

/-!
# The event stream is lossless

Every event is one line. No text in it can end the line early, because a JSON text holds no control
character, and none can be taken for anything else, because the JSON value and the notice in it are
read back. So the bytes of a run fall apart into its events again, and events that differ in what
they tell differ in their lines.
-/
namespace CheckerAudit.Report

/-! ### What is told of an event is read back -/

@[simp] theorem ofName?_name (kind : FailureKind) : FailureKind.ofName? kind.name = some kind := by
  cases kind <;> decide

theorem Detail.ofJson?_details (f : Failure) :
    Detail.ofJson? f.kind (Stream.details f) = some (.ofFailure f) := by
  cases f with
  | missingResult => rfl
  | resultMismatch expected actual => rfl
  | proofMismatch expected actual => cases actual <;> rfl
  | invoke e => cases e <;> rfl

theorem Json.nullable?_ofString? (s : Option String) :
    (Json.ofString? s).nullable? Json.string? = some s := by
  cases s <;> rfl

theorem Json.nullable?_ofInt? (n : Option Int) :
    (Json.ofInt? n).nullable? Json.integer? = some n := by
  cases n <;> rfl

namespace Notice

theorem natural?_millis (d : Duration) : (Stream.millis d).natural? = some (wordMillis d) := by
  rw [Stream.millis, wordMillis, ← d.millis_eq]
  rfl

theorem aborted?_status (aborted : Bool) :
    aborted? (if aborted then "aborted" else "all_passed") = some aborted := by
  cases aborted <;> decide

@[simp] theorem ofJson?_ofEvent (e : ReportEvent) :
    ofJson? (Stream.ofEvent e) = some (ofEvent e) := by
  cases e with
  | collected count => rfl
  | caseStarted c salt => rfl
  | casePassed c duration =>
    have hname : (Stream.ofEvent (.casePassed c duration)).member? "event" =
        some (.string "case_passed") := rfl
    have hvalues : (Stream.ofEvent (.casePassed c duration)).values?
          ["duration_ms", "event", "log", "task"] =
        some [Stream.millis duration, .string "case_passed", .string c.log, .string c.task] := rfl
    simp [ofJson?, hname, hvalues, Json.string?, natural?_millis, ofEvent]
  | caseFailed f =>
    have hname : (Stream.ofEvent (.caseFailed f)).member? "event" =
        some (.string "case_failed") := rfl
    have hvalues : (Stream.ofEvent (.caseFailed f)).values? ["details", "event", "exit_code",
          "kind", "line", "log", "message", "salt", "stderr", "stdout", "task"] =
        some [Stream.details f.failure, .string "case_failed",
          .ofInt? (f.exitCode.map (·.toInt)), .string f.failure.kind.name,
          .integer f.case.line, .string f.case.log, .string f.describe, .integer f.salt.toNat,
          .ofString? (f.output.map (·.stderr)), .ofString? (f.output.map (·.stdout)),
          .string f.case.task] := rfl
    simp [ofJson?, hname, hvalues, Json.string?, Json.natural?, ofName?_name,
      Detail.ofJson?_details, Json.nullable?_ofString?, Json.nullable?_ofInt?, ofEvent]
  | completed s =>
    have hname : (Stream.ofEvent (.completed s)).member? "event" =
        some (.string "run_complete") := rfl
    have hvalues : (Stream.ofEvent (.completed s)).values?
          ["duration_ms", "event", "passed", "status", "total"] =
        some [Stream.millis s.duration, .string "run_complete", .integer s.passed,
          .string (if s.aborted then "aborted" else "all_passed"), .integer s.total] := rfl
    have htotal (n : Nat) : (Json.integer n).natural? = some n := rfl
    simp [ofJson?, hname, hvalues, Json.string?, htotal, aborted?_status, natural?_millis, ofEvent]

end Notice

/-! ### Lines -/

namespace Stream

/-- The bytes of an event's line, without its line feed. -/
def lineBytes (e : ReportEvent) : Text.Bytes :=
  Text.Utf8.encode (ofEvent e).render

@[simp] theorem encode_text (e : ReportEvent) :
    Text.Utf8.encode (Reporter.stream.text e).toList = lineBytes e ++ [0x0A] := by
  have htext : (Reporter.stream.text e).toList = (ofEvent e).render ++ ['\n'] := by
    simp [Reporter.text, line, Json.text]
  rw [htext, Text.Utf8.encode_append]
  rfl

@[simp] theorem lineFeed_notMem_lineBytes (e : ReportEvent) : 0x0A ∉ lineBytes e := by
  have hbyte : (0x0A : UInt8) = UInt8.ofNat '\n'.val.toNat := rfl
  rw [hbyte, lineBytes, Text.Utf8.mem_encode_ascii (by decide)]
  intro h
  exact absurd (Json.render_printable (ofEvent e) '\n' h) (by decide)

theorem ofLine?_lineBytes (e : ReportEvent) : Notice.ofLine? (lineBytes e) = some (.ofEvent e) := by
  simp [Notice.ofLine?, lineBytes]

theorem encode_join (events : List ReportEvent) :
    Text.Utf8.encode (String.join (events.map Reporter.stream.text)).toList =
      events.flatMap fun e => lineBytes e ++ [0x0A] := by
  induction events with
  | nil => rfl
  | cons e events ih =>
    rw [List.map_cons, String.join_cons, String.toList_append, Text.Utf8.encode_append, ih]
    simp

theorem count_lines (events : List ReportEvent) :
    (events.flatMap fun e => lineBytes e ++ [0x0A]).count 0x0A = events.length := by
  induction events with
  | nil => rfl
  | cons e events ih =>
    have hline : (lineBytes e ++ [0x0A]).count 0x0A = 1 := by
      simp [List.count_eq_zero.mpr (lineFeed_notMem_lineBytes e)]
    rw [List.flatMap_cons, List.count_append, hline, ih, List.length_cons, Nat.add_comm]

theorem splitOn_lines (events : List ReportEvent) :
    (events.flatMap fun e => lineBytes e ++ [0x0A]).splitOn 0x0A =
      events.map lineBytes ++ [[]] := by
  induction events with
  | nil => rfl
  | cons e events ih =>
    rw [List.flatMap_cons, List.append_assoc, List.singleton_append,
      List.splitOn_append_cons_self_of_not_mem (lineFeed_notMem_lineBytes e), ih, List.map_cons,
      List.cons_append]

/-- The bytes that are written for some events have one line feed for each of them, at the end of
its line. Cut there they give the lines back, and each line gives what is told of its event. Equal
lines tell the same. -/
theorem lines_tell_events (events : List ReportEvent) :
    let written := Text.Utf8.encode (String.join (events.map Reporter.stream.text)).toList
    written.count 0x0A = events.length ∧
    written.splitOn 0x0A = events.map lineBytes ++ [[]] ∧
    (written.splitOn 0x0A).dropLast.map Notice.ofLine? = events.map (some ∘ Notice.ofEvent) ∧
    ∀ e e', Reporter.stream.text e = Reporter.stream.text e' →
      Notice.ofEvent e = Notice.ofEvent e' := by
  intro written
  have hwritten : written = events.flatMap fun e => lineBytes e ++ [0x0A] := encode_join events
  refine ⟨?_, ?_, ?_, ?_⟩
  · rw [hwritten, count_lines]
  · rw [hwritten, splitOn_lines]
  · rw [hwritten, splitOn_lines, List.dropLast_concat, List.map_map]
    exact List.map_congr_left fun e _ => ofLine?_lineBytes e
  · intro e e' h
    have hbytes := encode_text e
    rw [h, encode_text] at hbytes
    have hread := ofLine?_lineBytes e
    rw [← List.append_cancel_right hbytes, ofLine?_lineBytes] at hread
    exact (Option.some.inj hread).symm

end Stream

end CheckerAudit.Report
