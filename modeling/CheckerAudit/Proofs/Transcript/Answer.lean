import CheckerAudit.Proofs.Numeral.Denotes
import CheckerAudit.Proofs.Text.Lines
import CheckerAudit.Proofs.Transcript.Last
import Mathlib.Data.List.Forall2

/-!
# Only the last line of each marker counts

What a transcript answers is said without the scan that finds it: the output is cut into lines, the
last one that begins with a marker is looked up from the back, and what follows the marker there
denotes an integer or does not.
-/
namespace CheckerAudit

open Numeral (Denotes)
open Text (Cut Trimmed joinLines trimChars)

theorem Marker.rest?_eq_none_iff {m : Marker} {line : List Char} :
    m.rest? line = none ↔ ¬ m.spelling.toList <+: line := by
  rw [Marker.rest?, ← List.isPrefixOf_iff_prefix]
  split <;> simp_all

theorem Text.forall₂_trimmed_iff {raws lines : List (List Char)} :
    List.Forall₂ Trimmed raws lines ↔ raws.map trimChars = lines := by
  have hrelation : Trimmed = fun raw line => trimChars raw = line :=
    funext₂ fun _ _ => propext Text.trimmed_iff
  rw [hrelation, ← List.forall₂_map_left_iff (R := Eq), List.forall₂_eq_eq_eq]

namespace Transcript

/-- What the last of some lines that begins with a marker says after it, if there is such a line. -/
inductive LastSays (m : Marker) (lines : List (List Char)) : Option String → Prop where
  | nothing (unmarked : ∀ line ∈ lines, ¬ m.spelling.toList <+: line) : LastSays m lines none
  | told (before : List (List Char)) {after : List (List Char)} {rest said : List Char}
    (split : lines = before ++ (m.spelling.toList ++ rest) :: after)
    (last : ∀ line ∈ after, ¬ m.spelling.toList <+: line) (trimmed : Trimmed rest said) :
    LastSays m lines (some (.ofList said))

section
variable {m : Marker} {lines : List (List Char)} {said : Option String}

theorem filterMap_unmarked (h : ∀ line ∈ lines, ¬ m.spelling.toList <+: line) :
    lines.filterMap m.rest? = [] :=
  List.filterMap_eq_nil_iff.mpr fun line hline => Marker.rest?_eq_none_iff.mpr (h line hline)

theorem LastSays.eq_lastRest? (h : LastSays m lines said) :
    said = (lastRest? m lines).map String.ofList := by
  cases h with
  | nothing hunmarked =>
    rw [lastRest?, filterMap_unmarked hunmarked]
    rfl
  | @told before after rest said hsplit hlast htrimmed =>
    have hrests : lines.filterMap m.rest? = before.filterMap m.rest? ++ [rest] := by
      rw [hsplit, List.filterMap_append, List.filterMap_cons_some (Marker.rest?_spelling m rest),
        filterMap_unmarked hlast]
    rw [lastRest?, hrests, List.getLast?_concat, Option.map_some, Option.map_some,
      Text.trimmed_iff.mp htrimmed]

theorem exists_lastSays (m : Marker) (lines : List (List Char)) :
    ∃ said, LastSays m lines said := by
  induction lines with
  | nil => exact ⟨none, .nothing nofun⟩
  | cons line lines ih =>
    -- A marker further back in the lines is the last one whatever this line is.
    obtain ⟨said, hsaid⟩ := ih
    cases hsaid with
    | told before hsplit hlast htrimmed =>
      exact ⟨_, .told (line :: before) (by rw [hsplit, List.cons_append]) hlast htrimmed⟩
    | nothing hunmarked =>
      by_cases hline : m.spelling.toList <+: line
      · obtain ⟨rest, rfl⟩ := hline
        exact ⟨_, .told [] rfl hunmarked (Text.trimmed_iff.mpr rfl)⟩
      · exact ⟨none, .nothing (List.forall_mem_cons.mpr ⟨hline, hunmarked⟩)⟩

theorem lastSays_iff : LastSays m lines said ↔ said = (lastRest? m lines).map String.ofList := by
  constructor
  · exact LastSays.eq_lastRest?
  · rintro rfl
    obtain ⟨said, hsaid⟩ := exists_lastSays m lines
    rwa [← hsaid.eq_lastRest?]

end

/-- A transcript that is read off what the last marker lines say and the lines that are kept. -/
inductive Answers : Option String → Option String → String →
    Except MalformedResult Transcript → Prop where
  | unreported (proof : Option String) (text : String) :
    Answers none proof text (.ok ⟨none, proof, text⟩)
  | integer {value : String} {n : Int64} (denotes : Denotes value.toList n.toInt)
    (proof : Option String) (text : String) :
    Answers (some value) proof text (.ok ⟨some n, proof, text⟩)
  | malformed {value : String} (literal : ∀ n : Int64, ¬ Denotes value.toList n.toInt)
    (proof : Option String) (text : String) :
    Answers (some value) proof text (.error ⟨value, text⟩)

theorem read_answers (stdout : String) :
    Answers ((lastRest? .resultCode (trimmedLines stdout)).map String.ofList)
      ((lastRest? .proofCode (trimmedLines stdout)).map String.ofList)
      (.ofList (joinLines (trimmedLines stdout))) (read stdout) := by
  rw [read_eq]
  cases lastRest? .resultCode (trimmedLines stdout) with
  | none => exact .unreported _ _
  | some rest =>
    cases hread : Numeral.readInt64 (.ofList rest) with
    | ok n =>
      simp only [hread]
      exact .integer (Numeral.readInt64_eq_ok_iff.mp hread) _ _
    | error fault =>
      simp only [hread]
      refine .malformed (fun n hdenotes => ?_) _ _
      rw [Numeral.readInt64_eq_ok_iff.mpr hdenotes] at hread
      cases hread

/-- What a transcript answers, apart from the lines that it keeps. -/
def answer : Except MalformedResult Transcript → Except String (Option Int64 × Option String)
  | .ok t => .ok (t.result, t.proof)
  | .error m => .error m.value

section
variable {result proof : Option String} {text : String} {a b : Except MalformedResult Transcript}

theorem Answers.unique (h : Answers result proof text a) (h' : Answers result proof text b) :
    a = b := by
  cases h with
  | unreported =>
    cases h'
    rfl
  | integer hdenotes =>
    cases h' with
    | integer hsame => rw [hdenotes.int64_unique hsame]
    | malformed hnone => exact absurd hdenotes (hnone _)
  | malformed hnone =>
    cases h' with
    | integer hdenotes => exact absurd hdenotes (hnone _)
    | malformed => rfl

theorem Answers.eq_error_iff (h : Answers result proof text a) {value kept : String} :
    a = .error ⟨value, kept⟩ ↔
      result = some value ∧ (∀ n : Int64, ¬ Denotes value.toList n.toInt) ∧ kept = text := by
  constructor
  · rintro rfl
    cases h with
    | malformed hnone => exact ⟨rfl, hnone, rfl⟩
  · rintro ⟨rfl, hnone, rfl⟩
    exact h.unique (.malformed hnone proof kept)

theorem Answers.eq_ok_iff (h : Answers result proof text a) {t : Transcript} :
    a = .ok t ↔
      (result = none ∧ t.result = none ∨
        ∃ value n, result = some value ∧ t.result = some n ∧ Denotes value.toList n.toInt) ∧
      t.proof = proof ∧ t.text = text := by
  obtain ⟨told, shown, kept⟩ := t
  constructor
  · rintro rfl
    cases h with
    | unreported => exact ⟨.inl ⟨rfl, rfl⟩, rfl, rfl⟩
    | integer hdenotes => exact ⟨.inr ⟨_, _, rfl, rfl, hdenotes⟩, rfl, rfl⟩
  · rintro ⟨⟨rfl, rfl⟩ | ⟨value, n, rfl, rfl, hdenotes⟩, rfl, rfl⟩
    · exact h.unique (.unreported shown kept)
    · exact h.unique (.integer hdenotes shown kept)

/-- The lines that are kept have no part in the answer. -/
theorem Answers.exists_answer_eq (h : Answers result proof text a) (kept : String) :
    ∃ b, Answers result proof kept b ∧ answer b = answer a := by
  cases h with
  | unreported => exact ⟨_, .unreported _ _, rfl⟩
  | integer hdenotes => exact ⟨_, .integer hdenotes _ _, rfl⟩
  | malformed hnone => exact ⟨_, .malformed hnone _ _, rfl⟩

theorem Answers.answer_eq {kept : String} (h : Answers result proof text a)
    (h' : Answers result proof kept b) : answer a = answer b := by
  obtain ⟨b', hb', hsame⟩ := h'.exists_answer_eq text
  rw [← hsame, h.unique hb']

end

/-- An output text is cut into lines in one way, and of its trimmed lines only the last one that
begins with a marker says anything about it. The result is malformed exactly when the last result
line does not denote a 64-bit integer; otherwise result and proof are what the last lines say. All
lines are kept, with a line feed after each. Texts whose last marker lines say the same have the
same answer. -/
theorem last_marker_lines_decide (stdout : String) :
    ∃ (raw lines : List (List Char)) (result proof : Option String),
      let text := String.ofList (lines.flatMap fun line => line ++ ['\n'])
      (∀ cut, Cut stdout.toList cut ↔ cut = raw) ∧
      (∀ kept, List.Forall₂ Trimmed raw kept ↔ kept = lines) ∧
      (∀ said, LastSays .resultCode lines said ↔ said = result) ∧
      (∀ said, LastSays .proofCode lines said ↔ said = proof) ∧
      (∀ value kept, read stdout = .error ⟨value, kept⟩ ↔
        result = some value ∧ (∀ n : Int64, ¬ Denotes value.toList n.toInt) ∧ kept = text) ∧
      (∀ t, read stdout = .ok t ↔
        (result = none ∧ t.result = none ∨
          ∃ value n, result = some value ∧ t.result = some n ∧ Denotes value.toList n.toInt) ∧
        t.proof = proof ∧ t.text = text) ∧
      ∀ (other : String) (cut kept : List (List Char)), Cut other.toList cut →
        List.Forall₂ Trimmed cut kept → LastSays .resultCode kept result →
        LastSays .proofCode kept proof → answer (read other) = answer (read stdout) := by
  have hanswers := read_answers stdout
  refine ⟨Text.lines stdout.toList, trimmedLines stdout, _, _, fun cut => ?_, fun kept => ?_,
    fun said => lastSays_iff, fun said => lastSays_iff, fun value kept => hanswers.eq_error_iff,
    fun t => hanswers.eq_ok_iff, fun other cut kept hcut hkept hresult hproof => ?_⟩
  · rw [Text.cut_iff]
    exact eq_comm
  · rw [Text.forall₂_trimmed_iff]
    exact eq_comm
  · obtain rfl : trimmedLines other = kept := by
      rw [trimmedLines, Text.cut_iff.mp hcut, Text.forall₂_trimmed_iff.mp hkept]
    have hother := read_answers other
    rw [← hresult.eq_lastRest?, ← hproof.eq_lastRest?] at hother
    exact hother.answer_eq hanswers

end Transcript

end CheckerAudit
