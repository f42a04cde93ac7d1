import CheckerAudit.Proofs.Catalog.Records
import CheckerAudit.Proofs.Numeral.Offence
import CheckerAudit.Proofs.Record.Numbering
import CheckerAudit.Proofs.Text.Blank
import CheckerAudit.Proofs.Transcript.Answer

/-!
# Expected and reported results are read alike

A text has one meaning as the second field of a catalog record and behind the result marker of an
output line. The catalog trims the field; the transcript trims the line, takes the marker off and
trims again. What both read is the same.
-/
namespace CheckerAudit

open Numeral (Accumulates Denotes Fault Faulty SplitsSign signed64)
open Text (Cut trimChars)

namespace Catalog

section
variable {source path task f log : String} {before after : List Record} {r : Record}
  {first : List Case} (hread : Record.read source = .ok (before ++ r :: after))
  (hfirst : (ofRecords path before).value = .ok first)

include hread hfirst

/-- Once the records before it are cases or passed over, a record decides over its catalog. -/
theorem value_parse_field :
    (parse source path).value = (ofRecords path (r :: after)).value.map (first ++ ·) := by
  simp only [parse, hread]
  rw [value_ofRecords_append, hfirst]

theorem value_parse_eq_ok_iff (hr : r.fields = [task, f, log]) {later : List Case}
    (hlater : (ofRecords path after).value = .ok later) {n : Int64} :
    (parse source path).value = .ok (first ++ ⟨task, n, Text.trim log, r.line⟩ :: later) ↔
      Denotes (trimChars f.toList) n.toInt := by
  rw [value_parse_field hread hfirst, ← Text.toList_trim, ← Numeral.readInt64_eq_ok_iff]
  cases hvalue : Numeral.readInt64 (Text.trim f) with
  | error fault =>
    rw [value_ofRecords_invalid path hr hvalue]
    exact ⟨nofun, nofun⟩
  | ok m =>
    rw [value_ofRecords_case path hr hvalue, hlater]
    constructor
    · intro h
      have hcases := List.append_cancel_left (Except.ok.inj h)
      have hcase : Case.expected _ = Case.expected _ := congrArg _ (List.cons.inj hcases).1
      exact congrArg Except.ok hcase
    · intro h
      obtain rfl := Except.ok.inj h
      rfl

theorem value_parse_eq_error_iff (hr : r.fields = [task, f, log]) {fault : Fault} :
    (parse source path).value = .error (.invalidExpectedResult path r.line f fault) ↔
      Faulty signed64 (trimChars f.toList) fault := by
  rw [value_parse_field hread hfirst, ← Text.toList_trim, ← Numeral.readInt64_eq_error_iff]
  constructor
  · intro h
    cases hvalue : (ofRecords path (r :: after)).value with
    | ok cases =>
      rw [hvalue] at h
      cases h
    | error e =>
      rw [hvalue] at h
      obtain rfl := Except.error.inj h
      exact readInt64_of_invalidExpectedResult path hvalue
  · intro h
    rw [value_ofRecords_invalid path hr h]
    rfl

end

end Catalog

namespace Transcript

section
variable {stdout f : String} {before after : List (List Char)}
  (hcut : Cut stdout.toList (before ++ (Marker.resultCode.spelling.toList ++ f.toList) :: after))
  (hlast : ∀ line ∈ after, ¬ Marker.resultCode.spelling.toList <+: trimChars line)

include hcut hlast

/-- Of a line with the result marker, what follows it is read, trimmed by itself. -/
theorem lastSays_field :
    LastSays .resultCode (trimmedLines stdout) (some (.ofList (trimChars f.toList))) := by
  obtain ⟨rest, hline, hrest⟩ := Text.trimChars_append (a := Marker.resultCode.spelling.toList)
    (by decide) (by decide) f.toList
  have hlines : trimmedLines stdout = before.map trimChars ++
      (Marker.resultCode.spelling.toList ++ rest) :: after.map trimChars := by
    rw [trimmedLines, Text.cut_iff.mp hcut, List.map_append, List.map_cons, hline]
  refine LastSays.told _ hlines (fun line hmem => ?_) (Text.trimmed_iff.mpr hrest)
  obtain ⟨raw, hraw, rfl⟩ := List.mem_map.mp hmem
  exact hlast raw hraw

theorem read_field :
    ∃ proof text, Answers (some (.ofList (trimChars f.toList))) proof text (read stdout) := by
  have hanswers := read_answers stdout
  rw [← (lastSays_field hcut hlast).eq_lastRest?] at hanswers
  exact ⟨_, _, hanswers⟩

end

section
variable {value : String} {proof : Option String} {text : String}
  {a : Except MalformedResult Transcript}

theorem Answers.exists_ok_iff (h : Answers (some value) proof text a) {n : Int64} :
    (∃ t, a = .ok t ∧ t.result = some n) ↔ Denotes value.toList n.toInt := by
  constructor
  · rintro ⟨t, ht, hresult⟩
    obtain ⟨⟨hnone, -⟩ | ⟨other, m, hother, hm, hdenotes⟩, -⟩ := h.eq_ok_iff.mp ht
    · cases hnone
    · obtain rfl := Option.some.inj hother
      rw [hresult] at hm
      obtain rfl := Option.some.inj hm
      exact hdenotes
  · intro hdenotes
    exact ⟨⟨some n, proof, text⟩, h.unique (.integer hdenotes proof text), rfl⟩

theorem Answers.exists_error_iff (h : Answers (some value) proof text a) :
    (∃ m, a = .error m ∧ m.value = value) ↔ ∀ n : Int64, ¬ Denotes value.toList n.toInt := by
  constructor
  · rintro ⟨⟨other, kept⟩, hm, -⟩
    obtain ⟨hother, hnone, -⟩ := h.eq_error_iff.mp hm
    obtain rfl := Option.some.inj hother
    exact hnone
  · intro hnone
    exact ⟨⟨value, text⟩, h.unique (.malformed hnone proof text), rfl⟩

end

end Transcript

/-- A field that denotes a 64-bit integer, once trimmed, is that expected result in a catalog and
that reported result behind a result marker; no other field is either. It refuses its catalog with
the fault of its leftmost offending character, and makes a transcript malformed. A literal that is
accepted is accumulated within the range. -/
theorem integers_read_alike (f : String) :
    let value := trimChars f.toList
    (∀ source path before r after task log first,
      Record.read source = .ok (before ++ r :: after) → r.fields = [task, f, log] →
      (Catalog.ofRecords path before).value = .ok first →
        (∀ n later, (Catalog.ofRecords path after).value = .ok later →
          ((Catalog.parse source path).value =
              .ok (first ++ ⟨task, n, Text.trim log, r.line⟩ :: later) ↔ Denotes value n.toInt)) ∧
        ∀ fault, (Catalog.parse source path).value =
          .error (.invalidExpectedResult path r.line f fault) ↔ Faulty signed64 value fault) ∧
    (∀ stdout before after,
      Cut stdout.toList (before ++ (Marker.resultCode.spelling.toList ++ f.toList) :: after) →
      (∀ line ∈ after, ¬ Marker.resultCode.spelling.toList <+: trimChars line) →
        (∀ n, (∃ t, Transcript.read stdout = .ok t ∧ t.result = some n) ↔
          Denotes value n.toInt) ∧
        ((∃ m, Transcript.read stdout = .error m ∧ m.value = .ofList value) ↔
          ∃ fault, Faulty signed64 value fault)) ∧
    ((∃ fault, Faulty signed64 value fault) ↔
      ∀ v, Denotes value v → ¬ (-9223372036854775808 ≤ v ∧ v ≤ 9223372036854775807)) ∧
    (Faulty signed64 value .empty ↔ value = []) ∧
    ∀ (n : Int64) negative digits, Denotes value n.toInt → SplitsSign value negative digits →
      Accumulates signed64 negative digits := by
  intro value
  refine ⟨?_, ?_, ?_, Numeral.faulty_empty_iff, ?_⟩
  · intro source path before r after task log first hread hr hfirst
    constructor
    · intro n later hlater
      exact Catalog.value_parse_eq_ok_iff hread hfirst hr hlater
    · intro fault
      exact Catalog.value_parse_eq_error_iff hread hfirst hr
  · intro stdout before after hcut hlast
    obtain ⟨proof, text, hanswers⟩ := Transcript.read_field hcut hlast
    constructor
    · intro n
      rw [hanswers.exists_ok_iff, String.toList_ofList]
    · rw [hanswers.exists_error_iff, String.toList_ofList, Numeral.exists_faulty_iff]
  · rw [Numeral.exists_faulty_iff]
    constructor
    · rintro h v hdenotes ⟨hlow, hhigh⟩
      apply h (.ofInt v)
      rwa [Int64.toInt_ofInt_of_le hlow (Int.lt_add_one_of_le hhigh)]
    · intro h n hdenotes
      exact h n.toInt hdenotes ⟨Int64.le_toInt n, Int64.toInt_le n⟩
  · intro n negative digits hdenotes hsign
    exact hdenotes.accumulates hsign

/-- The least 64-bit integer in padding, behind a record that is passed over and a line whose result
is none. -/
theorem least_integer_read_alike :
    let f := " -9223372036854775808 "
    let source := "u:7\nt: -9223372036854775808 :l"
    let stdout := "Result code: x\nResult code: -9223372036854775808 \nCode string: 0"
    Record.read source = .ok [⟨1, ["u", "7"]⟩, ⟨2, ["t", f, "l"]⟩] ∧
      (Catalog.parse source "cases").value = .ok [⟨"t", Int64.minValue, "l", 2⟩] ∧
      (∃ t, Transcript.read stdout = .ok t ∧ t.result = some Int64.minValue) ∧
      (∀ fault, ¬ Faulty signed64 (trimChars f.toList) fault) ∧
      Accumulates signed64 true "9223372036854775808".toList := by
  intro f source stdout
  have hread : Record.read source = .ok [⟨1, ["u", "7"]⟩, ⟨2, ["t", f, "l"]⟩] := by
    rw [Record.read_eq_ofChars]
    decide +kernel
  have hcut : Cut stdout.toList ["Result code: x".toList,
      Marker.resultCode.spelling.toList ++ f.toList, "Code string: 0".toList] := by
    rw [Text.cut_iff]
    decide +kernel
  have hvalue : trimChars f.toList = '-' :: "9223372036854775808".toList := by decide +kernel
  have hdigits : Numeral.AreDigits "9223372036854775808".toList :=
    ⟨by decide, List.all_eq_true.mp (by decide)⟩
  have hdenotes : Denotes (trimChars f.toList) Int64.minValue.toInt := by
    rw [hvalue]
    exact .minus hdigits
  obtain ⟨hcatalog, htranscript, hfaulty, -, haccumulates⟩ := integers_read_alike f
  obtain ⟨hcase, -⟩ := hcatalog source "cases" [⟨1, ["u", "7"]⟩] ⟨2, ["t", f, "l"]⟩ [] "t" "l" []
    hread rfl rfl
  obtain ⟨hresult, -⟩ := htranscript stdout ["Result code: x".toList] ["Code string: 0".toList]
    hcut (by decide)
  refine ⟨hread, (hcase Int64.minValue [] rfl).mpr hdenotes, (hresult _).mpr hdenotes, ?_, ?_⟩
  · intro fault hfault
    refine hfaulty.mp ⟨fault, hfault⟩ _ hdenotes ⟨?_, ?_⟩ <;> decide
  · exact haccumulates _ true _ hdenotes (hvalue ▸ .minus _)

end CheckerAudit
