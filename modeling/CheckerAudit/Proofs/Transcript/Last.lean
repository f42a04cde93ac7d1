import CheckerAudit.Proofs.Transcript.Text

/-!
# A transcript is what its last marker lines say

No line begins with both markers, so each line changes what is reported about at most one of them.
Reading on replaces it at every line with that marker, and leaves the last one.
-/
namespace CheckerAudit

namespace Marker

theorem rest?_eq_none_of_head {m : Marker} {line : List Char}
    (h : line.head? ≠ m.spelling.toList.head?) : m.rest? line = none := by
  unfold rest?
  refine if_neg fun hprefix => ?_
  obtain ⟨rest, rfl⟩ := List.isPrefixOf_iff_prefix.mp hprefix
  cases m <;> exact h rfl

/-- The two spellings differ in their first letter, so a line begins with one of them at most. -/
theorem rest?_eq_none_of_rest? {m other : Marker} {line rest : List Char} (hne : other ≠ m)
    (h : m.rest? line = some rest) : other.rest? line = none := by
  have hhead : line.head? = m.spelling.toList.head? := by
    by_cases hhead : line.head? = m.spelling.toList.head?
    · exact hhead
    · rw [rest?_eq_none_of_head hhead] at h
      cases h
  refine rest?_eq_none_of_head ?_
  rw [hhead]
  cases m <;> cases other <;> first | exact absurd rfl hne | decide

@[simp] theorem rest?_spelling (m : Marker) (rest : List Char) :
    m.rest? (m.spelling.toList ++ rest) = some rest := by
  have hprefix : m.spelling.toList.isPrefixOf (m.spelling.toList ++ rest) = true :=
    List.isPrefixOf_iff_prefix.mpr (List.prefix_append _ _)
  rw [rest?, if_pos hprefix, ← String.length_toList, List.drop_left]

theorem split?_of_rest? {m : Marker} {line rest : List Char} (h : m.rest? line = some rest) :
    split? line = some (m, rest) := by
  unfold split? all
  cases m with
  | resultCode => rw [List.findSome?_cons, h, Option.map_some]
  | proofCode =>
    have hother : rest? .resultCode line = none := rest?_eq_none_of_rest? (by decide) h
    rw [List.findSome?_cons, hother, Option.map_none, List.findSome?_cons, h, Option.map_some]

theorem split?_eq_none {line : List Char} (h : ∀ m : Marker, m.rest? line = none) :
    split? line = none := by
  rw [split?, List.findSome?_eq_none_iff]
  intro m _
  rw [h m, Option.map_none]

end Marker

namespace Transcript

/-- What a proof line reports, from what follows its marker. -/
def proofOf (rest : List Char) : Option String :=
  some (.ofList (Text.trimChars rest))

/-- A line with a marker replaces what was reported about that marker, and nothing else. -/
theorem Scan.push_eq (s : Scan) (raw : List Char) :
    let line := Text.trimChars raw
    s.push raw =
      { reported := ((Marker.resultCode.rest? line).map Reported.ofRest).getD s.reported
        proof := ((Marker.proofCode.rest? line).map proofOf).getD s.proof
        lines := line :: s.lines } := by
  intro line
  cases hresult : Marker.resultCode.rest? line with
  | some rest =>
    have hproof : Marker.proofCode.rest? line = none :=
      Marker.rest?_eq_none_of_rest? (by decide) hresult
    have hsplit : Marker.split? (Text.trimChars raw) = _ := Marker.split?_of_rest? hresult
    simp only [Scan.push, hsplit, hproof]
    rfl
  | none =>
    cases hproof : Marker.proofCode.rest? line with
    | some rest =>
      have hsplit : Marker.split? (Text.trimChars raw) = _ := Marker.split?_of_rest? hproof
      simp only [Scan.push, hsplit]
      rfl
    | none =>
      have hsplit : Marker.split? (Text.trimChars raw) = none := by
        refine Marker.split?_eq_none fun m => ?_
        cases m
        · exact hresult
        · exact hproof
      simp only [Scan.push, hsplit]
      rfl

/-- What every line with a marker replaces is in the end what the last of them says. -/
theorem Scan.foldl_push_of_replaces {β : Type} {view : Scan → β} {m : Marker} {say : List Char → β}
    (hpush : ∀ s raw, view (Scan.push s raw) =
      ((m.rest? (Text.trimChars raw)).map say).getD (view s)) (s : Scan) (raws : List (List Char)) :
    view (raws.foldl Scan.push s) =
      (((raws.map Text.trimChars).filterMap m.rest?).getLast?.map say).getD (view s) := by
  induction raws generalizing s with
  | nil => rfl
  | cons raw raws ih =>
    rw [List.foldl_cons, ih, hpush, List.map_cons]
    cases hrest : m.rest? (Text.trimChars raw) with
    | none => rw [List.filterMap_cons_none hrest]; rfl
    | some rest =>
      rw [List.filterMap_cons_some hrest, List.getLast?_cons]
      cases ((raws.map Text.trimChars).filterMap m.rest?).getLast? <;> rfl

/-- The transcript of an output text, from what follows the last result marker and the last proof
marker at the start of a line. -/
theorem read_eq (stdout : String) :
    let lines := trimmedLines stdout
    let proof := (lastRest? .proofCode lines).map String.ofList
    let text := String.ofList (Text.joinLines lines)
    read stdout =
      match lastRest? .resultCode lines with
      | none => .ok ⟨none, proof, text⟩
      | some value =>
        match Numeral.readInt64 (.ofList value) with
        | .ok n => .ok ⟨some n, proof, text⟩
        | .error _ => .error ⟨.ofList value, text⟩ := by
  intro lines proof text
  let scanned := (Text.lines stdout.toList).foldl Scan.push {}
  have hreported : scanned.reported =
      ((lines.filterMap Marker.resultCode.rest?).getLast?.map Reported.ofRest).getD .nothing :=
    Scan.foldl_push_of_replaces (fun s raw => by rw [Scan.push_eq]) {} _
  have hproof : scanned.proof = proof := by
    have hlast : scanned.proof =
        ((lines.filterMap Marker.proofCode.rest?).getLast?.map proofOf).getD none :=
      Scan.foldl_push_of_replaces (fun s raw => by rw [Scan.push_eq]) {} _
    simp only [hlast, proof, lastRest?]
    cases (lines.filterMap Marker.proofCode.rest?).getLast? <;> rfl
  have htext : scanned.text = text := by
    rw [← textOf_eq_text, textOf_eq]
  have hfinish : read stdout = scanned.finish := rfl
  rw [hfinish, Scan.finish, hreported, hproof, htext, lastRest?]
  cases (lines.filterMap Marker.resultCode.rest?).getLast? with
  | none => rfl
  | some rest =>
    simp only [Option.map_some, Option.getD_some, Reported.ofRest]
    cases Numeral.readInt64 (.ofList (Text.trimChars rest)) <;> rfl

/-! ### Reading the text of a transcript -/

/-- A transcript of the text of a transcript is the same one. -/
theorem read_textOf (stdout : String) : read (textOf stdout) = read stdout := by
  rw [read_eq, trimmedLines_textOf, ← read_eq]

variable {stdout : String}

theorem read_text_of_ok {t : Transcript} (h : read stdout = .ok t) : read t.text = .ok t := by
  have htext : textOf stdout = t.text := by rw [textOf, h]
  rw [← htext, read_textOf, h]

theorem read_text_of_error {m : MalformedResult} (h : read stdout = .error m) :
    read m.text = .error m := by
  have htext : textOf stdout = m.text := by rw [textOf, h]
  rw [← htext, read_textOf, h]

@[simp] theorem textOf_textOf (stdout : String) : textOf (textOf stdout) = textOf stdout := by
  rw [textOf, read_textOf, textOf]

end Transcript

end CheckerAudit
