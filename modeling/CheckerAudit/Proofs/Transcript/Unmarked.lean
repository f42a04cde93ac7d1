import CheckerAudit.Proofs.Text.Blank
import CheckerAudit.Proofs.Transcript.Answer

/-!
# A line without a marker has no part in the answer

Such a line may hold anything but a line feed, and may stand anywhere between the other lines: what
a transcript answers is what it would answer to the lines around it.
-/
namespace CheckerAudit

open Text (dropReturn isBlank lines trimChars)

/-- The carriage return that goes with the end of a line is one that trimming takes as well. -/
theorem Text.trimChars_dropReturn (line : List Char) :
    trimChars (dropReturn line.reverse).reverse = trimChars line := by
  cases hline : line.reverse with
  | nil =>
    obtain rfl : line = [] := List.reverse_eq_nil_iff.mp hline
    rfl
  | cons c before =>
    by_cases hc : c = '\r'
    · subst hc
      have hblank : ∀ c ∈ ['\r'], isBlank c = true :=
        List.forall_mem_singleton.mpr Text.isBlank_carriageReturn
      have hsplit : line = before.reverse ++ ['\r'] := by
        rw [← List.reverse_cons, ← hline, List.reverse_reverse]
      rw [hsplit, Text.trimChars_append_blank before.reverse hblank]
      rfl
    · have hkept : dropReturn (c :: before) = c :: before := by
        unfold dropReturn
        split
        · next hcons => exact absurd (List.cons.inj hcons).1 hc
        · rfl
      rw [hkept, ← hline, List.reverse_reverse]

namespace Transcript

variable {m : Marker} {front line back : List Char}

/-- What follows a marker at the start of a line of a text, line by line. -/
def rests (m : Marker) (text : List Char) : List (List Char) :=
  ((lines text).map trimChars).filterMap m.rest?

theorem rests_append_of_ended (h : front = [] ∨ front.getLast? = some '\n') (rest : List Char) :
    rests m (front ++ rest) = rests m front ++ rests m rest := by
  rw [rests, Text.lines_append_of_ended h, List.map_append, List.filterMap_append, rests, rests]

theorem rests_unmarked (hwhole : '\n' ∉ line) (hline : ¬ m.spelling.toList <+: trimChars line)
    (hback : back = [] ∨ back.head? = some '\n') : rests m (line ++ back) = rests m back.tail := by
  have hnone : m.rest? (trimChars line) = none := Marker.rest?_eq_none_iff.mpr hline
  rcases hback with rfl | hback
  · rw [List.append_nil, rests, Text.lines_of_whole hwhole]
    split
    · rfl
    · exact List.filterMap_cons_none hnone
  · obtain ⟨later, rfl⟩ := List.head?_eq_some_iff.mp hback
    rw [rests, lines, Text.linesFrom_line hwhole, List.append_nil, List.map_cons,
      Text.trimChars_dropReturn, List.filterMap_cons_none hnone]
    rfl

/-- What is found in a text with a line that has no marker is found around that line. -/
theorem rests_around (hfront : front = [] ∨ front.getLast? = some '\n') (hwhole : '\n' ∉ line)
    (hline : ¬ m.spelling.toList <+: trimChars line) (hback : back = [] ∨ back.head? = some '\n') :
    rests m (front ++ line ++ back) = rests m front ++ rests m back.tail := by
  rw [List.append_assoc, rests_append_of_ended hfront, rests_unmarked hwhole hline hback]

theorem lastRest?_trimmedLines (m : Marker) (stdout : String) :
    lastRest? m (trimmedLines stdout) = (rests m stdout.toList).getLast?.map trimChars :=
  rfl

/-- Texts with the same remainders of marker lines have the same answer. -/
theorem answer_congr {stdout other : String}
    (h : ∀ m, rests m stdout.toList = rests m other.toList) :
    answer (read stdout) = answer (read other) := by
  have hstdout := read_answers stdout
  rw [lastRest?_trimmedLines, lastRest?_trimmedLines, h, h] at hstdout
  exact hstdout.answer_eq (read_answers other)

end Transcript

end CheckerAudit
