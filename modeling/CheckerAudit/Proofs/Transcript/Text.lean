import CheckerAudit.Proofs.Text.Blank
import CheckerAudit.Proofs.Text.Lines
import CheckerAudit.Transcript

/-!
# The text of a transcript

Whatever the lines of an output text report, and be it well formed or not, the transcript keeps all
of them, trimmed, in order, and each ended by a line feed. The lines of that text are these lines
again, since nothing is left at their ends that trimming or a line feed could take.
-/
namespace CheckerAudit.Transcript

theorem Scan.lines_push (s : Scan) (raw : List Char) :
    (s.push raw).lines = Text.trimChars raw :: s.lines := by
  simp only [Scan.push]
  split <;> rfl

theorem Scan.lines_foldl_push (s : Scan) (raws : List (List Char)) :
    (raws.foldl Scan.push s).lines = (raws.map Text.trimChars).reverse ++ s.lines := by
  induction raws generalizing s with
  | nil => rfl
  | cons raw raws ih =>
    rw [List.foldl_cons, ih, Scan.lines_push, List.map_cons, List.reverse_cons, List.append_assoc,
      List.singleton_append]

/-- The text does not depend on what the lines report. -/
theorem textOf_eq_text (stdout : String) :
    textOf stdout = ((Text.lines stdout.toList).foldl Scan.push {}).text := by
  unfold textOf read Scan.finish
  cases ((Text.lines stdout.toList).foldl Scan.push {}).reported <;> rfl

theorem textOf_eq (stdout : String) :
    textOf stdout = .ofList (Text.joinLines (trimmedLines stdout)) := by
  have hlines := Scan.lines_foldl_push {} (Text.lines stdout.toList)
  rw [List.append_nil] at hlines
  rw [textOf_eq_text, Scan.text, hlines, List.reverse_reverse, trimmedLines]

/-! ### The text is read to the lines that it was made of -/

theorem printable_of_tight {line : List Char} (h : Text.Tight line) (hfeed : '\n' ∉ line) :
    Text.Printable line where
  noLineFeed := hfeed
  noReturn hlast := absurd (h.last '\r' hlast) (by decide)

/-- Lines that trimming leaves alone are read back from the text that ends each of them. -/
theorem trimmedLines_joinLines {ls : List (List Char)} (htight : ∀ line ∈ ls, Text.Tight line)
    (hfeed : ∀ line ∈ ls, '\n' ∉ line) : trimmedLines (.ofList (Text.joinLines ls)) = ls := by
  have hprintable : ∀ line ∈ ls, Text.Printable line :=
    fun line hline => printable_of_tight (htight line hline) (hfeed line hline)
  rw [trimmedLines, String.toList_ofList, Text.lines_joinLines hprintable]
  calc ls.map Text.trimChars
      = ls.map id := List.map_congr_left fun line hline => Text.trimChars_tight (htight line hline)
    _ = ls := List.map_id ls

theorem tight_of_mem_trimmedLines {stdout : String} {line : List Char}
    (h : line ∈ trimmedLines stdout) : Text.Tight line := by
  obtain ⟨raw, -, rfl⟩ := List.mem_map.mp h
  exact Text.tight_trimChars raw

theorem lineFeed_notMem_trimmedLines {stdout : String} {line : List Char}
    (h : line ∈ trimmedLines stdout) : '\n' ∉ line := by
  obtain ⟨raw, hraw, rfl⟩ := List.mem_map.mp h
  have hwhole : '\n' ∉ raw := (Text.cut_iff.mpr rfl).whole raw hraw
  obtain ⟨before, after, hsplit, -, -⟩ := Text.exists_padding raw
  intro hmem
  apply hwhole
  rw [hsplit]
  exact List.mem_append_left after (List.mem_append_right before hmem)

theorem trimmedLines_textOf (stdout : String) :
    trimmedLines (textOf stdout) = trimmedLines stdout := by
  rw [textOf_eq]
  exact trimmedLines_joinLines (fun _ => tight_of_mem_trimmedLines)
    (fun _ => lineFeed_notMem_trimmedLines)

end CheckerAudit.Transcript
