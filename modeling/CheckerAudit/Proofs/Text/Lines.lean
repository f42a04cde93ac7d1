import CheckerAudit.Text.Lines

/-!
# The lines of a text are those between its ends

`Cut` says what the lines of a text are without reading it from the left; every text is cut in one
way. Lines that hold no line feed, and no carriage return at their end, are the lines of the text
that has a line feed after each of them.
-/
namespace CheckerAudit.Text

theorem linesFrom_line {l : List Char} (h : '\n' ∉ l) (line rest : List Char) :
    linesFrom line (l ++ '\n' :: rest) = (dropReturn (l.reverse ++ line)).reverse :: lines rest := by
  induction l generalizing line with
  | nil => rfl
  | cons c l ih =>
    have hc : c ≠ '\n' := fun heq => h (heq ▸ List.mem_cons_self)
    have hl : '\n' ∉ l := fun hmem => h (List.mem_cons_of_mem c hmem)
    rw [List.cons_append, linesFrom, if_neg hc, ih hl, List.reverse_cons, List.append_assoc,
      List.singleton_append]

/-- A line that a line feed can end without taking a character of it away. -/
structure Printable (l : List Char) : Prop where
  noLineFeed : '\n' ∉ l
  noReturn : l.getLast? ≠ some '\r'

theorem Printable.dropReturn_reverse {l : List Char} (h : Printable l) :
    dropReturn l.reverse = l.reverse := by
  have hhead : l.reverse.head? ≠ some '\r' := by
    rw [List.head?_reverse]
    exact h.noReturn
  unfold dropReturn
  split
  · next hcons => exact absurd (by rw [hcons]; rfl) hhead
  · rfl

theorem lines_joinLines {ls : List (List Char)} (h : ∀ l ∈ ls, Printable l) :
    lines (joinLines ls) = ls := by
  induction ls with
  | nil => rfl
  | cons l ls ih =>
    have hl := h l List.mem_cons_self
    have hjoined : joinLines (l :: ls) = l ++ '\n' :: joinLines ls := by
      rw [joinLines, List.flatMap_cons, List.append_assoc, List.singleton_append, joinLines]
    rw [hjoined, lines, linesFrom_line hl.noLineFeed, List.append_nil, hl.dropReturn_reverse,
      List.reverse_reverse, ih fun m hm => h m (List.mem_cons_of_mem l hm)]

/-! ### Every text is cut in one way -/

/-- A text cut into lines. A line feed ends a line, by itself or with a carriage return before it.
The last line needs no end if it is not empty, and a carriage return anywhere else is no end. -/
inductive Cut : List Char → List (List Char) → Prop where
  | nothing : Cut [] []
  | unended {line : List Char} (nonempty : line ≠ []) (whole : '\n' ∉ line) : Cut line [line]
  | lineFeed {line text : List Char} {ls : List (List Char)} (printable : Printable line)
    (rest : Cut text ls) : Cut (line ++ '\n' :: text) (line :: ls)
  | returned {line text : List Char} {ls : List (List Char)} (whole : '\n' ∉ line)
    (rest : Cut text ls) : Cut (line ++ '\r' :: '\n' :: text) (line :: ls)

theorem linesFrom_unended {l : List Char} (h : '\n' ∉ l) (line : List Char) :
    linesFrom line l = linesFrom (l.reverse ++ line) [] := by
  induction l generalizing line with
  | nil => rfl
  | cons c l ih =>
    have hc : c ≠ '\n' := fun heq => h (heq ▸ List.mem_cons_self)
    have hl : '\n' ∉ l := fun hmem => h (List.mem_cons_of_mem c hmem)
    have hstep : linesFrom line (c :: l) = linesFrom (c :: line) l := if_neg hc
    rw [hstep, ih hl, List.reverse_cons, List.append_assoc, List.singleton_append]

theorem lines_of_cut {text : List Char} {ls : List (List Char)} (h : Cut text ls) :
    lines text = ls := by
  induction h with
  | nothing => rfl
  | @unended line hnonempty hwhole =>
    rw [lines, linesFrom_unended hwhole, List.append_nil, linesFrom, List.isEmpty_reverse,
      List.isEmpty_eq_false_iff.mpr hnonempty, List.reverse_reverse]
    rfl
  | lineFeed hprintable _ ih =>
    rw [lines, linesFrom_line hprintable.noLineFeed, List.append_nil,
      hprintable.dropReturn_reverse, List.reverse_reverse, ih]
  | @returned line text _ hwhole _ ih =>
    have hline : '\n' ∉ line ++ ['\r'] := by simpa using hwhole
    have happend : line ++ '\r' :: '\n' :: text = (line ++ ['\r']) ++ '\n' :: text := by simp
    rw [happend, lines, linesFrom_line hline, List.append_nil, List.reverse_append, ih]
    change (dropReturn ('\r' :: line.reverse)).reverse :: _ = _
    rw [dropReturn, List.reverse_reverse]

/-- A line feed cuts off the line that is held, whatever its last character is. -/
theorem cut_lineFeed {line text : List Char} {ls : List (List Char)} (hwhole : '\n' ∉ line)
    (hrest : Cut text ls) :
    Cut (line.reverse ++ '\n' :: text) ((dropReturn line).reverse :: ls) := by
  by_cases hreturn : ∃ before, line = '\r' :: before
  · obtain ⟨before, rfl⟩ := hreturn
    have hbefore : '\n' ∉ before.reverse := by simpa using hwhole
    simpa [dropReturn] using Cut.returned hbefore hrest
  · have hline : Printable line.reverse := by
      refine ⟨by simpa using hwhole, ?_⟩
      rw [List.getLast?_reverse]
      intro hhead
      exact hreturn (List.head?_eq_some_iff.mp hhead)
    have hkept := hline.dropReturn_reverse
    rw [List.reverse_reverse] at hkept
    rw [hkept]
    exact .lineFeed hline hrest

theorem cut_linesFrom {line text : List Char} (hwhole : '\n' ∉ line) :
    Cut (line.reverse ++ text) (linesFrom line text) := by
  -- The line that is held is part of the text in front of what is still to be read.
  induction text generalizing line with
  | nil =>
    rw [linesFrom, List.append_nil]
    by_cases hempty : line = []
    · subst hempty
      exact .nothing
    · rw [List.isEmpty_eq_false_iff.mpr hempty]
      exact .unended (by simpa using hempty) (by simpa using hwhole)
  | cons c text ih =>
    by_cases hc : c = '\n'
    · subst hc
      rw [linesFrom, if_pos rfl]
      have hrest : Cut text (linesFrom [] text) := ih List.not_mem_nil
      exact cut_lineFeed hwhole hrest
    · have hheld : '\n' ∉ c :: line := by simpa [Ne.symm hc] using hwhole
      have hcut := ih hheld
      rw [List.reverse_cons, List.append_assoc, List.singleton_append] at hcut
      rw [linesFrom, if_neg hc]
      exact hcut

theorem cut_iff {text : List Char} {ls : List (List Char)} : Cut text ls ↔ lines text = ls := by
  constructor
  · exact lines_of_cut
  · rintro rfl
    exact cut_linesFrom List.not_mem_nil

/-- No line holds a line feed. -/
theorem Cut.whole {text : List Char} {ls : List (List Char)} (h : Cut text ls) :
    ∀ line ∈ ls, '\n' ∉ line := by
  induction h with
  | nothing => nofun
  | unended _ hwhole => exact List.forall_mem_singleton.mpr hwhole
  | lineFeed hprintable _ ih => exact List.forall_mem_cons.mpr ⟨hprintable.noLineFeed, ih⟩
  | returned hwhole _ ih => exact List.forall_mem_cons.mpr ⟨hwhole, ih⟩

/-! ### A text in parts -/

/-- A line feed at the end of a text keeps its lines apart from those of any text behind it. -/
theorem lines_append_of_ended {front : List Char} (h : front = [] ∨ front.getLast? = some '\n')
    (rest : List Char) : lines (front ++ rest) = lines front ++ lines rest := by
  rcases h with rfl | h
  · rfl
  · obtain ⟨earlier, rfl⟩ := List.getLast?_eq_some_iff.mp h
    rw [List.append_assoc, List.singleton_append]
    exact linesFrom_append_lineFeed [] earlier rest

theorem lines_of_whole {line : List Char} (h : '\n' ∉ line) :
    lines line = if line.isEmpty then [] else [line] := by
  rw [lines, linesFrom_unended h, List.append_nil, linesFrom, List.isEmpty_reverse,
    List.reverse_reverse]

end CheckerAudit.Text
