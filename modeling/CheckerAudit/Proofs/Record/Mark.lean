import CheckerAudit.Proofs.Record.Numbering

/-!
# A mark before a text moves its first record

A mark that opens a text adds nothing to the fields of any record. The search for the first record
begins before the mark, and the mark is no terminator, so line feeds that stand between the mark and
the first record are not counted for that record. They are counted for every record behind it.
-/
namespace CheckerAudit.Record

/-- The same records with the first one on line 1. -/
def onFirstLine : List Record → List Record
  | [] => []
  | r :: records => { r with line := 1 } :: records

theorem onFirstLine_numbered_iff (line : Nat) (records : List (RecordForm Char)) :
    onFirstLine (numbered line records) = numbered line records ↔
      numbered line records = [] ∨ line = 1 := by
  cases records with
  | nil => simp [numbered, onFirstLine]
  | cons r records =>
    rw [numbered, onFirstLine]
    constructor
    · intro h
      exact .inr (congrArg Record.line (List.cons.inj h).1).symm
    · rintro (h | rfl)
      · cases h
      · rfl

/-- What is read behind a mark is what is read without it, but for the first record's line. -/
theorem ofChars_marked (text : List Char) :
    Record.ofChars ('\uFEFF' :: text) = onFirstLine (continued text) := by
  obtain ⟨l, hwell, rfl⟩ := Layout.exists_written text
  have hscan : scan ('\uFEFF' :: l.written) = foundFrom 0 (1 + l.leading.length) l.records :=
    scan_layout hwell rfl
  rw [continued_layout hwell, Record.ofChars, hscan]
  cases hl : l.records with
  | nil => rfl
  | cons r records =>
    have hrecords := (l.wellFormed_iff.mp hwell).2
    rw [hl] at hrecords
    have hwritten : '\uFEFF' :: l.leading ++ writtenRecords (r :: records) =
        '\uFEFF' :: l.written := by
      rw [List.cons_append, Layout.written, hl, writtenRecords]
    have hfirst : lineAt ('\uFEFF' :: l.written).toArray 0 = 1 := by
      have hrun : ('\uFEFF' :: l.written).drop 0 = [] ++ '\uFEFF' :: l.written := rfl
      rw [lineAt_run hrun (List.forall_mem_nil _) fun a ha => by obtain rfl := Option.some.inj ha; rfl]
      rfl
    have hlength : ('\uFEFF' :: l.leading).length = 1 + l.leading.length := by
      rw [List.length_cons, Nat.add_comm]
    have hcount : ('\uFEFF' :: l.leading ++ r.written ++ r.ending).count Alphabet.lineFeed =
        l.leading.count Alphabet.lineFeed + (r.written ++ r.ending).count Alphabet.lineFeed := by
      rw [List.append_assoc, List.cons_append, List.count_cons_of_ne (by decide), List.count_append]
    have hbehind := foundLines_behind hrecords ('\uFEFF' :: l.leading)
    rw [hwritten, hlength, hcount, ← Nat.add_assoc] at hbehind
    rw [foundFrom, numbered, onFirstLine, List.map_cons, hfirst]
    refine congrArg (List.cons (⟨1, r.values.map String.ofList⟩ : Record)) (ext_lines_fields ?_ ?_)
    · rw [map_line_numbered, List.map_map]
      exact hbehind
    · rw [map_fields_numbered, List.map_map]
      exact map_texts_foundFrom records _ _

theorem takeWhile_written {l : Layout Char} (h : l.WellFormed) :
    l.written.takeWhile isTerminator = l.leading := by
  obtain ⟨hleading, hrecords⟩ := l.wellFormed_iff.mp h
  have hrest : (writtenRecords l.records).takeWhile isTerminator = [] := by
    cases hwritten : writtenRecords l.records with
    | nil => rfl
    | cons c rest =>
      have hc := hrecords.head_not_terminator (a := c) (by rw [hwritten]; rfl)
      exact List.takeWhile_cons_of_neg (by rw [hc]; exact Bool.false_ne_true)
  calc l.written.takeWhile isTerminator
      = l.leading ++ (writtenRecords l.records).takeWhile isTerminator :=
        List.takeWhile_append_of_pos hleading
    _ = l.leading := by rw [hrest, List.append_nil]

/-- Behind a mark the same records are read, the first one on line 1 whatever line feeds stand
before it. So nothing changes exactly when there is no record, or no line feed before the first. -/
theorem read_behind_mark (s : String) (h : s.toList.head? ≠ some '\uFEFF') :
    ∃ records, Record.read s = .ok records ∧
      Record.read ("\uFEFF" ++ s) = .ok (onFirstLine records) ∧
      (Record.read ("\uFEFF" ++ s) = Record.read s ↔
        records = [] ∨ '\n' ∉ s.toList.takeWhile isTerminator) := by
  have hplain : Record.read s = .ok (continued s.toList) := by
    rw [read_eq_ofChars, ofChars_of_not_mark (not_mark_of_head h)]
  have hmarked : Record.read ("\uFEFF" ++ s) = .ok (onFirstLine (continued s.toList)) := by
    rw [read_eq_ofChars, String.toList_append]
    exact congrArg Except.ok (ofChars_marked s.toList)
  refine ⟨continued s.toList, hplain, hmarked, ?_⟩
  obtain ⟨l, hwell, hwritten⟩ := Layout.exists_written s.toList
  rw [hplain, hmarked, Except.ok.injEq, ← hwritten, continued_layout hwell, takeWhile_written hwell,
    onFirstLine_numbered_iff]
  have hline : 1 + l.leading.count Alphabet.lineFeed = 1 ↔ '\n' ∉ l.leading := by
    rw [← List.count_eq_zero]
    exact Nat.add_eq_left
  rw [hline]

theorem read_behind_mark_plain :
    "b:\n\na".toList.head? ≠ some '\uFEFF' ∧
      Record.read ("\uFEFF" ++ "b:\n\na") = Record.read "b:\n\na" := by
  have h : "b:\n\na".toList.head? ≠ some '\uFEFF' := by decide
  obtain ⟨records, _, _, hiff⟩ := read_behind_mark "b:\n\na" h
  exact ⟨h, hiff.mpr (.inr (by decide))⟩

/-- A line feed between the mark and the first record is not counted. -/
theorem mark_hides_line_feed :
    "\na".toList.head? ≠ some '\uFEFF' ∧
      Record.read "\na" = .ok [⟨2, ["a"]⟩] ∧
      Record.read ("\uFEFF" ++ "\na") = .ok [⟨1, ["a"]⟩] ∧
      Record.read ("\uFEFF" ++ "\na") ≠ Record.read "\na" := by
  have hplain : Record.read "\na" = .ok [⟨2, ["a"]⟩] :=
    (read_eq_ofChars "\na").trans (congrArg Except.ok (by decide +kernel))
  have hmarked : Record.read ("\uFEFF" ++ "\na") = .ok [⟨1, ["a"]⟩] :=
    (read_eq_ofChars ("\uFEFF" ++ "\na")).trans (congrArg Except.ok (by decide +kernel))
  refine ⟨by decide, hplain, hmarked, ?_⟩
  rw [hplain, hmarked]
  simp

end CheckerAudit.Record
