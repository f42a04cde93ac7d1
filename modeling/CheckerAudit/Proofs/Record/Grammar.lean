import CheckerAudit.Proofs.Record.Numbering

/-!
# Reading a text gives the values of its layout

The grammar decides alone: every text has one well-formed layout, and reading never fails and gives
that layout's values, record by record. The lines of the records are not part of this statement.
-/
namespace CheckerAudit.Record

/-- Reading bytes gives what reading characters gives, and no field is refused. -/
theorem read_eq (source : String) :
    ∃ records, Record.read source = .ok records ∧
      records.map Record.fields =
        (scan source.toList).map fun found => found.fields.map String.ofList := by
  refine ⟨_, read_eq_ofChars source, ?_⟩
  rw [Record.ofChars, List.map_map]
  rfl

/-- A text without its mark is written by exactly one layout, and its records have that layout's
values as their fields. -/
theorem read_follows_grammar (source : String) :
    ∃ layout : Layout Char,
      (layout.WellFormed ∧ layout.written = unmarked source.toList) ∧
      (∀ other : Layout Char, other.WellFormed → other.written = unmarked source.toList →
        other = layout) ∧
      ∃ records, Record.read source = .ok records ∧
        records.map Record.fields = layout.values.map fun values => values.map String.ofList := by
  obtain ⟨layout, hwell, hwritten⟩ := Layout.exists_written (unmarked source.toList)
  obtain ⟨records, hrecords, hfields⟩ := read_eq source
  refine ⟨layout, ⟨hwell, hwritten⟩, ?_, records, hrecords, ?_⟩
  · intro other hother hsame
    exact Layout.written_inj hother hwell (hsame.trans hwritten.symm)
  · rw [hfields, ← fields_scan hwell hwritten, List.map_map]
    rfl

example : (Record.read "a:\"b:\"\"c\"d\r\n\n:\"e\n").toOption.map (·.map Record.fields) =
    some [["a", "b:\"cd"], ["", "e\n"]] := by decide +kernel

end CheckerAudit.Record
