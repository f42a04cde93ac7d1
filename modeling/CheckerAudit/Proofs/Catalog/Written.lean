import CheckerAudit.Catalog.Written
import CheckerAudit.Proofs.Catalog.Records
import CheckerAudit.Proofs.Numeral.Decimal
import CheckerAudit.Proofs.Record.Grammar
import CheckerAudit.Proofs.Text.Blank

/-!
# A written catalog is parsed to its rows

The rows of a catalog are records of one layout: two fields in quotes and a bare one between them.
So the fields come back as they were written, and from those each case, its expected result freed of
the pads and read from its decimal text.
-/
namespace CheckerAudit.Catalog

open Record (FieldForm RecordForm Layout)

/-- The decimal text of the expected result with the pads around it. -/
def Row.padded (r : Row) : List Char :=
  r.before ++ (toString r.expected.toInt).toList ++ r.after

/-- The record that a row is. -/
def Row.form (r : Row) : RecordForm Char where
  fields := [.quoted r.task.toList [], .bare r.padded, .quoted r.log.toList []]
  ending := r.ending

theorem Row.trim_padded {r : Row} (h : r.WellFormed) :
    Text.trimChars r.padded = (toString r.expected.toInt).toList :=
  Text.trimChars_padded (fun c hc => (h.before c hc).1) (Text.inked_intText _).tight
    fun c hc => (h.after c hc).1

/-- Neither pads nor digits mean anything to a reader of records. -/
theorem Row.mem_padded {r : Row} (h : r.WellFormed) {c : Char} (hc : c ∈ r.padded) :
    c ≠ Record.Alphabet.quote ∧ c ≠ Record.Alphabet.delimiter ∧ Record.isTerminator c = false := by
  have hpad (hc : Text.isBlank c = true ∧ Record.isTerminator c = false) :
      c ≠ '"' ∧ c ≠ ':' ∧ Record.isTerminator c = false := by
    obtain ⟨hblank, hends⟩ := hc
    refine ⟨?_, ?_, hends⟩ <;> rintro rfl <;> exact absurd hblank (by decide)
  have hdigit (hc : c ∈ (toString r.expected.toInt).toList) :
      c ≠ '"' ∧ c ≠ ':' ∧ Record.isTerminator c = false := by
    have hbounds := Numeral.bounds_of_mem_intText hc
    have hne (d : Char) (hd : ¬(0x2D ≤ d.toNat ∧ d.toNat ≤ 0x39)) : c ≠ d := by
      rintro rfl
      exact hd hbounds
    refine ⟨hne '"' (by decide), hne ':' (by decide), ?_⟩
    rw [Record.isTerminator, Bool.or_eq_false_iff, decide_eq_false_iff_not,
      decide_eq_false_iff_not]
    exact ⟨hne '\r' (by decide), hne '\n' (by decide)⟩
  rcases List.mem_append.mp hc with hc | hc
  · rcases List.mem_append.mp hc with hc | hc
    · exact hpad (h.before c hc)
    · exact hdigit hc
  · exact hpad (h.after c hc)

theorem Row.wellFormed_form {r : Row} (h : r.WellFormed) : r.form.WellFormed where
  nonempty := List.cons_ne_nil _ _
  fields := by
    have hquoted : ∀ body : List Char, (FieldForm.quoted body []).WellFormed :=
      fun body => ⟨nofun, nofun⟩
    have hbare : (FieldForm.bare r.padded).WellFormed := by
      constructor
      · exact fun hquote => (r.mem_padded h (List.mem_of_head? hquote)).1 rfl
      · exact fun c hc => (r.mem_padded h hc).2
    simp only [form, List.forall_mem_cons]
    exact ⟨hquoted _, hbare, hquoted _, nofun⟩
  closed := by simp [form, FieldForm.isClosed]
  ending := h.ending

/-- The layout of a written catalog. -/
def layout (leading : List Char) (rows : List Row) : Layout Char :=
  ⟨leading, rows.map Row.form⟩

theorem written_layout (leading : List Char) (rows : List Row) :
    (layout leading rows).written = written leading rows := by
  rw [Layout.written, layout, List.flatMap_map]
  rfl

theorem wellFormed_layout {leading : List Char} {rows : List Row}
    (hleading : ∀ c ∈ leading, Record.isTerminator c = true) (hrows : ∀ r ∈ rows, r.WellFormed)
    (hended : ∀ r ∈ rows.dropLast, r.ending ≠ []) : (layout leading rows).WellFormed where
  leading := hleading
  records := List.forall_mem_map.mpr fun r hr => r.wellFormed_form (hrows r hr)
  separated := by
    rw [layout, ← List.map_dropLast]
    exact List.forall_mem_map.mpr hended
  unclosed := by
    refine List.forall_mem_map.mpr fun r _ => ?_
    rintro ⟨f, hf, hopen⟩
    simp only [Row.form, List.mem_cons, List.not_mem_nil, or_false] at hf
    rcases hf with rfl | rfl | rfl <;> cases hopen

/-- A written catalog starts with a terminator or a quote, so with no mark. -/
theorem unmarked_written {leading : List Char} {rows : List Row}
    (hleading : ∀ c ∈ leading, Record.isTerminator c = true) :
    Record.unmarked (written leading rows) = written leading rows := by
  refine if_neg fun hmark => ?_
  obtain ⟨rest, hrest⟩ := List.isPrefixOf_iff_prefix.mp hmark
  cases leading with
  | cons c leading =>
    have hc := hleading c List.mem_cons_self
    rw [← (List.cons.inj hrest).1] at hc
    exact absurd hc (by decide)
  | nil =>
    cases rows with
    | nil => cases hrest
    | cons r rows => exact absurd (List.cons.inj hrest).1 (by decide)

/-- Records with the fields of rows become the rows' cases, and nothing is passed over. -/
theorem ofRecords_rows (path : String) {rows : List Row} (hrows : ∀ r ∈ rows, r.WellFormed)
    {records : List Record}
    (h : records.map Record.fields = rows.map fun r => r.form.values.map String.ofList) :
    ∃ cases, ofRecords path records = ⟨[], .ok cases⟩ ∧
      cases.map (fun c => (c.task, c.expected, c.log)) =
        rows.map fun r => (r.task, r.expected, r.log) := by
  induction rows generalizing records with
  | nil =>
    obtain rfl := List.map_eq_nil_iff.mp h
    exact ⟨[], rfl, rfl⟩
  | cons r rows ih =>
    cases records with
    | nil => cases h
    | cons record records =>
      obtain ⟨hfields, hrest⟩ := List.cons.inj h
      obtain ⟨cases, hcases, hsame⟩ := ih (fun s hs => hrows s (List.mem_cons_of_mem r hs)) hrest
      have hr := hrows r List.mem_cons_self
      have hthree : record.fields = [r.task, String.ofList r.padded, r.log] := by
        rw [hfields]
        simp [Row.form, RecordForm.values, FieldForm.value]
      have hexpected : Numeral.readInt64 (Text.trim (.ofList r.padded)) = .ok r.expected := by
        rw [Text.trim, String.toList_ofList, r.trim_padded hr, String.ofList_toList,
          Numeral.readInt64_toString]
      have hlog : Text.trim r.log = r.log := by
        rw [Text.trim, Text.trimChars_tight hr.log, String.ofList_toList]
      refine ⟨⟨r.task, r.expected, r.log, record.line⟩ :: cases, ?_, ?_⟩
      · rw [ofRecords_case path hthree hexpected, hlog, hcases]
        rfl
      · rw [List.map_cons, List.map_cons, hsame]

/-- Rows are parsed to exactly their tasks, expected results and log paths, in their order. -/
theorem parse_written {leading : List Char} {rows : List Row}
    (hleading : ∀ c ∈ leading, Record.isTerminator c = true) (hrows : ∀ r ∈ rows, r.WellFormed)
    (hended : ∀ r ∈ rows.dropLast, r.ending ≠ []) (path : String) :
    ∃ cases, parse (.ofList (written leading rows)) path = ⟨[], .ok cases⟩ ∧
      cases.map (fun c => (c.task, c.expected, c.log)) =
        rows.map fun r => (r.task, r.expected, r.log) := by
  obtain ⟨records, hread, hfields⟩ := Record.read_eq (.ofList (written leading rows))
  have hwritten : (layout leading rows).written = Record.unmarked (written leading rows) := by
    rw [written_layout, unmarked_written hleading]
  have hvalues : records.map Record.fields =
      rows.map fun r => r.form.values.map String.ofList := by
    rw [hfields, String.toList_ofList]
    have hscan := Record.fields_scan (wellFormed_layout hleading hrows hended) hwritten
    calc (Record.scan (written leading rows)).map (fun found => found.fields.map String.ofList)
        = ((Record.scan (written leading rows)).map Record.Found.fields).map
            (·.map String.ofList) := (List.map_map).symm
      _ = rows.map fun r => r.form.values.map String.ofList := by
          rw [hscan, Layout.values, layout, List.map_map, List.map_map]
          rfl
  obtain ⟨cases, hcases, hsame⟩ := ofRecords_rows path hrows hvalues
  exact ⟨cases, by simp only [parse, hread, hcases], hsame⟩

/-- A task of everything that has a meaning, the least integer between two kinds of white space,
and a second row that nothing ends. -/
def awkwardRows : List Row :=
  [⟨"\uFEFF:\"\r\n", .minValue, "a:\"b\".log", ['\u0085', '\t'], ['\u3000'], ['\n', '\r']⟩,
    ⟨"", 7, "", [], [], []⟩]

theorem parse_written_awkward :
    ∃ cases, parse (.ofList (written ['\n'] awkwardRows)) "cases" = ⟨[], .ok cases⟩ ∧
      cases.map (fun c => (c.task, c.expected, c.log)) =
        [("\uFEFF:\"\r\n", .minValue, "a:\"b\".log"), ("", 7, "")] := by
  exact parse_written (List.forall_mem_singleton.mpr (by decide)) (by decide) (by decide) "cases"

end CheckerAudit.Catalog
