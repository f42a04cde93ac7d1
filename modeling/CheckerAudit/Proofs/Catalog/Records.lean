import CheckerAudit.Catalog
import CheckerAudit.Proofs.Record.Numbering

/-!
# What one record does to a catalog

A record is passed over and logged, refuses the catalog with nothing behind it looked at, or is a
case. Whatever is said about the records of a catalog follows from these three steps.
-/
namespace CheckerAudit.Catalog

variable (path : String)

theorem ofRecords_skipped {r : Record} (h : r.fields.length ≠ 3) (rest : List Record) :
    ofRecords path (r :: rest) =
      ⟨.skippedCatalogRecord r.line r.fields.length :: (ofRecords path rest).trace,
        (ofRecords path rest).value⟩ := by
  rw [ofRecords]
  split
  · next task expected log hfields =>
    rw [hfields] at h
    exact absurd rfl h
  · rfl

theorem ofRecords_invalid {r : Record} {task expected log : String} {fault : Numeral.Fault}
    (h : r.fields = [task, expected, log])
    (hexpected : Numeral.readInt64 (Text.trim expected) = .error fault) (rest : List Record) :
    ofRecords path (r :: rest) =
      ⟨[], .error (.invalidExpectedResult path r.line expected fault)⟩ := by
  simp only [ofRecords, h, hexpected]

theorem ofRecords_case {r : Record} {task expected log : String} {n : Int64}
    (h : r.fields = [task, expected, log])
    (hexpected : Numeral.readInt64 (Text.trim expected) = .ok n) (rest : List Record) :
    ofRecords path (r :: rest) =
      ⟨(ofRecords path rest).trace,
        (ofRecords path rest).value.map (⟨task, n, Text.trim log, r.line⟩ :: ·)⟩ := by
  simp only [ofRecords, h, hexpected]

@[simp] theorem value_ofRecords_skipped {r : Record} (h : r.fields.length ≠ 3)
    (rest : List Record) :
    (ofRecords path (r :: rest)).value = (ofRecords path rest).value := by
  rw [ofRecords_skipped path h]

theorem value_ofRecords_invalid {r : Record} {task expected log : String} {fault : Numeral.Fault}
    (h : r.fields = [task, expected, log])
    (hexpected : Numeral.readInt64 (Text.trim expected) = .error fault) (rest : List Record) :
    (ofRecords path (r :: rest)).value =
      .error (.invalidExpectedResult path r.line expected fault) := by
  rw [ofRecords_invalid path h hexpected]

theorem value_ofRecords_case {r : Record} {task expected log : String} {n : Int64}
    (h : r.fields = [task, expected, log])
    (hexpected : Numeral.readInt64 (Text.trim expected) = .ok n) (rest : List Record) :
    (ofRecords path (r :: rest)).value =
      (ofRecords path rest).value.map (⟨task, n, Text.trim log, r.line⟩ :: ·) := by
  rw [ofRecords_case path h hexpected]

/-- A record is passed over, refuses the catalog, or is a case. -/
theorem record_cases (r : Record) :
    r.fields.length ≠ 3 ∨ ∃ task expected log, r.fields = [task, expected, log] ∧
      ((∃ fault, Numeral.readInt64 (Text.trim expected) = .error fault) ∨
        ∃ n, Numeral.readInt64 (Text.trim expected) = .ok n) := by
  match r.fields with
  | [] => exact .inl (by decide)
  | [_] => exact .inl (by simp)
  | [_, _] => exact .inl (by simp)
  | [task, expected, log] =>
    refine .inr ⟨task, expected, log, rfl, ?_⟩
    cases Numeral.readInt64 (Text.trim expected) with
    | error fault => exact .inl ⟨fault, rfl⟩
    | ok n => exact .inr ⟨n, rfl⟩
  | _ :: _ :: _ :: _ :: _ => exact .inl (by simp)

/-- Records in front of others are gone through first; if they refuse the catalog, nothing behind
them is looked at. -/
theorem ofRecords_append (first later : List Record) :
    ofRecords path (first ++ later) =
      match (ofRecords path first).value with
      | .error e => ⟨(ofRecords path first).trace, .error e⟩
      | .ok cases =>
        ⟨(ofRecords path first).trace ++ (ofRecords path later).trace,
          (ofRecords path later).value.map (cases ++ ·)⟩ := by
  induction first with
  | nil =>
    cases hlater : ofRecords path later with
    | mk trace value => cases value <;> simp [ofRecords, Except.map, hlater]
  | cons r first ih =>
    rw [List.cons_append]
    rcases record_cases r with hskipped | ⟨task, expected, log, hfields, ⟨fault, hfault⟩ | ⟨n, hn⟩⟩
    · rw [ofRecords_skipped path hskipped, ofRecords_skipped path hskipped, ih]
      cases (ofRecords path first).value <;> rfl
    · rw [ofRecords_invalid path hfields hfault, ofRecords_invalid path hfields hfault]
    · rw [ofRecords_case path hfields hn, ofRecords_case path hfields hn, ih]
      cases (ofRecords path first).value with
      | error e => rfl
      | ok cases => cases (ofRecords path later).value <;> rfl

theorem value_ofRecords_append (first later : List Record) :
    (ofRecords path (first ++ later)).value =
      match (ofRecords path first).value with
      | .error e => .error e
      | .ok cases => (ofRecords path later).value.map (cases ++ ·) := by
  rw [ofRecords_append]
  cases (ofRecords path first).value <;> rfl

/-- A catalog gives what the records of its characters give. -/
theorem parse_eq (source : String) :
    parse source path = ofRecords path (Record.ofChars source.toList) := by
  simp only [parse, Record.read_eq_ofChars]

/-- A catalog is refused over a field that holds no integer. -/
theorem readInt64_of_invalidExpectedResult {records : List Record} {line : Nat} {value : String}
    {cause : Numeral.Fault}
    (h : (ofRecords path records).value = .error (.invalidExpectedResult path line value cause)) :
    Numeral.readInt64 (Text.trim value) = .error cause := by
  induction records with
  | nil => cases h
  | cons r records ih =>
    rcases record_cases r with hskipped | ⟨task, expected, log, hfields, ⟨fault, hfault⟩ | ⟨n, hn⟩⟩
    · rw [value_ofRecords_skipped path hskipped] at h
      exact ih h
    · rw [value_ofRecords_invalid path hfields hfault] at h
      cases h
      exact hfault
    · rw [value_ofRecords_case path hfields hn] at h
      cases hlater : (ofRecords path records).value with
      | ok cases =>
        rw [hlater] at h
        cases h
      | error e =>
        rw [hlater] at h
        obtain rfl := Except.error.inj h
        exact ih hlater

end CheckerAudit.Catalog
