import CheckerAudit.Proofs.Catalog.Records
import CheckerAudit.Proofs.Numeral.Denotes
import CheckerAudit.Secret
import Mathlib.Data.List.Basic
import Mathlib.Data.List.Forall2

/-!
# Every record is a case, an event or the error

A catalog gives a case for each record of three fields and logs each other record, in order; the
first record that refuses it ends both. A config logs its records without two fields, whether it
declares a secret or not.
-/
namespace CheckerAudit

open Numeral (Denotes)

namespace Catalog

/-- A record that is a case: three fields, of which the second, trimmed, denotes the expected
result. -/
inductive IsCase (r : Record) : Case → Prop where
  | intro {task expected log : String} {n : Int64} (fields : r.fields = [task, expected, log])
    (denotes : Denotes (Text.trim expected).toList n.toInt) :
    IsCase r ⟨task, n, Text.trim log, r.line⟩

/-- A record that refuses its catalog: three fields, of which the second, trimmed, denotes no 64-bit
integer. -/
def Refuses (r : Record) (expected : String) : Prop :=
  (∃ task log, r.fields = [task, expected, log]) ∧
    ∀ n : Int64, ¬ Denotes (Text.trim expected).toList n.toInt

/-- One event for each record that is passed over, in order. -/
def skips (records : List Record) : List TraceEvent :=
  (records.filter (·.fields.length ≠ 3)).map fun r => .skippedCatalogRecord r.line r.fields.length

variable (path : String) {r : Record}

@[simp] theorem skips_cons_of_ne (h : r.fields.length ≠ 3) (rest : List Record) :
    skips (r :: rest) = .skippedCatalogRecord r.line r.fields.length :: skips rest := by
  rw [skips, List.filter_cons_of_pos (by simpa using h), List.map_cons, skips]

theorem skips_cons_of_eq (h : r.fields.length = 3) (rest : List Record) :
    skips (r :: rest) = skips rest := by
  rw [skips, List.filter_cons_of_neg (by simpa using h), skips]

@[simp] theorem length_skips (records : List Record) :
    (records.filter (·.fields.length = 3)).length + (skips records).length = records.length := by
  have hsplit := List.length_eq_length_filter_add (l := records) (·.fields.length = 3)
  simp only [skips, List.length_map, ne_eq, decide_not]
  exact hsplit.symm

/-! ### One record -/

theorem IsCase.length_fields {c : Case} (h : IsCase r c) : r.fields.length = 3 := by
  cases h with
  | intro hfields =>
    rw [hfields]
    rfl

theorem ofRecords_isCase {c : Case} (h : IsCase r c) (rest : List Record) :
    ofRecords path (r :: rest) =
      ⟨(ofRecords path rest).trace, (ofRecords path rest).value.map (c :: ·)⟩ := by
  cases h with
  | intro hfields hdenotes =>
    exact ofRecords_case path hfields (Numeral.readInt64_eq_ok_iff.mpr hdenotes) rest

theorem ofRecords_refuses {expected : String} (h : Refuses r expected) (rest : List Record) :
    ∃ cause, ofRecords path (r :: rest) =
      ⟨[], .error (.invalidExpectedResult path r.line expected cause)⟩ := by
  obtain ⟨⟨task, log, hfields⟩, hnone⟩ := h
  cases hread : Numeral.readInt64 (Text.trim expected) with
  | ok n => exact absurd (Numeral.readInt64_eq_ok_iff.mp hread) (hnone n)
  | error cause => exact ⟨cause, ofRecords_invalid path hfields hread rest⟩

theorem skipped_or_refuses_or_isCase (r : Record) :
    r.fields.length ≠ 3 ∨ (∃ expected, Refuses r expected) ∨ ∃ c, IsCase r c := by
  rcases record_cases r with hskipped | ⟨task, expected, log, hfields, ⟨fault, hfault⟩ | ⟨n, hn⟩⟩
  · exact .inl hskipped
  · refine .inr (.inl ⟨expected, ⟨task, log, hfields⟩, fun n hdenotes => ?_⟩)
    rw [Numeral.readInt64_eq_ok_iff.mpr hdenotes] at hfault
    cases hfault
  · exact .inr (.inr ⟨_, .intro hfields (Numeral.readInt64_eq_ok_iff.mp hn)⟩)

/-! ### All records -/

/-- Records of which none refuses the catalog are its cases and its events. -/
theorem ofRecords_accepted {records : List Record}
    (h : ∀ r ∈ records, ∀ expected, ¬ Refuses r expected) :
    ∃ cases, ofRecords path records = ⟨skips records, .ok cases⟩ ∧
      List.Forall₂ IsCase (records.filter (·.fields.length = 3)) cases := by
  induction records with
  | nil => exact ⟨[], rfl, .nil⟩
  | cons r rest ih =>
    obtain ⟨hr, hrest⟩ := List.forall_mem_cons.mp h
    obtain ⟨cases, hcases, hall⟩ := ih hrest
    rcases skipped_or_refuses_or_isCase r with hskipped | ⟨expected, hrefuses⟩ | ⟨c, hc⟩
    · refine ⟨cases, ?_, ?_⟩
      · rw [ofRecords_skipped path hskipped, skips_cons_of_ne hskipped, hcases]
      · rwa [List.filter_cons_of_neg (by simpa using hskipped)]
    · exact absurd hrefuses (hr expected)
    · have hthree := hc.length_fields
      refine ⟨c :: cases, ?_, ?_⟩
      · rw [ofRecords_isCase path hc, skips_cons_of_eq hthree, hcases]
        rfl
      · rw [List.filter_cons_of_pos (by simpa using hthree)]
        exact .cons hc hall

/-- The first record that refuses the catalog ends it, and nothing behind it is logged. -/
theorem ofRecords_refused {before : List Record} {expected : String}
    (hbefore : ∀ q ∈ before, ∀ expected, ¬ Refuses q expected) (h : Refuses r expected)
    (after : List Record) :
    ∃ cause, ofRecords path (before ++ r :: after) =
      ⟨skips before, .error (.invalidExpectedResult path r.line expected cause)⟩ := by
  obtain ⟨cases, hcases, -⟩ := ofRecords_accepted path hbefore
  obtain ⟨cause, hcause⟩ := ofRecords_refuses path h after
  refine ⟨cause, ?_⟩
  rw [ofRecords_append, hcases, hcause]
  change Traced.mk (skips before ++ []) _ = _
  rw [List.append_nil]
  rfl

theorem exists_first_refusal (records : List Record) :
    (∀ r ∈ records, ∀ expected, ¬ Refuses r expected) ∨
      ∃ before r after expected, records = before ++ r :: after ∧
        (∀ q ∈ before, ∀ expected, ¬ Refuses q expected) ∧ Refuses r expected := by
  induction records with
  | nil => exact .inl nofun
  | cons r rest ih =>
    by_cases hr : ∃ expected, Refuses r expected
    · obtain ⟨expected, hr⟩ := hr
      exact .inr ⟨[], r, rest, expected, rfl, nofun, hr⟩
    · rw [not_exists] at hr
      rcases ih with hall | ⟨before, q, after, expected, rfl, hbefore, hq⟩
      · exact .inl (List.forall_mem_cons.mpr ⟨hr, hall⟩)
      · exact .inr ⟨r :: before, q, after, expected, rfl,
          List.forall_mem_cons.mpr ⟨hr, hbefore⟩, hq⟩

/-- A catalog has cases, or some record of it gives no integer as expected result. -/
theorem value_parse_cases (source : String) :
    (∃ cases, (parse source path).value = .ok cases) ∨
      ∃ line value cause, (parse source path).value =
        .error (.invalidExpectedResult path line value cause) := by
  rw [parse_eq]
  rcases exists_first_refusal (Record.ofChars source.toList) with
    hall | ⟨before, r, after, expected, hsplit, hbefore, hr⟩
  · obtain ⟨cases, hcases, -⟩ := ofRecords_accepted path hall
    exact .inl ⟨cases, by rw [hcases]⟩
  · obtain ⟨cause, hrefused⟩ := ofRecords_refused path hbefore hr after
    exact .inr ⟨r.line, expected, cause, by rw [hsplit, hrefused]⟩

end Catalog

namespace Secret

/-- One event for each record that is passed over, in order. -/
def skips (records : List Record) : List TraceEvent :=
  (records.filter (·.fields.length ≠ 2)).map fun r => .skippedConfigRecord r.line r.fields.length

theorem filterMap_skipEvent? (records : List Record) :
    records.filterMap skipEvent? = skips records := by
  induction records with
  | nil => rfl
  | cons r rest ih =>
    by_cases h : r.fields.length = 2
    · have hnone : skipEvent? r = none := if_pos h
      rw [List.filterMap_cons_none hnone, ih, skips, skips,
        List.filter_cons_of_neg (by simpa using h)]
    · have hsome : skipEvent? r = some (.skippedConfigRecord r.line r.fields.length) := if_neg h
      rw [List.filterMap_cons_some hsome, ih, skips, skips,
        List.filter_cons_of_pos (by simpa using h), List.map_cons]

end Secret

/-- Every record of a catalog is accounted for once and in order: as a case if it has three fields,
as an event if not, and the first one that refuses the catalog as its error, with nothing logged for
what stands behind. A config logs every record without two fields, whatever it declares. -/
theorem records_accounted_for (source path : String) :
    let catalog := Catalog.parse source path
    ∃ records, Record.read source = .ok records ∧
      ((∀ r ∈ records, ∀ expected, ¬ Catalog.Refuses r expected) ∧
          (∃ cases, catalog.value = .ok cases ∧
            List.Forall₂ Catalog.IsCase (records.filter (·.fields.length = 3)) cases ∧
            catalog.trace = Catalog.skips records ∧
            cases.length + catalog.trace.length = records.length) ∨
        ∃ before r after expected cause, records = before ++ r :: after ∧
          (∀ q ∈ before, ∀ expected, ¬ Catalog.Refuses q expected) ∧
          Catalog.Refuses r expected ∧
          catalog.value = .error (.invalidExpectedResult path r.line expected cause) ∧
          catalog.trace = Catalog.skips before) ∧
      (Secret.parse source path).trace = Secret.skips records := by
  intro catalog
  have hread := Record.read_eq_ofChars source
  have hcatalog : catalog = Catalog.ofRecords path (Record.ofChars source.toList) := by
    simp only [catalog, Catalog.parse, hread]
  refine ⟨_, hread, ?_, ?_⟩
  · rw [hcatalog]
    rcases Catalog.exists_first_refusal (Record.ofChars source.toList) with
      hall | ⟨before, r, after, expected, hsplit, hbefore, hr⟩
    · obtain ⟨cases, hcases, hevery⟩ := Catalog.ofRecords_accepted path hall
      have hlength := Catalog.length_skips (Record.ofChars source.toList)
      rw [hevery.length_eq] at hlength
      rw [hcases]
      exact .inl ⟨hall, cases, rfl, hevery, rfl, hlength⟩
    · obtain ⟨cause, hrefused⟩ := Catalog.ofRecords_refused path hbefore hr after
      rw [← hsplit] at hrefused
      rw [hrefused]
      exact .inr ⟨before, r, after, expected, cause, hsplit, hbefore, hr, rfl, rfl⟩
  · simp only [Secret.parse, hread]
    exact Secret.filterMap_skipEvent? _

end CheckerAudit
