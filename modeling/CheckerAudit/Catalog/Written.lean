import CheckerAudit.Catalog
import CheckerAudit.Record.Layout

/-!
Writing a catalog: task and log path in quotes, so that both may hold anything, and white space
around the expected result.
-/
namespace CheckerAudit.Catalog

/-- One case as it is written, with the terminators after it. -/
structure Row where
  task : String
  expected : Int64
  log : String
  before : List Char := []
  after : List Char := []
  ending : List Char := ['\n']
deriving Repr, DecidableEq

/-- A record of three fields, two of them in quotes. -/
def Row.written (r : Row) : List Char :=
  Record.joinFields
    [Record.quoted r.task.toList, r.before ++ (toString r.expected.toInt).toList ++ r.after,
      Record.quoted r.log.toList]

/-- White space that ends no record. -/
def IsPad (s : List Char) : Prop :=
  ∀ c ∈ s, Text.isBlank c = true ∧ Record.isTerminator c = false

instance (s : List Char) : Decidable (IsPad s) :=
  decidable_of_iff (s.all fun c => Text.isBlank c && !Record.isTerminator c) (by simp [IsPad])

/-- Pads around the expected result, terminators alone after the row, and a log path that trimming
leaves as it is. The task may be any string. -/
structure Row.WellFormed (r : Row) : Prop where
  log : Text.Tight r.log.toList
  before : IsPad r.before
  after : IsPad r.after
  ending : ∀ c ∈ r.ending, Record.isTerminator c = true

instance (r : Row) : Decidable r.WellFormed :=
  decidable_of_iff (Text.Tight r.log.toList ∧ IsPad r.before ∧ IsPad r.after ∧
      r.ending.all Record.isTerminator)
    ⟨fun h => ⟨h.1, h.2.1, h.2.2.1, List.all_eq_true.mp h.2.2.2⟩,
      fun h => ⟨h.log, h.before, h.after, List.all_eq_true.mpr h.ending⟩⟩

/-- Rows after some terminators. -/
def written (leading : List Char) (rows : List Row) : List Char :=
  leading ++ rows.flatMap fun r => r.written ++ r.ending

end CheckerAudit.Catalog
