import CheckerAudit.FileError
import CheckerAudit.Numeral.Literal
import CheckerAudit.Record.Basic
import CheckerAudit.Text.Blank
import CheckerAudit.Trace

/-!
The catalog of test cases: records of the form `task:expected_result:log_path`. A record with any
other number of fields is logged and passed over; an expected result that is no integer refuses
the whole catalog.
-/
namespace CheckerAudit

/-- Run `task` against `log` and expect a result. The line is the record's in its catalog. -/
structure Case where
  task : String
  expected : Int64
  log : String
  line : Nat
deriving DecidableEq, Repr

/-- Only a result other than zero has to be proved. -/
def Case.requiresProof (c : Case) : Bool :=
  c.expected ≠ 0

/-- Why a catalog gives no cases. -/
inductive CatalogError where
  | read (path : String) (cause : FileError)
  | invalidExpectedResult (path : String) (line : Nat) (value : String) (cause : Numeral.Fault)
  | malformed (path : String) (cause : Record.Fault)
deriving DecidableEq, Repr

namespace Catalog

/-- The cases of records in order, up to the first whose expected result is no integer. -/
def ofRecords (path : String) : List Record → Traced (Except CatalogError (List Case))
  | [] => ⟨[], .ok []⟩
  | r :: rest =>
    match r.fields with
    | [task, expected, log] =>
      match Numeral.readInt64 (Text.trim expected) with
      | .error fault => ⟨[], .error (.invalidExpectedResult path r.line expected fault)⟩
      | .ok n =>
        let later := ofRecords path rest
        ⟨later.trace, later.value.map (⟨task, n, Text.trim log, r.line⟩ :: ·)⟩
    | fields =>
      let later := ofRecords path rest
      ⟨.skippedCatalogRecord r.line fields.length :: later.trace, later.value⟩

/-- The cases of a catalog text in order. The path is for errors only. -/
def parse (source path : String) : Traced (Except CatalogError (List Case)) :=
  match Record.read source with
  | .error fault => ⟨[], .error (.malformed path fault)⟩
  | .ok records => ofRecords path records

/-- Reads and parses the catalog file. -/
def load (files : Files) (path : String) : Traced (Except CatalogError (List Case)) :=
  match files.readText path with
  | .error cause => ⟨[], .error (.read path cause)⟩
  | .ok source => parse source path

end Catalog

end CheckerAudit
