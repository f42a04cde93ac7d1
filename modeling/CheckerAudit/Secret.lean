import CheckerAudit.FileError
import CheckerAudit.Record.Basic
import CheckerAudit.Text.Blank
import CheckerAudit.Trace

/-!
The shared secret: the value of the last two-field record of a config text whose key is `secret`.
Other records belong to the checker and are passed over; those without exactly two fields are
logged.
-/
namespace CheckerAudit

/-- The secret that harness and checker share. Its printed forms do not show it. -/
structure Secret where
  value : String
deriving DecidableEq

instance : ToString Secret := ⟨fun _ => "<redacted>"⟩

instance : Repr Secret := ⟨fun _ _ => "Secret(<redacted>)"⟩

/-- Why a config gives no secret. -/
inductive ConfigError where
  | read (path : String) (cause : FileError)
  | missingSecret (path : String)
  | malformed (path : String) (cause : Record.Fault)
deriving DecidableEq, Repr

namespace Secret

/-- The key of the record that declares the secret. -/
def key : String := "secret"

/-- The secret that a record declares. -/
def ofRecord? (r : Record) : Option Secret :=
  match r.fields with
  | [name, value] => if name = key then some ⟨Text.trim value⟩ else none
  | _ => none

/-- The event for a record without two fields. -/
def skipEvent? (r : Record) : Option TraceEvent :=
  if r.fields.length = 2 then none else some (.skippedConfigRecord r.line r.fields.length)

/-- The secret of a config text. The path is for the error only. -/
def parse (source path : String) : Traced (Except ConfigError Secret) :=
  match Record.read source with
  | .error fault => ⟨[], .error (.malformed path fault)⟩
  | .ok records =>
    { trace := records.filterMap skipEvent?
      value :=
        match (records.filterMap ofRecord?).getLast? with
        | none => .error (.missingSecret path)
        | some secret => .ok secret }

/-- Reads the config file and finds its secret. -/
def load (files : Files) (path : String) : Traced (Except ConfigError Secret) :=
  match files.readText path with
  | .error cause => ⟨[], .error (.read path cause)⟩
  | .ok source => parse source path

end Secret

end CheckerAudit
