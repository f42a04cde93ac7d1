import CheckerAudit.Record.Line
import CheckerAudit.Text.Utf8

/-!
Records of a text: the line each starts on and its fields. Reading works on the bytes of the text,
and a field whose bytes are no text would be a fault; `ofChars` reads the characters instead.
-/
namespace CheckerAudit

/-- One delimited record. -/
structure Record where
  line : Nat
  fields : List String
deriving Repr, DecidableEq

namespace Record

/-- A field that is no text, by the line of its record and its index there. No text has one, so its
wording is left open. -/
structure Fault where
  line : Nat
  field : Nat
deriving Repr, DecidableEq

/-- The text of each field, counted from `index`. -/
def decodeFields (line index : Nat) : List Text.Bytes → Except Fault (List String)
  | [] => .ok []
  | field :: rest =>
    match Text.Utf8.decode? field with
    | none => .error ⟨line, index⟩
    | some chars => (decodeFields line (index + 1) rest).map (.ofList chars :: ·)

/-- Records with their lines and decoded fields, from the line counter on. -/
def decodeFrom (counter : LineCounter UInt8) : List (Found UInt8) → Except Fault (List Record)
  | [] => .ok []
  | found :: rest =>
    let here := counter.seek found.start
    match decodeFields here.line 0 found.fields with
    | .error fault => .error fault
    | .ok fields => (decodeFrom here rest).map (⟨here.line, fields⟩ :: ·)

/-- The records of a text in order. -/
def read (source : String) : Except Fault (List Record) :=
  let bytes := Text.Utf8.encode source.toList
  decodeFrom ⟨bytes.toArray, 0, 1⟩ (scan bytes)

/-- The same records, read character by character with lines counted from the start. -/
def ofChars (source : List Char) : List Record :=
  (scan source).map fun found =>
    ⟨lineAt source.toArray found.start, found.fields.map String.ofList⟩

end Record

end CheckerAudit
