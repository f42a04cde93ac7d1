/-!
Delimited records, symbol by symbol. Fields stand between delimiters; a field that starts with a
quote may hold delimiters and line ends, and a doubled quote in it stands for one. The reader works
over any alphabet with the four symbols, so the same rules read bytes and characters.
-/
namespace CheckerAudit.Record

/-- The symbols with a meaning in record text, and the mark that may open it. -/
class Alphabet (α : Type) [DecidableEq α] where
  delimiter : α
  quote : α
  carriageReturn : α
  lineFeed : α
  mark : List α
  nodup : [delimiter, quote, carriageReturn, lineFeed].Nodup

instance : Alphabet Char where
  delimiter := ':'
  quote := '"'
  carriageReturn := '\r'
  lineFeed := '\n'
  mark := ['\uFEFF']
  nodup := by decide

instance : Alphabet UInt8 where
  delimiter := 58
  quote := 34
  carriageReturn := 13
  lineFeed := 10
  mark := [0xEF, 0xBB, 0xBF]
  nodup := by decide

variable {α : Type} [DecidableEq α] [Alphabet α]

/-- Either symbol ends a record. -/
def isTerminator (a : α) : Bool :=
  a = Alphabet.carriageReturn || a = Alphabet.lineFeed

/-- A record's fields, and the offset where the search for the record began. -/
structure Found (α : Type) where
  start : Nat
  fields : List (List α)
deriving Repr, DecidableEq

/-- Where a reader stands: between records, at the start of a field, in an unquoted part, in a
quoted part, or right after a quote inside one. -/
inductive Place where
  | between
  | fieldStart
  | bare
  | quoted
  | quoteSeen
deriving Repr, DecidableEq

/-- A reader between two symbols. The field it is in and the fields before it are held
backwards. -/
structure Reader (α : Type) where
  position : Nat := 0
  start : Nat := 0
  place : Place := .between
  field : List α := []
  fields : List (List α) := []
deriving Repr, DecidableEq

namespace Reader

/-- The record that ends here. -/
def found (r : Reader α) : Found α :=
  ⟨r.start, (r.field.reverse :: r.fields).reverse⟩

/-- Moves over a symbol without keeping it. -/
def skip (r : Reader α) (place : Place) : Reader α :=
  { r with position := r.position + 1, place }

/-- Moves over a symbol that belongs to the field. -/
def keep (r : Reader α) (place : Place) (a : α) : Reader α :=
  { r with position := r.position + 1, place, field := a :: r.field }

/-- Moves over a delimiter. -/
def endField (r : Reader α) : Reader α :=
  { r with
    position := r.position + 1
    place := .fieldStart
    field := []
    fields := r.field.reverse :: r.fields }

/-- Moves over a terminator; the search for the next record begins after it. -/
def endRecord (r : Reader α) : Reader α :=
  { position := r.position + 1, start := r.position + 1 }

/-- A symbol outside a quoted part. -/
def plain (r : Reader α) (a : α) : Reader α × Option (Found α) :=
  if a = Alphabet.delimiter then (r.endField, none)
  else if isTerminator a then (r.endRecord, some r.found)
  else (r.keep .bare a, none)

/-- The first symbol of a field. -/
def opening (r : Reader α) (a : α) : Reader α × Option (Found α) :=
  if a = Alphabet.quote then (r.skip .quoted, none) else r.plain a

/-- One symbol, and the record that it ends. -/
def step (r : Reader α) (a : α) : Reader α × Option (Found α) :=
  match r.place with
  | .between => if isTerminator a then (r.skip .between, none) else r.opening a
  | .fieldStart => r.opening a
  | .bare => r.plain a
  | .quoted => if a = Alphabet.quote then (r.skip .quoteSeen, none) else (r.keep .quoted a, none)
  | .quoteSeen => if a = Alphabet.quote then (r.keep .quoted a, none) else r.plain a

/-- The record that the end of the text ends. -/
def finish (r : Reader α) : List (Found α) :=
  match r.place with
  | .between => []
  | _ => [r.found]

/-- The records that end from here on. -/
def readFrom (r : Reader α) : List α → List (Found α)
  | [] => r.finish
  | a :: rest =>
    match r.step a with
    | (next, none) => readFrom next rest
    | (next, some record) => record :: readFrom next rest

end Reader

/-- The records of a text in order. One mark at its very start is passed over, and the search for
the first record still begins at offset 0. -/
def scan (source : List α) : List (Found α) :=
  if (Alphabet.mark : List α).isPrefixOf source then
    let width := (Alphabet.mark : List α).length
    Reader.readFrom { position := width } (source.drop width)
  else
    Reader.readFrom {} source

end CheckerAudit.Record
