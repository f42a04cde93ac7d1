import CheckerAudit.Text.Hex

/-!
Compact JSON: no blanks, members in the order of the value, and no escape that is not needed.
-/
namespace CheckerAudit.Report

/-- The values that an event stream holds. -/
inductive Json where
  | null
  | integer (n : Int)
  | string (s : String)
  | object (members : List (String × Json))
deriving Repr

namespace Json

/-- A character inside quotes. Only the quote, the backslash and the control characters below
U+0020 are escaped, five of these by a letter. -/
def escape (c : Char) : List Char :=
  if c = '"' then ['\\', '"']
  else if c = '\\' then ['\\', '\\']
  else if c = '\n' then ['\\', 'n']
  else if c = '\r' then ['\\', 'r']
  else if c = '\t' then ['\\', 't']
  else if c = '\x08' then ['\\', 'b']
  else if c = '\x0c' then ['\\', 'f']
  else if c.toNat < 0x20 then
    ['\\', 'u', '0', '0', Text.Hex.digit (c.toNat / 16), Text.Hex.digit (c.toNat % 16)]
  else [c]

/-- A string with its quotes. -/
def quoted (s : String) : List Char :=
  '"' :: s.toList.flatMap escape ++ ['"']

mutual

/-- The text of a value. -/
def render : Json → List Char
  | null => ['n', 'u', 'l', 'l']
  | integer n => (toString n).toList
  | string s => quoted s
  | object [] => ['\x7b', '\x7d']
  | object ((key, value) :: rest) =>
    '\x7b' :: quoted key ++ ':' :: render value ++ renderMore rest

/-- The members after the first, and the end of their object. -/
def renderMore : List (String × Json) → List Char
  | [] => ['\x7d']
  | (key, value) :: rest => ',' :: quoted key ++ ':' :: render value ++ renderMore rest

end

/-- The text of a value, as a string. -/
def text (j : Json) : String :=
  .ofList j.render

/-- An optional string, null when it is absent. -/
def ofString? : Option String → Json
  | none => null
  | some s => string s

/-- An optional integer, null when it is absent. -/
def ofInt? : Option Int → Json
  | none => null
  | some n => integer n

end Json

end CheckerAudit.Report
