import CheckerAudit.Report.Json

/-!
Reading JSON: any blanks between the parts, any escapes in strings, members in the order of the
text. What the stream never holds is refused: arrays, truth values, and numbers other than
integers.
-/
namespace CheckerAudit.Report.Json

/-- The blanks that may stand between the parts of a JSON text. -/
def isBlank (c : Char) : Bool :=
  c = ' ' || c = '\t' || c = '\n' || c = '\r'

/-- A text from its first part on. -/
def skipBlanks (s : List Char) : List Char :=
  s.dropWhile isBlank

/-- The value of a hexadecimal digit of either case. -/
def hexValue? (c : Char) : Option Nat :=
  if '0' ≤ c ∧ c ≤ '9' then some (c.toNat - '0'.toNat)
  else if 'a' ≤ c ∧ c ≤ 'f' then some (c.toNat - 'a'.toNat + 10)
  else if 'A' ≤ c ∧ c ≤ 'F' then some (c.toNat - 'A'.toNat + 10)
  else none

/-- The 16-bit unit of four hexadecimal digits. -/
def unit? (a b c d : Char) : Option Nat := do
  return (((← hexValue? a) * 16 + (← hexValue? b)) * 16 + (← hexValue? c)) * 16 + (← hexValue? d)

/-- The character of a unit that is no half of a pair. -/
def ofUnit? (u : Nat) : Option Char :=
  if u < 0xD800 ∨ 0xE000 ≤ u then some (Char.ofNat u) else none

/-- The character of a high and a low half. -/
def ofPair? (high low : Nat) : Option Char :=
  if 0xD800 ≤ high ∧ high < 0xDC00 ∧ 0xDC00 ≤ low ∧ low < 0xE000 then
    some (Char.ofNat (0x10000 + (high - 0xD800) * 0x400 + (low - 0xDC00)))
  else none

/-- The character that a letter after a backslash stands for. -/
def ofLetter? (c : Char) : Option Char :=
  if c = '"' then some '"'
  else if c = '\\' then some '\\'
  else if c = '/' then some '/'
  else if c = 'b' then some '\x08'
  else if c = 'f' then some '\x0c'
  else if c = 'n' then some '\n'
  else if c = 'r' then some '\r'
  else if c = 't' then some '\t'
  else none

/-- Puts a character before what a reader found. -/
def found (c : Char) (later : Option (List Char × List Char)) : Option (List Char × List Char) :=
  later.map fun (cs, rest) => (c :: cs, rest)

/-- The characters up to the closing quote, and what follows it. -/
def readString : List Char → Option (List Char × List Char)
  | [] => none
  | '"' :: rest => some ([], rest)
  | '\\' :: 'u' :: a :: b :: c :: d :: rest =>
    match unit? a b c d with
    | none => none
    | some u =>
      match ofUnit? u with
      | some x => found x (readString rest)
      | none =>
        match rest with
        | '\\' :: 'u' :: e :: f :: g :: h :: rest =>
          match (unit? e f g h).bind (ofPair? u) with
          | some x => found x (readString rest)
          | none => none
        | _ => none
  | '\\' :: c :: rest =>
    match ofLetter? c with
    | some x => found x (readString rest)
    | none => none
  | c :: rest => if c.toNat < 0x20 then none else found c (readString rest)

/-- The digits at the start of a text, without a zero before others, and what follows them. -/
def readDigits (s : List Char) : Option (Nat × List Char) :=
  let digits := s.takeWhile Char.isDigit
  let rest := s.dropWhile Char.isDigit
  if digits.isEmpty ∨ (digits.head? = some '0' ∧ 1 < digits.length) then none
  else
    match rest with
    | c :: _ =>
      if c = '.' ∨ c = 'e' ∨ c = 'E' then none else some (Nat.ofDigitChars 10 digits 0, rest)
    | [] => some (Nat.ofDigitChars 10 digits 0, rest)

/-- An integer with an optional minus sign, and what follows it. -/
def readInteger : List Char → Option (Int × List Char)
  | '-' :: rest => (readDigits rest).map fun (n, rest) => (-(n : Int), rest)
  | s => (readDigits s).map fun (n, rest) => ((n : Int), rest)

/-- A member's key with its colon, and what follows. -/
def readKey (s : List Char) : Option (String × List Char) :=
  match skipBlanks s with
  | '"' :: rest =>
    match readString rest with
    | some (key, rest) =>
      match skipBlanks rest with
      | ':' :: rest => some (.ofList key, rest)
      | _ => none
    | none => none
  | _ => none

mutual

/-- A value and what follows it. The fuel bounds the depth and the number of members. -/
def readValue : Nat → List Char → Option (Json × List Char)
  | 0, _ => none
  | fuel + 1, s =>
    match skipBlanks s with
    | 'n' :: 'u' :: 'l' :: 'l' :: rest => some (.null, rest)
    | '"' :: rest => (readString rest).map fun (cs, rest) => (.string (.ofList cs), rest)
    | '\x7b' :: rest =>
      match skipBlanks rest with
      | '\x7d' :: rest => some (.object [], rest)
      | rest => (readMembers fuel rest).map fun (members, rest) => (.object members, rest)
    | s => (readInteger s).map fun (n, rest) => (.integer n, rest)

/-- One or more members, the end of their object, and what follows it. -/
def readMembers : Nat → List Char → Option (List (String × Json) × List Char)
  | 0, _ => none
  | fuel + 1, s =>
    match readKey s with
    | none => none
    | some (key, rest) =>
      match readValue fuel rest with
      | none => none
      | some (value, rest) =>
        match skipBlanks rest with
        | '\x7d' :: rest => some ([(key, value)], rest)
        | ',' :: rest =>
          (readMembers fuel rest).map fun (members, rest) => ((key, value) :: members, rest)
        | _ => none

end

/-- The value of a JSON text. -/
def read? (text : List Char) : Option Json :=
  match readValue (text.length + 1) text with
  | some (value, rest) => if (skipBlanks rest).isEmpty then some value else none
  | none => none

end CheckerAudit.Report.Json
