import CheckerAudit.Text.Utf8

/-!
Text without terminal control. Control characters are dropped, apart from the four that move on to
another column or line, and so are the sequences that an escape character begins.
-/
namespace CheckerAudit.Text.Terminal

/-- Where a reader of terminal text stands: in ordinary text, after an escape character and its
intermediate characters, in a control sequence, in the head of a device control string, in a string
that a terminator byte ends, or in a system command. -/
inductive Place where
  | ordinary
  | escape
  | escapeMore
  | control
  | deviceStart
  | deviceParameters
  | deviceMore
  | string
  | system
deriving Repr, DecidableEq

/-- Tabulation, line feed, form feed and carriage return. -/
def movesOn (c : Char) : Bool :=
  c = '\t' || c = '\n' || c = '\x0c' || c = '\r'

/-- Whether a code point lies between two bounds. -/
def lies (n low high : Nat) : Bool :=
  low ≤ n && n ≤ high

/-- Whether the byte that ends a string is among a character's bytes. -/
def holdsTerminator (c : Char) : Bool :=
  (String.utf8EncodeChar c).contains 0x9C

/-- The place after a character of a sequence that is no control character. -/
def Place.next (p : Place) (c : Char) : Place :=
  let n := c.toNat
  match p with
  | ordinary => ordinary
  | escape =>
    if lies n 0x20 0x2F then escapeMore
    else if c = '[' then control
    else if c = ']' then system
    else if c = 'P' then deviceStart
    else if c = 'X' ∨ c = '^' ∨ c = '_' then string
    else if lies n 0x30 0x7E then ordinary
    else escape
  | escapeMore => if lies n 0x30 0x7E then ordinary else escapeMore
  | control => if lies n 0x40 0x7E then ordinary else control
  | deviceStart =>
    if lies n 0x20 0x2F then deviceMore
    else if lies n 0x30 0x3F then deviceParameters
    else if lies n 0x40 0x7E then string
    else deviceStart
  | deviceParameters =>
    if lies n 0x20 0x2F then deviceMore
    else if lies n 0x3C 0x7E then string
    else deviceParameters
  | deviceMore => if lies n 0x30 0x7E then string else deviceMore
  | string => if holdsTerminator c then ordinary else string
  | system => system

/-- One character: the next place, and whether the character is kept. Escape begins a sequence
anywhere, and cancel and substitute end one. A character that moves on is kept within a sequence
too; strings swallow it. -/
def step (p : Place) (c : Char) : Place × Bool :=
  if c = '\x1b' then (.escape, false)
  else if c = '\x18' ∨ c = '\x1a' then (.ordinary, false)
  else if 0x20 ≤ c.toNat then (p.next c, p = .ordinary && c ≠ '\x7f')
  else
    match p with
    | .ordinary | .escape | .escapeMore | .control => (p, movesOn c)
    | .system => (if c = '\x07' then .ordinary else .system, false)
    | .deviceStart | .deviceParameters | .deviceMore | .string => (p, false)

/-- How a sequence fares when a character within it is kept. In a text it is over. A stream keeps
the run of characters from there on, and resumes the sequence where the run ends; a character of
more than one byte makes it forget the sequence. -/
inductive Reading where
  | text
  | stream
deriving Repr, DecidableEq

/-- The place that a kept character leaves a reading in. -/
def Reading.afterKept (reading : Reading) (p : Place) (c : Char) : Place :=
  match reading with
  | text => .ordinary
  | stream => if c.toNat < 0x80 then p else .ordinary

/-- What is kept from a place on, where a run of kept characters may be under way. A run takes in
what ordinary text would. -/
def keptFrom (reading : Reading) (p : Place) (running : Bool) : List Char → List Char
  | [] => []
  | c :: rest =>
    if (step (if running then .ordinary else p) c).2 then
      c :: keptFrom reading (reading.afterKept p c) true rest
    else keptFrom reading (step p c).1 false rest

/-- What is kept of a text. -/
def kept (reading : Reading) (text : List Char) : List Char :=
  keptFrom reading .ordinary false text

/-- A string without terminal control. -/
def Reading.plain (reading : Reading) (s : String) : String :=
  .ofList (kept reading s.toList)

end CheckerAudit.Text.Terminal
