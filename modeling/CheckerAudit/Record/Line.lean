import CheckerAudit.Record.Reader

/-!
Line numbers of records. A counter moves through the text once, for offsets that do not decrease,
and passes over the terminators at each offset; counting from the start gives the same numbers.
-/
namespace CheckerAudit.Record

variable {α : Type} [DecidableEq α] [Alphabet α]

/-- How far a text has been counted, and the line there. -/
structure LineCounter (α : Type) where
  text : Array α
  offset : Nat := 0
  line : Nat := 1
deriving Repr

/-- The first index from `i` on that holds no terminator, or the end. -/
def skipTerminators (text : Array α) (i : Nat) : Nat :=
  if h : i < text.size then
    if isTerminator text[i] then skipTerminators text (i + 1) else i
  else i
termination_by text.size - i

/-- The line feeds in a slice. -/
def lineFeeds (text : Array α) (low high : Nat) : Nat :=
  (text.extract low high).count Alphabet.lineFeed

namespace LineCounter

/-- An offset brought between the counted part's end and the text's end. -/
def clamp (c : LineCounter α) (offset : Nat) : Nat :=
  min (max offset c.offset) c.text.size

/-- Where the record that is searched from an offset starts. -/
def target (c : LineCounter α) (offset : Nat) : Nat :=
  skipTerminators c.text (c.clamp offset)

/-- Moves to the record that is searched from an offset; `line` is then its line. -/
def seek (c : LineCounter α) (offset : Nat) : LineCounter α :=
  { c with
    offset := c.target offset
    line := c.line + lineFeeds c.text c.offset (c.target offset) }

/-- The lines of records that are searched from these offsets. -/
def lines (c : LineCounter α) : List Nat → List Nat
  | [] => []
  | offset :: rest => (c.seek offset).line :: (c.seek offset).lines rest

end LineCounter

/-- The line at an offset, counted from the start: one more than the line feeds before the first
symbol from there on that is no terminator. -/
def lineAt (text : Array α) (offset : Nat) : Nat :=
  1 + lineFeeds text 0 (skipTerminators text (min offset text.size))

end CheckerAudit.Record
