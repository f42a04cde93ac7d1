import CheckerAudit.Record.Line

/-!
A line counter that looks at its bounds. Bringing an offset between two bounds that are not in order
gives nothing, and so does a slice whose bounds are not in order or not within the text.
-/
namespace CheckerAudit.Record

variable {α : Type} [DecidableEq α] [Alphabet α]

/-- An offset brought between two bounds that are in order. -/
def clamp? (offset low high : Nat) : Option Nat :=
  if low ≤ high then some (min (max offset low) high) else none

/-- The line feeds in a slice that the text has. -/
def lineFeeds? (text : Array α) (low high : Nat) : Option Nat :=
  if low ≤ high ∧ high ≤ text.size then some (lineFeeds text low high) else none

namespace LineCounter

/-- Moves to the record that is searched from an offset, as long as all bounds hold. -/
def seek? (c : LineCounter α) (offset : Nat) : Option (LineCounter α) := do
  let inside ← clamp? offset c.offset c.text.size
  let target := skipTerminators c.text inside
  let passed ← lineFeeds? c.text c.offset target
  return { c with offset := target, line := c.line + passed }

/-- The lines of records that are searched from these offsets, as long as all bounds hold. -/
def lines? (c : LineCounter α) : List Nat → Option (List Nat)
  | [] => some []
  | offset :: rest => do
    let next ← c.seek? offset
    let later ← next.lines? rest
    return next.line :: later

end LineCounter

end CheckerAudit.Record
