/-!
The two markers of a checker's output: a line that begins with one reports a result or a proof.
-/
namespace CheckerAudit

/-- A reserved beginning of a line. -/
inductive Marker where
  | resultCode
  | proofCode
deriving DecidableEq, Repr

namespace Marker

/-- The beginning of a line that is the marker. -/
def spelling : Marker → String
  | .resultCode => "Result code:"
  | .proofCode => "Code string:"

/-- All markers, in the order in which a checker prints them. -/
def all : List Marker := [.resultCode, .proofCode]

/-- The marker of an exact spelling. -/
def ofSpelling? (text : String) : Option Marker :=
  all.find? (·.spelling = text)

/-- What follows the marker at the start of a line. -/
def rest? (m : Marker) (line : List Char) : Option (List Char) :=
  if m.spelling.toList.isPrefixOf line then some (line.drop m.spelling.length) else none

/-- The marker that a line begins with, and the rest of the line. -/
def split? (line : List Char) : Option (Marker × List Char) :=
  all.findSome? fun m => (m.rest? line).map (m, ·)

end Marker

end CheckerAudit
