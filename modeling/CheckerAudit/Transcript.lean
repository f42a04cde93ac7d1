import CheckerAudit.Marker
import CheckerAudit.Numeral.Literal
import CheckerAudit.Text.Blank
import CheckerAudit.Text.Lines

/-!
The transcript of a checker: what its standard output reports. Lines are trimmed; a later line with
a marker replaces what an earlier one with the same marker reported, be it well formed or not. So
only the last line of each marker counts, and `lastRest?` is what it says.
-/
namespace CheckerAudit

/-- What a transcript reports, and its lines, trimmed and each ended by a line feed. -/
structure Transcript where
  result : Option Int64
  proof : Option String
  text : String
deriving DecidableEq, Repr

/-- A transcript whose result is no integer. -/
structure MalformedResult where
  value : String
  text : String
deriving DecidableEq, Repr

namespace Transcript

/-- The result that the lines so far report. -/
inductive Reported where
  | nothing
  | integer (n : Int64)
  | other (value : String)
deriving DecidableEq, Repr

/-- What a result marker's remainder reports. -/
def Reported.ofRest (rest : List Char) : Reported :=
  let value := String.ofList (Text.trimChars rest)
  match Numeral.readInt64 value with
  | .ok n => .integer n
  | .error _ => .other value

/-- A transcript being read; its lines are held backwards. -/
structure Scan where
  reported : Reported := .nothing
  proof : Option String := none
  lines : List (List Char) := []
deriving DecidableEq, Repr

/-- Reads one line. -/
def Scan.push (s : Scan) (raw : List Char) : Scan :=
  let line := Text.trimChars raw
  let s := { s with lines := line :: s.lines }
  match Marker.split? line with
  | some (.resultCode, rest) => { s with reported := .ofRest rest }
  | some (.proofCode, rest) => { s with proof := some (.ofList (Text.trimChars rest)) }
  | none => s

/-- The lines so far, each ended by a line feed. -/
def Scan.text (s : Scan) : String :=
  .ofList (Text.joinLines s.lines.reverse)

/-- The transcript of the lines read. -/
def Scan.finish (s : Scan) : Except MalformedResult Transcript :=
  match s.reported with
  | .nothing => .ok ⟨none, s.proof, s.text⟩
  | .integer n => .ok ⟨some n, s.proof, s.text⟩
  | .other value => .error ⟨value, s.text⟩

/-- The transcript of an output text. -/
def read (stdout : String) : Except MalformedResult Transcript :=
  ((Text.lines stdout.toList).foldl Scan.push {}).finish

/-- The trimmed lines of an output text as one text, whatever they report. -/
def textOf (stdout : String) : String :=
  match read stdout with
  | .ok t => t.text
  | .error m => m.text

/-- The lines of an output text, trimmed. -/
def trimmedLines (stdout : String) : List (List Char) :=
  (Text.lines stdout.toList).map Text.trimChars

/-- What follows the marker on the last of some lines that begins with it, trimmed. -/
def lastRest? (m : Marker) (lines : List (List Char)) : Option (List Char) :=
  ((lines.filterMap m.rest?).getLast?).map Text.trimChars

end Transcript

end CheckerAudit
