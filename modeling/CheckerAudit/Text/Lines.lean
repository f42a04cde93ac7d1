/-!
Lines of a text: a line feed ends a line, and so does a carriage return with a line feed right
after it. A carriage return anywhere else belongs to its line.
-/
namespace CheckerAudit.Text

/-- A finished line, read backwards, without the carriage return next to its line feed. -/
def dropReturn : List Char → List Char
  | '\r' :: line => line
  | line => line

/-- The lines of a text whose first line began with `line`, held backwards. -/
def linesFrom (line : List Char) : List Char → List (List Char)
  | [] => if line.isEmpty then [] else [line.reverse]
  | c :: rest =>
    if c = '\n' then (dropReturn line).reverse :: linesFrom [] rest
    else linesFrom (c :: line) rest

/-- The lines of a text, without their ends. A last line needs no end, and an empty one after the
last end is no line. -/
def lines (text : List Char) : List (List Char) :=
  linesFrom [] text

/-- The first line of a text. -/
def firstLine (text : List Char) : List Char :=
  (lines text).headD []

/-- Each line followed by a line feed. -/
def joinLines (ls : List (List Char)) : List Char :=
  ls.flatMap (· ++ ['\n'])

/-- A line feed cuts a text into two that are read on their own. -/
theorem linesFrom_append_lineFeed (line a b : List Char) :
    linesFrom line (a ++ '\n' :: b) = linesFrom line (a ++ ['\n']) ++ lines b := by
  induction a generalizing line with
  | nil => simp [linesFrom, lines]
  | cons c a ih =>
    by_cases h : c = '\n'
    · simp [linesFrom, h, ih]
    · simp [linesFrom, h, ih]

end CheckerAudit.Text
