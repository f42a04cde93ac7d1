import CheckerAudit.CommandLine.Parse

/-!
The ways to write the options of a run on a command line, and what they set.
-/
namespace CheckerAudit.CommandLine

/-- One option of a run with its value. -/
inductive Setting where
  | config (path : String)
  | catalog (path : String)
  | checker (path : String)
  | timeout (seconds : Nat)
  | format (format : OutputFormat)
  | verbose
  | noColor
deriving DecidableEq, Repr

/-- The name of a format. -/
def formatName : OutputFormat → String
  | .console => "console"
  | .json => "json"

namespace Setting

/-- The parameter that a setting sets. -/
def parameter : Setting → Parameter
  | config _ => .config
  | catalog _ => .catalog
  | checker _ => .checker
  | timeout _ => .timeout
  | format _ => .format
  | verbose => .verbose
  | noColor => .noColor

/-- A text gives the value: a path and a format as they are, a timeout as any literal of it. A flag
has no value. -/
def Writes : Setting → String → Prop
  | config path, text | catalog path, text | checker path, text => text = path
  | timeout seconds, text => Numeral.Denotes text.toList seconds
  | format f, text => text = formatName f
  | verbose, _ | noColor, _ => False

/-- A path is not empty, and a timeout is a positive 64-bit number. -/
def WellFormed : Setting → Prop
  | config path | catalog path | checker path => path ≠ ""
  | timeout seconds => 1 ≤ seconds ∧ seconds ≤ 18446744073709551615
  | format _ | verbose | noColor => True

/-- The options with this one set. -/
def apply (o : RunOptions) : Setting → RunOptions
  | config path => { o with config := path }
  | catalog path => { o with catalog := path }
  | checker path => { o with checker := path }
  | timeout seconds => { o with wait := .limit (.ofSeconds seconds) }
  | format f => { o with format := f }
  | verbose => { o with verbose := true }
  | noColor => { o with color := false }

/-- The options with all of these set. What is not set has its default, and colours follow the
terminal. -/
def options (settings : List Setting) (terminal : Bool) : RunOptions :=
  settings.foldl apply { color := terminal }

end Setting

/-- The ways to write one option: its value after an equals sign, its value as the next argument if
that does not start with a dash, a flag by name, and a flag by its letter. -/
inductive Spells : Setting → List String → Prop where
  | joined {s : Setting} {text : String} (h : s.Writes text) :
    Spells s ["--" ++ s.parameter.name ++ "=" ++ text]
  | separate {s : Setting} {text : String} (h : s.Writes text)
    (dash : text.toList.head? ≠ some '-') : Spells s ["--" ++ s.parameter.name, text]
  | named {s : Setting} (flag : s.parameter.valueName? = none) :
    Spells s ["--" ++ s.parameter.name]
  | letter {s : Setting} {c : Char} (letter : s.parameter.letter? = some c) :
    Spells s [String.ofList ['-', c]]

/-- Arguments that spell some options in order. -/
inductive SpellsAll : List Setting → List String → Prop where
  | nil : SpellsAll [] []
  | cons {s : Setting} {settings : List Setting} {first rest : List String} (h : Spells s first)
    (later : SpellsAll settings rest) : SpellsAll (s :: settings) (first ++ rest)

end CheckerAudit.CommandLine
