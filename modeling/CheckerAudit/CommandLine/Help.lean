import CheckerAudit.CommandLine.Parameter

/-!
Help texts: what a command is for, how it is called, and tables of its parts with the remarks in
one column.
-/
namespace CheckerAudit.CommandLine.Help

/-- A table: each label, blanks up to the common column, and the remark. -/
def table (rows : List (String × String)) : String :=
  let width := (rows.map (·.1.length)).foldl max 0
  String.join (rows.map fun (label, remark) =>
    "  " ++ label ++ String.ofList (List.replicate (width - label.length + 2) ' ') ++ remark ++ "\n")

/-- A titled table, if it has rows. -/
def chapter (title : String) (rows : List (String × String)) : String :=
  if rows.isEmpty then "" else "\n" ++ title ++ ":\n" ++ table rows

/-- An option as a label, with its letter or the room for one. -/
def optionLabel (p : Parameter) : String :=
  match p.letter? with
  | none => "    " ++ p.shown
  | some c => "-" ++ c.toString ++ ", " ++ p.shown

/-- What is said of a parameter, with its default and its choices. -/
def remark (p : Parameter) : String :=
  p.about ++
    (match p.default? with
      | none => ""
      | some value => " [default: " ++ value ++ "]") ++
    if p.choices.isEmpty then "" else " [possible values: " ++ ", ".intercalate p.choices ++ "]"

/-- How a command is called. -/
def usage : Command → String
  | .top => "logcheck [OPTIONS]\n       logcheck <COMMAND>"
  | .help => "logcheck help [COMMAND]..."
  | c =>
    "logcheck " ++ c.name ++
      if c.positionals.isEmpty then " [OPTIONS]"
      else String.join (c.positionals.map fun p => " " ++ p.shown)

/-- The rows for what a command takes by position. -/
def arguments : Command → List (String × String)
  | .help => [("[COMMAND]...", "Print help for the subcommand(s)")]
  | c => c.positionals.map fun p => (p.shown, remark p)

/-- The help text of a command. -/
def text (c : Command) : String :=
  c.about ++ "\n\nUsage: " ++ usage c ++ "\n" ++
    chapter "Commands" (c.subcommands.map fun s => (s.name, s.about)) ++
    chapter "Arguments" (arguments c) ++
    chapter "Options" (c.options.map fun p => (optionLabel p, remark p))

end CheckerAudit.CommandLine.Help
