import CheckerAudit.Suite

/-!
The commands of the program and the parameters each of them takes.
-/
namespace CheckerAudit.CommandLine

/-- What a command line can set. The last four are given by their position. -/
inductive Parameter where
  | config
  | catalog
  | checker
  | timeout
  | format
  | verbose
  | noColor
  | help
  | version
  | secret
  | task
  | salt
  | result
deriving DecidableEq, Repr

namespace Parameter

/-- The name after two dashes, or between angle brackets for a parameter given by position. -/
def name : Parameter → String
  | config => "config"
  | catalog => "catalog"
  | checker => "checker"
  | timeout => "timeout"
  | format => "format"
  | verbose => "verbose"
  | noColor => "no-color"
  | help => "help"
  | version => "version"
  | secret => "SECRET"
  | task => "TASK"
  | salt => "SALT"
  | result => "RESULT"

/-- The letter after one dash. -/
def letter? : Parameter → Option Char
  | verbose => some 'v'
  | help => some 'h'
  | version => some 'V'
  | _ => none

/-- What an option's value is called; a flag has none. -/
def valueName? : Parameter → Option String
  | config | catalog | checker => some "PATH"
  | timeout => some "SECS"
  | format => some "FORMAT"
  | _ => none

/-- Whether a parameter is given by its position. -/
def isPositional : Parameter → Bool
  | secret | task | salt | result => true
  | _ => false

/-- A parameter as messages and help show it. -/
def shown (p : Parameter) : String :=
  if p.isPositional then "<" ++ p.name ++ ">"
  else
    match p.valueName? with
    | none => "--" ++ p.name
    | some value => "--" ++ p.name ++ " <" ++ value ++ ">"

/-- Whether a value may be a negative number although it starts with a dash. -/
def allowsNegative : Parameter → Bool
  | result => true
  | _ => false

/-- What help says of a parameter. -/
def about : Parameter → String
  | config => "Checker config file; must declare `secret:<value>`"
  | catalog => "Test catalog (`task:expected_result:log_path` per line)"
  | checker => "Checker executable"
  | timeout => "Kill a checker invocation after this many seconds (default: wait indefinitely)"
  | format => "Output format"
  | verbose => "Verbose output"
  | noColor => "Disable colored output"
  | help => "Print help"
  | version => "Print version"
  | secret | task => ""
  | salt => "Salt passed to the checker (1..=2147483647)"
  | result => "Reported result code"

/-- What a parameter is when it is not given. -/
def default? : Parameter → Option String
  | config => some ({} : RunOptions).config
  | catalog => some ({} : RunOptions).catalog
  | checker => some ({} : RunOptions).checker
  | format => some "console"
  | _ => none

/-- The values to choose from. -/
def choices : Parameter → List String
  | format => ["console", "json"]
  | _ => []

end Parameter

/-- What the program can be told to do; `top` is the program without a command. -/
inductive Command where
  | top
  | run
  | list
  | proof
  | help
deriving DecidableEq, Repr

namespace Command

/-- The word that names a command. -/
def name : Command → String
  | top => "logcheck"
  | run => "run"
  | list => "list"
  | proof => "proof"
  | help => "help"

/-- What help says of a command. -/
def about : Command → String
  | top => "Verify a proof-emitting log checker against a catalog of test logs"
  | run => "Run every catalog case against the checker (stops at the first failure)"
  | list => "Print the parsed test catalog without running anything"
  | proof => "Print the proof code a checker must emit for a verdict"
  | help => "Print this message or the help of the given subcommand(s)"

/-- The options of a run. -/
def runOptions : List Parameter :=
  [.config, .catalog, .checker, .timeout, .format, .verbose, .noColor]

/-- The options that a command takes, in the order of its help. -/
def options : Command → List Parameter
  | top => runOptions ++ [.help, .version]
  | run => runOptions ++ [.help]
  | list => [.catalog, .help]
  | proof => [.help]
  | help => []

/-- What a command takes by position, in order; all of it has to be given. -/
def positionals : Command → List Parameter
  | proof => [.secret, .task, .salt, .result]
  | _ => []

/-- The commands below a command. -/
def subcommands : Command → List Command
  | top => [run, list, proof, help]
  | _ => []

/-- The option with a long name. -/
def long? (c : Command) (name : String) : Option Parameter :=
  c.options.find? (·.name = name)

/-- The option with a letter. -/
def short? (c : Command) (letter : Char) : Option Parameter :=
  c.options.find? (·.letter? = some letter)

/-- The command below with a name. -/
def subcommand? (c : Command) (name : String) : Option Command :=
  c.subcommands.find? (·.name = name)

end Command

/-- The version that the program tells. -/
def programVersion : String := "0.1.0"

end CheckerAudit.CommandLine
