import CheckerAudit.CommandLine.Parameter
import CheckerAudit.Numeral.Literal
import CheckerAudit.Text.Lines
import CheckerAudit.Text.Terminal

/-!
Reading a command line. Options come in any order, with their value after an equals sign or in the
next argument; letters of flags can be joined. A value in the next argument is looked at only when
another argument needs the room, so an argument that nothing accepts is reported first.
-/
namespace CheckerAudit.CommandLine

/-- Why a value is refused. -/
inductive ValueFault where
  | literal (fault : Numeral.Fault)
  | outside (value : Int) (range : String)
deriving DecidableEq, Repr

/-- What is said about a refused value. -/
def ValueFault.message : ValueFault → String
  | literal fault => fault.message
  | outside value range => toString value ++ " is not in " ++ range

/-- Why a command line is refused. -/
inductive UsageError where
  | unknownArgument (shown : String)
  | unknownCommand (name : String)
  | commandConflict (name : String) (given : List Parameter)
  | repeated (parameter : Parameter)
  | unwantedValue (value : String) (parameter : Parameter)
  | missingValue (parameter : Parameter)
  | unknownChoice (value : String) (parameter : Parameter)
  | invalidValue (value : String) (parameter : Parameter) (fault : ValueFault)
  | missingArguments
deriving DecidableEq, Repr

/-- A word of the command line as messages quote it: without terminal control. -/
def inQuotes (reading : Text.Terminal.Reading) (word : String) : String :=
  "'" ++ reading.plain word ++ "'"

/-- What is said about an error. -/
def UsageError.sentence (reading : Text.Terminal.Reading) : UsageError → String
  | unknownArgument shown => "unexpected argument " ++ inQuotes reading shown ++ " found"
  | unknownCommand name => "unrecognized subcommand " ++ inQuotes reading name
  | commandConflict name given =>
    "the subcommand " ++ inQuotes reading name ++ " cannot be used with" ++
      match given with
      | [] => " one or more of the other specified arguments"
      | [p] => " '" ++ p.shown ++ "'"
      | _ => ":"
  | repeated p => "the argument '" ++ p.shown ++ "' cannot be used multiple times"
  | unwantedValue value p =>
    "unexpected value " ++ inQuotes reading value ++ " for '" ++ p.shown ++
      "' found; no more were expected"
  | missingValue p => "a value is required for '" ++ p.shown ++ "' but none was supplied"
  | unknownChoice value p => "invalid value " ++ inQuotes reading value ++ " for '" ++ p.shown ++ "'"
  | invalidValue value p fault =>
    "invalid value " ++ inQuotes reading value ++ " for '" ++ p.shown ++ "': " ++ fault.message
  | missingArguments => "the following required arguments were not provided:"

/-- The first line of the message about an error, as a text or as printed to a stream. A line feed
in a quoted word ends it. -/
def UsageError.message (e : UsageError) (reading : Text.Terminal.Reading) : String :=
  .ofList (Text.firstLine ("error: " ++ e.sentence reading).toList)

/-- Why no command is carried out: help or the version is wanted, or there is an error. -/
inductive Stop where
  | help (command : Command)
  | version
  | error (cause : UsageError)
deriving DecidableEq, Repr

/-- The values given so far. -/
structure Values where
  config : Option String := none
  catalog : Option String := none
  checker : Option String := none
  timeout : Option Nat := none
  format : Option OutputFormat := none
  verbose : Bool := false
  noColor : Bool := false
  secret : Option String := none
  task : Option String := none
  salt : Option UInt32 := none
  result : Option Int64 := none
deriving DecidableEq, Repr

namespace Values

/-- A path is any text but the empty one. -/
def path (p : Parameter) (text : String) : Except UsageError String :=
  if text.isEmpty then .error (.missingValue p) else .ok text

/-- An integer within a range that has a text of its own. -/
def integer (p : Parameter) (text : String) (type : Numeral.Range) (least greatest : Int)
    (range : String) : Except UsageError Int :=
  match Numeral.read type text.toList with
  | .error fault => .error (.invalidValue text p (.literal fault))
  | .ok n =>
    if least ≤ n ∧ n ≤ greatest then .ok n else .error (.invalidValue text p (.outside n range))

/-- One of the names of a format. -/
def outputFormat (p : Parameter) (text : String) : Except UsageError OutputFormat :=
  if text.isEmpty then .error (.missingValue p)
  else if text = "console" then .ok .console
  else if text = "json" then .ok .json
  else .error (.unknownChoice text p)

/-- Sets a parameter from the text of its value; that of a flag does not matter. -/
def set (v : Values) (p : Parameter) (text : String) : Except UsageError Values :=
  match p with
  | .config => (path p text).map fun x => { v with config := some x }
  | .catalog => (path p text).map fun x => { v with catalog := some x }
  | .checker => (path p text).map fun x => { v with checker := some x }
  | .timeout =>
    (integer p text Numeral.unsigned64 1 18446744073709551615 "1..18446744073709551615").map
      fun n => { v with timeout := some n.toNat }
  | .format => (outputFormat p text).map fun x => { v with format := some x }
  | .verbose => .ok { v with verbose := true }
  | .noColor => .ok { v with noColor := true }
  | .help | .version => .ok v
  | .secret => .ok { v with secret := some text }
  | .task => .ok { v with task := some text }
  | .salt =>
    (integer p text Numeral.signed64 0 4294967295 "0..=4294967295").map
      fun n => { v with salt := some (UInt32.ofNat n.toNat) }
  | .result =>
    (integer p text Numeral.signed64 Numeral.signed64.least Numeral.signed64.greatest "").map
      fun n => { v with result := some (Int64.ofInt n) }

/-- The options of a run: what was given, and the defaults. Colours need a terminal. -/
def runOptions (v : Values) (terminal : Bool) : RunOptions where
  config := v.config.getD ({} : RunOptions).config
  catalog := v.catalog.getD ({} : RunOptions).catalog
  checker := v.checker.getD ({} : RunOptions).checker
  wait :=
    match v.timeout with
    | none => .unbounded
    | some seconds => .limit (.ofSeconds seconds)
  format := v.format.getD ({} : RunOptions).format
  verbose := v.verbose
  color := !v.noColor && terminal

end Values

/-- What a command line asks for. -/
inductive Action where
  | run (named : Bool) (values : Values)
  | list (catalog : String)
  | proof (secret task : String) (salt : UInt32) (result : Int64)
deriving DecidableEq, Repr

/-- A command line in the middle of its reading: the values, which parameters they belong to, the
parameter whose value is still to come or to be looked at, whether any argument was recognised,
whether only positions count from here on, and how many are taken. -/
structure State where
  values : Values := {}
  given : List Parameter := []
  pending : Option (Parameter × Option String) := none
  recognised : Bool := false
  literal : Bool := false
  filled : Nat := 0
deriving DecidableEq, Repr

namespace State

/-- Looks at the pending value: the state without it, and what is wrong with it. A parameter that
comes twice is given no more. -/
def settle (s : State) : State × Option UsageError :=
  match s.pending with
  | none => (s, none)
  | some (p, none) => ({ s with pending := none }, some (.missingValue p))
  | some (p, some text) =>
    if p ∈ s.given then
      ({ s with pending := none, given := s.given.erase p }, some (.repeated p))
    else
      match s.values.set p text with
      | .error e => ({ s with pending := none, given := s.given ++ [p] }, some e)
      | .ok values => ({ s with pending := none, given := s.given ++ [p], values }, none)

/-- The state without a pending value, if nothing is wrong with it. -/
def settled (s : State) : Except Stop State :=
  match s.settle with
  | (next, none) => .ok next
  | (_, some e) => .error (.error e)

/-- Takes an option or a flag at once. -/
def take (s : State) (c : Command) (p : Parameter) (text : String) : Except Stop State :=
  match { s with recognised := true }.settled with
  | .error stop => .error stop
  | .ok s =>
    if p = .help then .error (.help c)
    else if p = .version then .error .version
    else { s with pending := some (p, some text) }.settled

/-- Takes joined letters, one flag after the other. -/
def takeLetters (s : State) (c : Command) : List Char → Except Stop State
  | [] => .ok s
  | letter :: rest =>
    match c.short? letter with
    | none => .error (.error (.unknownArgument (String.ofList ['-', letter])))
    | some p =>
      match s.take c p "" with
      | .error stop => .error stop
      | .ok next => takeLetters next c rest

/-- Takes an argument that starts with two dashes. -/
def takeLong (s : State) (c : Command) (name : String) (value? : Option String) :
    Except Stop State :=
  match c.long? name with
  | none => .error (.error (.unknownArgument ("--" ++ name)))
  | some p =>
    match p.valueName?, value? with
    | none, none => s.take c p ""
    | none, some value => .error (.error (.unwantedValue value p))
    | some _, some value => s.take c p value
    | some _, none =>
      match { s with recognised := true }.settled with
      | .error stop => .error stop
      | .ok s => .ok { s with pending := some (p, none) }

/-- The error for an argument that no position is left for. -/
def refuse (s : State) (c : Command) (arg : String) : UsageError :=
  let s := s.settle.1
  if c.subcommands.isEmpty then .unknownArgument arg
  else if s.recognised then .commandConflict arg s.given
  else if s.literal && (c.subcommand? arg).isSome then .unknownArgument arg
  else .unknownCommand arg

/-- Takes a value: of the option that waits for it, or of the next position. -/
def takeValue (s : State) (c : Command) (arg : String) : Except Stop State :=
  match s.pending, s.literal with
  | some (p, none), false => .ok { s with pending := some (p, some arg) }
  | _, _ =>
    match c.positionals[s.filled]? with
    | none => .error (.error (s.refuse c arg))
    | some p =>
      match s.settled with
      | .error stop => .error stop
      | .ok s =>
        .ok
          { s with pending := some (p, some arg), filled := s.filled + 1, recognised := true }

end State

/-- The characters of a number after its sign: digits, a point after the first of them and before
any exponent, and an exponent mark with something before and after it. -/
def looksNumeric (cs : List Char) : Bool :=
  let rec go (first point exponent : Bool) : List Char → Bool
    | [] => true
    | c :: rest =>
      if c.isDigit then go false point exponent rest
      else if c = '.' then !first && !point && !exponent && go false true exponent rest
      else if c = 'e' || c = 'E' then
        !first && !exponent && !rest.isEmpty && go false point true rest
      else false
  go true false false cs

/-- What an argument is by its looks. -/
inductive Word where
  | command (c : Command)
  | separator
  | long (name : String) (value? : Option String)
  | letters (cs : List Char)
  | value
deriving DecidableEq, Repr

/-- A long argument's name and the value after its first equals sign. -/
def splitLong (cs : List Char) : Word :=
  let name := cs.takeWhile (· ≠ '=')
  match cs.dropWhile (· ≠ '=') with
  | [] => .long (.ofList name) none
  | _ :: value => .long (.ofList name) (some (.ofList value))

/-- Looks at an argument. After a separator every argument is a value; a command's name is one only
before any recognised argument. -/
def classify (c : Command) (s : State) (arg : String) : Word :=
  if s.literal then .value
  else
    match if s.recognised then none else c.subcommand? arg with
    | some sub => .command sub
    | none =>
      match arg.toList with
      | ['-', '-'] => .separator
      | '-' :: '-' :: rest => splitLong rest
      | ['-'] => .value
      | '-' :: rest =>
        let negative := ((c.positionals[s.filled]?).map (·.allowsNegative)).getD false
        if negative && looksNumeric rest then .value else .letters rest
      | _ => .value

/-- The command that names lead to from the top, for its help. -/
def helpFor (c : Command) : List String → Stop
  | [] => .help c
  | name :: rest =>
    match c.subcommand? name with
    | none => .error (.unknownCommand name)
    | some sub => helpFor sub rest

/-- What the values of a command amount to. -/
def action (c : Command) (s : State) : Except Stop Action :=
  match s.settled with
  | .error stop => .error stop
  | .ok s =>
    match c with
    | .top => .ok (.run false s.values)
    | .run => .ok (.run true s.values)
    | .list => .ok (.list (s.values.catalog.getD ({} : RunOptions).catalog))
    | .proof =>
      match s.values.secret, s.values.task, s.values.salt, s.values.result with
      | some secret, some task, some salt, some result => .ok (.proof secret task salt result)
      | _, _, _, _ => .error (.error .missingArguments)
    | .help => .error (.help .top)

/-- Reads the arguments of a command from a state on. -/
def parseFrom (c : Command) (s : State) : List String → Except Stop Action
  | [] => action c s
  | arg :: rest =>
    match classify c s arg with
    | .command .help => .error (helpFor .top rest)
    | .command sub => parseFrom sub {} rest
    | .separator => parseFrom c { s with literal := true } rest
    | .long name value? =>
      match s.takeLong c name value? with
      | .error stop => .error stop
      | .ok next => parseFrom c next rest
    | .letters cs =>
      match s.takeLetters c cs with
      | .error stop => .error stop
      | .ok next => parseFrom c next rest
    | .value =>
      match s.takeValue c arg with
      | .error stop => .error stop
      | .ok next => parseFrom c next rest

/-- Reads the arguments of the program. -/
def parse (arguments : List String) : Except Stop Action :=
  parseFrom .top {} arguments

end CheckerAudit.CommandLine
