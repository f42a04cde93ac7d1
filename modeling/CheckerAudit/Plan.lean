import CheckerAudit.Catalog
import CheckerAudit.Secret

/-!
The plan of a run, and the errors that keep a run from starting. The config is read first: without
its secret the catalog is not looked at.
-/
namespace CheckerAudit

/-- All that is known before the first case runs. -/
structure Plan where
  secret : Secret
  config : String
  cases : List Case
deriving DecidableEq, Repr

/-- The launch for a case with a salt. -/
def Plan.invocation (plan : Plan) (c : Case) (salt : Salt) : Invocation :=
  ⟨plan.config, c.task, salt, c.log⟩

/-- Why a run cannot start. -/
inductive LoadError where
  | config (error : ConfigError)
  | catalog (error : CatalogError)
deriving DecidableEq, Repr

/-- An error as it is shown: what happened, its code, the cause and a hint. A record fault has no
wording, so it is shown without a cause. -/
structure Diagnostic where
  message : String
  code : String
  help : Option String := none
  cause : Option String := none
deriving DecidableEq, Repr

namespace Diagnostic

/-- How a config error is shown. -/
def ofConfigError : ConfigError → Diagnostic
  | .read path cause =>
    { message := "cannot read config file '" ++ path ++ "'"
      code := "logcheck::config::read"
      cause := some cause.message }
  | .missingSecret path =>
    { message := "Bad config, cannot find the secret string in '" ++ path ++ "'"
      code := "logcheck::config::missing_secret"
      help := some "add a line of the form `secret:<value>` to the checker config" }
  | .malformed path _ =>
    { message := "cannot parse config file '" ++ path ++ "'"
      code := "logcheck::config::malformed" }

/-- How a catalog error is shown. -/
def ofCatalogError : CatalogError → Diagnostic
  | .read path cause =>
    { message := "cannot read test catalog '" ++ path ++ "'"
      code := "logcheck::catalog::read"
      cause := some cause.message }
  | .invalidExpectedResult path line value cause =>
    { message :=
        path ++ ":" ++ toString line ++ ": expected result '" ++ value ++ "' is not an integer"
      code := "logcheck::catalog::invalid_expected_result"
      help := some "catalog records have the form `task:expected_result:log_path`"
      cause := some cause.message }
  | .malformed path _ =>
    { message := "cannot parse test catalog '" ++ path ++ "'"
      code := "logcheck::catalog::malformed" }

/-- How an error is shown that keeps a run from starting. -/
def ofLoadError : LoadError → Diagnostic
  | .config e => ofConfigError e
  | .catalog e => ofCatalogError e

/-- The lines of a message, without the spaces at their ends. -/
def messageLines (message : String) : List String :=
  (message.toList.splitOn '\n').map fun line =>
    .ofList (line.reverse.dropWhile (· = ' ')).reverse

/-- The report: the code, a blank line, and the message with its cause and hint. The lines of a
message after its first stand behind a bar. -/
def report (d : Diagnostic) : String :=
  d.code ++ "\n\n  × " ++ "\n  │ ".intercalate (messageLines d.message) ++ "\n" ++
    (match d.cause with
      | none => ""
      | some cause => "  ╰─▶ " ++ cause ++ "\n") ++
    match d.help with
    | none => ""
    | some help => "  help: " ++ help ++ "\n"

end Diagnostic

/-- Finds the secret, then the cases. -/
def Plan.load (files : Files) (config catalog : String) : Traced (Except LoadError Plan) :=
  let secret := Secret.load files config
  match secret.value with
  | .error e => ⟨secret.trace, .error (.config e)⟩
  | .ok value =>
    let cases := Catalog.load files catalog
    match cases.value with
    | .error e => ⟨secret.trace ++ cases.trace, .error (.catalog e)⟩
    | .ok list =>
      { trace := secret.trace ++ cases.trace ++ [.loadedPlan config catalog list.length]
        value := .ok ⟨value, config, list⟩ }

end CheckerAudit
