import CheckerAudit.CommandLine.Execute

/-!
The program. It reads the files that a command names, and leaves the rest to `execute`. It starts
no other program itself: a host that can hands its own launcher to `execute`.
-/
namespace CheckerAudit.Main

open CommandLine

/-- The cause of a read that failed. Opening gives system codes with a minus sign, reading without. -/
def causeOf : IO.Error → FileError
  | .noFileOrDirectory .. => .notFound
  | .permissionDenied .. => .permissionDenied
  | .inappropriateType _ code _ => if code = 20 ∨ code = -20 then .notDirectory else .isDirectory
  | _ => .notFound

/-- Reads a file, with the cause of a failure sorted by kind. -/
def readPath (path : String) : IO (Except FileError Text.Bytes) := do
  try
    let bytes ← IO.FS.readBinFile path
    return .ok bytes.toList
  catch e => return .error (causeOf e)

/-- The files that an action reads. -/
def paths : Action → List String
  | .run _ values =>
    let options := values.runOptions false
    [options.config, options.catalog]
  | .list catalog => [catalog]
  | .proof .. => []

/-- The files of a command line, read before it is carried out. -/
def readFiles (arguments : List String) : IO (List (String × Except FileError Text.Bytes)) := do
  match parse arguments with
  | .error _ => return []
  | .ok action => (paths action).mapM fun path => do return (path, ← readPath path)

/-- More random words than there can be cases: a case takes more than one byte. -/
def wordsFor (contents : List (String × Except FileError Text.Bytes)) : Nat :=
  contents.foldl (fun n (_, read) => n + (read.toOption.map (·.length)).getD 0) 64

/-- The cause given for every launch. -/
def noLauncher : String := "Function not implemented (os error 38)"

/-- Draws random words. -/
def randomWords (count : Nat) : IO (List UInt32) :=
  (List.range count).mapM fun _ => do return UInt32.ofNat (← IO.rand 0 4294967295)

/-- The directory that the program runs in. -/
def currentDirectory : IO (Except FileError String) := do
  try
    return .ok (← IO.currentDir).toString
  catch e => return .error (causeOf e)

/-- The lines of the log that are shown. -/
def shownLog (log : List TraceEvent) : String :=
  String.join ((log.filter TraceEvent.isShown).map fun event => event.text ++ "\n")

end CheckerAudit.Main

open CheckerAudit in
def main (arguments : List String) : IO UInt32 := do
  let contents ← Main.readFiles arguments
  let words ← Main.randomWords (Main.wordsFor contents)
  let host : Host :=
    { files := fun path => (contents.lookup path).getD (.error .notFound)
      launch := fun _ _ => .error Main.noLauncher
      words
      timing := ⟨fun _ => .zero, .zero⟩
      directory := ← Main.currentDirectory }
  let done := CommandLine.execute host arguments
  IO.print done.stdout
  IO.eprint (Main.shownLog done.log)
  IO.eprint done.stderr
  return UInt32.ofNat done.status
