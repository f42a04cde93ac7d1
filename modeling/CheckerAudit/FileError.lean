import CheckerAudit.Text.Utf8

/-!
Reading a file: its bytes or its text, or why there is none.
-/
namespace CheckerAudit

/-- Why a file has no text. -/
inductive FileError where
  | notFound
  | permissionDenied
  | notDirectory
  | isDirectory
  | notText
deriving DecidableEq, Repr

/-- What is said about an unreadable file. -/
def FileError.message : FileError → String
  | notFound => "No such file or directory (os error 2)"
  | permissionDenied => "Permission denied (os error 13)"
  | notDirectory => "Not a directory (os error 20)"
  | isDirectory => "Is a directory (os error 21)"
  | notText => "stream did not contain valid UTF-8"

/-- The state of all files: what reading a path gives. -/
abbrev Files := String → Except FileError Text.Bytes

/-- The text of a file, which has to be valid UTF-8. -/
def Files.readText (files : Files) (path : String) : Except FileError String :=
  match files path with
  | .error e => .error e
  | .ok bytes =>
    match Text.Utf8.decode? bytes with
    | none => .error .notText
    | some chars => .ok (.ofList chars)

end CheckerAudit
