import CheckerAudit.FileError
import CheckerAudit.Process

/-!
A directory with everything below it, as the working directory of a run. Paths are followed name by
name; some files are programs.
-/
namespace CheckerAudit

/-- What a program does with some files, the words of its command line and a time limit. The first
word is the name that it is started under. -/
abbrev Program := Files → List String → WaitPolicy → List ProcessEvent

/-- A file: its bytes, and what it does when it can be executed. -/
structure FileNode where
  bytes : Text.Bytes
  program : Option Program := none

/-- Files and directories by the names on the way to them. The top itself is not listed. -/
structure FileTree where
  files : List (List String × FileNode) := []
  directories : List (List String) := []

namespace FileTree

/-- The names of a path between its slashes. -/
def names (path : String) : List String :=
  (path.toList.splitOn '/').map .ofList

/-- Where a path leads: a place in the tree, or one outside of it. -/
inductive Location where
  | inside (names : List String)
  | outside
deriving DecidableEq, Repr

/-- Adds a file from a directory on, with the directories on the way, also those that the way leaves
again. A way above the top adds no file. -/
def insertFrom (t : FileTree) (here : List String) (node : FileNode) : List String → FileTree
  | [] => t
  | [name] => { t with files := (here ++ [name], node) :: t.files }
  | name :: rest =>
    if name = "" ∨ name = "." then insertFrom t here node rest
    else if name = ".." then if here.isEmpty then t else insertFrom t here.dropLast node rest
    else
      insertFrom { t with directories := (here ++ [name]) :: t.directories } (here ++ [name]) node
        rest

/-- Adds a file under a path. -/
def insert (t : FileTree) (path : String) (node : FileNode) : FileTree :=
  t.insertFrom [] node (names path)

/-- The file at a place. -/
def file? (t : FileTree) (place : List String) : Option FileNode :=
  t.files.lookup place

/-- The top is a directory too. -/
def isDirectory (t : FileTree) (place : List String) : Bool :=
  place.isEmpty || t.directories.contains place

/-- Follows names from a location. Beyond the top nothing but directories is known. -/
def follow (t : FileTree) : Location → List String → Except FileError Location
  | here, [] => .ok here
  | .outside, name :: rest =>
    if name = "" ∨ name = "." ∨ name = ".." then follow t .outside rest else .error .notFound
  | .inside here, name :: rest =>
    if !t.isDirectory here then .error .notDirectory
    else if name = "" ∨ name = "." then follow t (.inside here) rest
    else if name = ".." then
      follow t (if here.isEmpty then .outside else .inside here.dropLast) rest
    else
      let next := here ++ [name]
      if (t.file? next).isSome || t.isDirectory next then follow t (.inside next) rest
      else .error .notFound

/-- Where a path leads from the top of the tree. -/
def locate (t : FileTree) (path : String) : Except FileError Location :=
  if path.isEmpty then .error .notFound
  else if path.startsWith "/" then t.follow .outside (names path)
  else t.follow (.inside []) (names path)

/-- The bytes at a path. -/
def read (t : FileTree) : Files := fun path =>
  match t.locate path with
  | .error e => .error e
  | .ok .outside => .error .isDirectory
  | .ok (.inside here) =>
    match t.file? here with
    | none => .error .isDirectory
    | some node => .ok node.bytes

/-- The cause of a launch that fails on an argument holding a NUL. -/
def nulByte : String := "nul byte found in provided data"

/-- Whether a text holds the character that ends an argument. -/
def holdsNul (text : String) : Bool :=
  text.toList.contains '\x00'

/-- Why a name without a slash starts nothing. Such a name is looked up where programs are
installed, never in the tree; one or two dots are directories there. -/
def searchError (name : String) : FileError :=
  if name = "." ∨ name = ".." then .permissionDenied else .notFound

/-- Starts the program at a path. -/
def launch (t : FileTree) : Launcher := fun command wait =>
  if holdsNul command.program || command.arguments.any holdsNul then .error nulByte
  else if !command.program.toList.contains '/' then
    .error (searchError command.program).message
  else
    match t.locate command.program with
    | .error e => .error e.message
    | .ok .outside => .error FileError.permissionDenied.message
    | .ok (.inside here) =>
      match (t.file? here).bind (·.program) with
      | none => .error FileError.permissionDenied.message
      | some program => .ok (program t.read (command.program :: command.arguments) wait)

end FileTree

end CheckerAudit
