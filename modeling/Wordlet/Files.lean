import Wordlet.Text.Raw
import Wordlet.Text.Utf8

/-!
# Files

A `Files` value holds a tree of files and directories and the place of the working directory in it.
Paths are resolved step by step, from the root when they start with a slash and from the working
directory otherwise: `.` and empty steps stay, `..` goes up, and every step but the last must
lead to a directory.

A file is created, or emptied, before anything is written to it. So a text that cannot be written
leaves an empty file behind.

* `Files.resolve` — what a path leads to.
* `Files.write` — what becomes of a text that is written to a path, and the files after that.
* `Files.changed` — the files that differ between two states.
-/

namespace Wordlet

/-- What has a name in a directory. -/
inductive Entry where
  | file (bytes : List UInt8)
  | directory
deriving DecidableEq, Repr, Inhabited

/-- A tree of files: its entries, each under the names that lead to it from the root. The
directories on the way to the working directory or to an entry need not be listed. -/
structure Files where
  working : List Raw
  entries : List (List Raw × Entry)
deriving Repr, Inhabited

/-- What a path leads to. -/
inductive Place where
  | file (names : List Raw) (bytes : List UInt8)
  | directory
  /-- Nothing, in a directory that exists. -/
  | vacant (names : List Raw)
  /-- Nothing, and a directory on the way does not exist either. -/
  | missing
  /-- Nothing, since a step on the way leads to a file. -/
  | throughFile
  /-- Nothing, since a name is longer than names can be. -/
  | nameTooLong
deriving DecidableEq, Repr, Inhabited

/-- Why a text cannot be written to a path. -/
inductive WriteError where
  | notFound
  | notADirectory
  | isADirectory
  | nameTooLong
  /-- The path holds a character that no path can hold. -/
  | badPath
  /-- The text has no encoding. The file is there, and it is empty. -/
  | unencodable (error : Raw.EncodeError)
deriving DecidableEq, Repr, Inhabited

namespace Files

/-- The longest name, in bytes. -/
def maxName : Nat := 255

/-- The longest path, in bytes. -/
def maxPath : Nat := 4095

/-- The parts of a path between slashes. -/
def splitSlashes : List Piece → List (List Piece)
  | [] => [[]]
  | p :: ps =>
    if p = .char '/' then [] :: splitSlashes ps
    else
      match splitSlashes ps with
      | [] => [[p]]
      | step :: steps => (p :: step) :: steps

/-- The steps of a path. -/
def steps (path : Raw) : List Raw := (splitSlashes path.pieces).map Raw.mk

/-- The names lead to a directory that is on the way to something else. -/
def isPassed (fs : Files) (names : List Raw) : Bool :=
  names.isPrefixOf fs.working || fs.entries.any fun e => names.isPrefixOf e.1

/-- The entry that the names lead to from the root. -/
def find? (fs : Files) (names : List Raw) : Option Entry :=
  match fs.entries.lookup names with
  | some e => some e
  | none => if fs.isPassed names then some .directory else none

/-- Follows steps from the directory `here`. -/
def follow (fs : Files) (here : List Raw) : List Raw → Place
  | [] => .directory
  | step :: rest =>
    if step = "" ∨ step = "." then fs.follow here rest
    else if step = ".." then fs.follow here.dropLast rest
    else if maxName < step.byteSize then .nameTooLong
    else
      match fs.find? (here ++ [step]) with
      | some .directory => fs.follow (here ++ [step]) rest
      | some (.file bytes) => if rest.isEmpty then .file (here ++ [step]) bytes else .throughFile
      | none => if rest.isEmpty then .vacant (here ++ [step]) else .missing

/-- Where a path starts. -/
def origin (fs : Files) (path : Raw) : List Raw :=
  if path.pieces.head? = some (.char '/') then [] else fs.working

/-- What a path leads to. -/
def resolve (fs : Files) (path : Raw) : Place :=
  if path.isEmpty then .missing
  else if maxPath < path.byteSize then .nameTooLong
  else fs.follow (fs.origin path) (steps path)

/-- The steps that writing to a path takes. With a slash at its end a path can only name a
directory, whatever its last name is. -/
def writeSteps (path : Raw) : List Raw :=
  if path.pieces.getLast? = some (.char '/') then
    ((steps path).reverse.dropWhile (·.isEmpty)).tail.reverse ++ [Raw.ofString "."]
  else steps path

/-- The names of the file that writing to a path creates or replaces. -/
def target (fs : Files) (path : Raw) : Except WriteError (List Raw) :=
  if path.pieces.contains (.char '\x00') then .error .badPath
  else if path.isEmpty then .error .notFound
  else if maxPath < path.byteSize then .error .nameTooLong
  else
    match fs.follow (fs.origin path) (writeSteps path) with
    | .file names _ | .vacant names => .ok names
    | .directory => .error .isADirectory
    | .missing => .error .notFound
    | .throughFile => .error .notADirectory
    | .nameTooLong => .error .nameTooLong

/-- The files after the entry at `names` is set. -/
def set (fs : Files) (names : List Raw) (e : Entry) : Files :=
  if fs.entries.any fun f => f.1 == names then
    { fs with entries := fs.entries.map fun f => if f.1 == names then (names, e) else f }
  else { fs with entries := fs.entries ++ [(names, e)] }

/-- What becomes of `text` when it is written to `path`, and the files after that. -/
def write (fs : Files) (path text : Raw) : Except WriteError Unit × Files :=
  match fs.target path with
  | .error e => (.error e, fs)
  | .ok names =>
    match text.encode with
    | .ok s => (.ok (), fs.set names (.file (Text.encodeUtf8 s)))
    | .error e => (.error (.unencodable e), fs.set names (.file []))

/-- The files of `after` that are not the same in `before`, under their names from the root. -/
def changed (before after : Files) : List (List Raw × List UInt8) :=
  after.entries.filterMap fun (names, e) =>
    match e with
    | .directory => none
    | .file bytes => if before.entries.lookup names = some e then none else some (names, bytes)

/-- The path from the working directory to names below it. -/
def relativePath? (fs : Files) (names : List Raw) : Option String :=
  if fs.working.isPrefixOf names then
    some ("/".intercalate ((names.drop fs.working.length).map Raw.shown))
  else none

end Files

namespace WriteError

/-- The text of a failed write to `path`. -/
def text (path : Raw) : WriteError → String
  | notFound => "FileNotFoundError: [Errno 2] No such file or directory: " ++ path.quoted
  | notADirectory => "NotADirectoryError: [Errno 20] Not a directory: " ++ path.quoted
  | isADirectory => "IsADirectoryError: [Errno 21] Is a directory: " ++ path.quoted
  | nameTooLong => "OSError: [Errno 36] File name too long: " ++ path.quoted
  | badPath => "embedded null byte"
  | unencodable e => e.text

end WriteError

end Wordlet
