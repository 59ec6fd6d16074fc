import Wordlet.Files
import Wordlet.Text.Lines

/-!
# Source files

The text of a source file is its content read as strict UTF-8, with every line end turned into a
newline. A byte order mark is part of the text. The name of a source file must have the right end.
-/

namespace Wordlet

/-- Why the content of a file has no text. -/
inductive Unreadable where
  | directory
  | undecodable (error : Text.Utf8Error)
deriving DecidableEq, Repr

/-- Why a path gives no source text. -/
inductive SourceError where
  | wrongExtension (path : Raw) (extension : String)
  | notFound (path : Raw)
  | unreadable (path : Raw) (why : Unreadable)
deriving DecidableEq, Repr

/-- The text of a decoding error: the one bad byte, or the range of the bad bytes. -/
def Text.Utf8Error.text (e : Text.Utf8Error) : String :=
  let place :=
    if e.count = 1 then
      "byte 0x" ++ String.ofList (Text.hex 2 e.lead.toNat) ++ " in position " ++ toString e.offset
    else
      "bytes in position " ++ toString e.offset ++ "-" ++ toString (e.offset + e.count - 1)
  "'utf-8' codec can't decode " ++ place ++ ": " ++ e.flaw.message

namespace SourceError

/-- The text of a source error. -/
def text : SourceError → String
  | wrongExtension path extension =>
    path.shown ++ "'s file extension is not `" ++ extension ++ "`"
  | notFound path => "file not found: " ++ path.shown
  | unreadable path .directory =>
    "cannot read " ++ path.shown ++ ": [Errno 21] Is a directory: " ++ path.quoted
  | unreadable path (.undecodable e) => "cannot read " ++ path.shown ++ ": " ++ e.text

end SourceError

/-- The text of a file's content. -/
def sourceText (bytes : List UInt8) : Except Text.Utf8Error String :=
  match Text.decodeUtf8 bytes with
  | .ok cs => .ok (String.ofList (Text.unifyNewlines cs))
  | .error e => .error e

namespace Files

/-- The source text at a path whose name must end in `extension`. -/
def readSource (fs : Files) (path : Raw) (extension : String) : Except SourceError String :=
  if ¬ (Raw.ofString extension).pieces.isSuffixOf path.pieces then
    .error (.wrongExtension path extension)
  else
    match fs.resolve path with
    | .file _ bytes =>
      match sourceText bytes with
      | .ok text => .ok text
      | .error e => .error (.unreadable path (.undecodable e))
    | .directory => .error (.unreadable path .directory)
    | _ => .error (.notFound path)

end Files

end Wordlet
