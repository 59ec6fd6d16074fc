import Wordlet.Command.Response

/-!
# The program

The program itself: it looks up what the command line needs to know about the disk and the
environment, lets `Command.respond` decide, and carries out the response.
-/

namespace Wordlet.Command

/-- The paths that a task reads or writes. -/
def Task.paths : Task → List Raw
  | .run o => [o.path]
  | .format o => [o.path]
  | .validate path => [path]
  | .displayFunctions o => o.path :: o.output.toList
  | .natives => []

/-- The path of names from the root. -/
def absolutePath (names : List Raw) : String := "/" ++ "/".intercalate (names.map Raw.shown)

/-- What the names from the root lead to on the disk. -/
def probe (names : List Raw) : IO (Option Entry) := do
  let path := (← IO.currentDir) / absolutePath names
  if ← path.isDir then return some .directory
  if ← path.pathExists then return some (.file (← IO.FS.readBinFile path).toList)
  return none

/-- Adds to the tree what the steps meet on the disk from the directory `here` on. -/
def explore (fs : Files) (here : List Raw) : List Raw → IO Files
  | [] => return fs
  | step :: rest =>
    if step = "" ∨ step = "." then explore fs here rest
    else if step = ".." then explore fs here.dropLast rest
    else do
      match ← probe (here ++ [step]) with
      | none => return fs
      | some e => explore (fs.set (here ++ [step]) e) (here ++ [step]) rest

/-- The part of the disk that a command line can reach. -/
def survey (args : List Raw) : IO Files := do
  let here := (Files.steps (← IO.currentDir).toString).filter (!·.isEmpty)
  let paths := match Invocation.ofArguments args with
    | .ok i => (i.task.map Task.paths).getD []
    | .error _ => []
  paths.foldlM (fun fs path => explore fs (fs.origin path) (Files.steps path)) ⟨here, []⟩

/-- The variables that settings depend on. -/
def environment : IO Environment := do
  let names := ["IDEM_TRACE", "IDEM_MAX_DEPTH"]
  return (← names.mapM fun name => return (← IO.getEnv name).map (name, ·)).filterMap id

/-- Carries out a response. -/
def Response.carryOut (before : Files) (r : Response) : IO UInt32 := do
  for (names, bytes) in before.changed r.files do
    IO.FS.writeBinFile (absolutePath names) ⟨bytes.toArray⟩
  IO.print r.stdout
  IO.eprint r.stderr
  match r.status with
  | .exit code => return code.toUInt32
  | .escaped e =>
    IO.eprintln e.text
    return 1

end Wordlet.Command

/-- Runs the command line `args`. -/
def main (args : List String) : IO UInt32 := do
  let args := args.map Wordlet.Raw.ofString
  let files ← Wordlet.Command.survey args
  let env ← Wordlet.Command.environment
  (Wordlet.Command.respond files env args).carryOut files
