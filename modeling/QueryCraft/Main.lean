import QueryCraft.CommandLine.Run

/-!
The program. What a path leads to is read before a command runs; the files below a directory are
listed on standard input, one path a line.
-/

open QueryCraft QueryCraft.CommandLine

/-- The paths that standard input lists. -/
def listedPaths : IO (List String) := do
  let input ← (← IO.getStdin).readToEnd
  pure (((Text.lines input.toList).filter (!·.isEmpty)).map String.ofList)

/-- The path of a file below a directory, from there on. -/
def pathBelow? (directory path : String) : Option String :=
  let start := (FileTree.entryPath directory "").toList
  if start.isPrefixOf path.toList then some (String.ofList (path.toList.drop start.length)) else none

/-- The tree of the listed files below a directory. -/
def readDirectory (listed : List String) (path : String) : IO FileTree := do
  let mut tree := FileTree.empty
  for file in listed do
    if let some below := pathBelow? path file then
      tree := tree.insert (← IO.FS.readBinFile file) (FileTree.components below)
  pure tree

/-- What a path leads to; a directory is left empty. -/
def readPath (path : String) : IO Lookup := do
  try
    pure (.ok (.file (← IO.FS.readBinFile path)))
  catch
    | .noFileOrDirectory .. => pure (.error .missing)
    | .invalidArgument _ 36 _ => pure (.error .nameTooLong)
    | .inappropriateType _ 20 _ => pure (.error .notDirectory)
    | .inappropriateType _ 21 _ => pure (.ok .empty)
    | e => pure (.error (.other (toString e)))

def isDirectory : Lookup → Bool
  | .ok (.directory _) => true
  | _ => false

/-- What each path leads to. Standard input is read only if one leads to a directory. -/
def readPaths (paths : List String) : IO (List (String × Lookup)) := do
  let found ← paths.mapM fun path => do pure (path, ← readPath path)
  if found.any (fun f => isDirectory f.2) then
    let listed ← listedPaths
    found.mapM fun (path, lookup) => do
      if isDirectory lookup then pure (path, .ok (← readDirectory listed path))
      else pure (path, lookup)
  else
    pure found

def usage : String :=
  "usage: querycraft (fields | synthesize | transform) [options] PATH..."

def brokenOff : String :=
  "querycraft: a margin is too wide to be printed"

/-- Runs the command line; the exit code is 2 if it cannot be read, 1 if the command fails and 101
if it is broken off. -/
def main (arguments : List String) : IO UInt32 := do
  match readCommand false arguments with
  | .error .help =>
    IO.println usage
    pure 0
  | .error .invalid =>
    IO.eprintln usage
    pure 2
  | .ok command =>
    let found ← readPaths command.paths
    let files (path : String) : Lookup := (found.lookup path).getD (.error .missing)
    match (command.run files).run with
    | none =>
      IO.eprintln brokenOff
      pure 101
    | some (.ok output) =>
      IO.println output
      pure 0
    | some (.error failure) =>
      IO.eprintln failure.text
      pure 1
