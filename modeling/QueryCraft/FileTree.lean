import QueryCraft.Text.Search

/-!
Trees of files, and the files that paths lead to in them.
-/

namespace QueryCraft

inductive FileTree where
  | file (content : ByteArray)
  | directory (entries : List (String × FileTree))

/-- Why a path leads nowhere. -/
inductive PathError where
  | missing
  | notDirectory
  | nameTooLong
  | nulCharacter
  | other (message : String)
  deriving DecidableEq, Repr

/-- What a path leads to. -/
abbrev Lookup : Type := Except PathError FileTree

def PathError.message : PathError → String
  | .missing => "No such file or directory (os error 2)"
  | .notDirectory => "Not a directory (os error 20)"
  | .nameTooLong => "File name too long (os error 36)"
  | .nulCharacter => "file name contained an unexpected NUL byte"
  | .other message => message

namespace FileTree

def empty : FileTree :=
  .directory []

/-- The most bytes that the name of a file may have. -/
def maxNameLength : Nat := 255

/-- The most bytes that a path may have. -/
def maxPathLength : Nat := 4095

/-- What the components of a path lead to from a tree; `above` holds the directories around it. -/
def follow : List FileTree → FileTree → List String → Lookup
  | _, tree, [] => .ok tree
  | _, .file _, _ :: _ => .error .notDirectory
  | above, .directory entries, name :: names =>
    if name = "" ∨ name = "." then follow above (.directory entries) names
    else if name = ".." then
      match above with
      | [] => follow [] (.directory entries) names
      | parent :: above => follow above parent names
    else if maxNameLength < name.utf8ByteSize then .error .nameTooLong
    else
      match entries.lookup name with
      | some tree => follow (.directory entries :: above) tree names
      | none => .error .missing

/-- The components of a path, with an empty one behind a slash at its end. -/
def components (path : String) : List String :=
  (Text.splitOn '/' path.toList).map String.ofList

/-- Puts a file at the end of a path, below directories that are made where there are none. -/
def insert (content : ByteArray) : List String → FileTree → FileTree
  | [], _ => .file content
  | name :: names, tree =>
    let entries := match tree with
      | .directory entries => entries
      | .file _ => []
    let old := (entries.lookup name).getD empty
    .directory ((entries.filter (·.1 != name)) ++ [(name, insert content names old)])

/-- The path of an entry of the directory at a path. -/
def entryPath (path name : String) : String :=
  if path.toList.getLast? = some '/' then path ++ name else path ++ "/" ++ name

def sortEntries {α : Type} (entries : List (String × α)) : List (String × α) :=
  entries.mergeSort fun a b => !decide (b.1 < a.1)

mutual

/-- The files in a tree with their paths, given the path of the tree. A directory's entries are
visited by the order of their names. -/
def files (path : String) : FileTree → List (String × ByteArray)
  | .file content => [(path, content)]
  | .directory entries => ((sortEntries (entryFiles path entries)).map Prod.snd).flatten

/-- The names of entries, and the files at or below each. -/
def entryFiles (path : String) : List (String × FileTree) → List (String × List (String × ByteArray))
  | [] => []
  | (name, tree) :: entries =>
    (name, files (entryPath path name) tree) :: entryFiles path entries

end

end FileTree

/-- The directory in which relative paths start, with the directories around it from the nearest to
the root. -/
structure WorkingDirectory where
  tree : FileTree
  above : List FileTree

namespace WorkingDirectory

/-- The directory in which absolute paths start. -/
def root (w : WorkingDirectory) : FileTree :=
  w.above.getLastD w.tree

def find (w : WorkingDirectory) (path : String) : Lookup :=
  let names := FileTree.components path
  if path.toList.contains '\x00' then .error .nulCharacter
  else if FileTree.maxPathLength < path.utf8ByteSize then .error .nameTooLong
  else
    match path.toList with
    | [] => .error .missing
    | '/' :: _ => FileTree.follow [] w.root names
    | _ => FileTree.follow w.above w.tree names

end WorkingDirectory

/-- What stands behind the last point of a file name, unless the point is its first character. -/
def fileExtension? (path : String) : Option String :=
  let name := ((Text.splitOn '/' path.toList).getLast?).getD []
  match (Text.splitOn '.' name).reverse with
  | [] | [_] => none
  | [_, []] => none
  | extension :: _ => some (String.ofList extension)

end QueryCraft
