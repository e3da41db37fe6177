/-!
Cutting a text into lines, and finding and replacing occurrences of a pattern from left to right.
Occurrences never overlap: the search goes on behind the one it found.
-/

namespace QueryCraft.Text

/-- The lines of a text, without their ends: a line feed, or a carriage return and a line feed.
A last line without an end counts, an empty one does not. -/
def lines : List Char → List (List Char)
  | [] => []
  | '\n' :: cs => [] :: lines cs
  | '\r' :: '\n' :: cs => [] :: lines cs
  | c :: cs =>
    match lines cs with
    | [] => [[c]]
    | l :: ls => (c :: l) :: ls

/-- `pieces` joined by `separator`. -/
def join (separator : List Char) : List (List Char) → List Char
  | [] => []
  | [p] => p
  | p :: q :: ps => p ++ separator ++ join separator (q :: ps)

/-- Replaces the occurrences of `pattern` behind the first `skip` characters, which are dropped. -/
def replaceFrom (pattern new : List Char) : Nat → List Char → List Char
  | _, [] => []
  | skip + 1, _ :: cs => replaceFrom pattern new skip cs
  | 0, c :: cs =>
    if pattern.isPrefixOf (c :: cs) then
      new ++ replaceFrom pattern new (pattern.length - 1) cs
    else
      c :: replaceFrom pattern new 0 cs

def replace (pattern new cs : List Char) : List Char :=
  replaceFrom pattern new 0 cs

/-- What follows each occurrence of `pattern` that starts behind the first `skip` characters. -/
def afterEachFrom (pattern : List Char) : Nat → List Char → List (List Char)
  | _, [] => []
  | skip + 1, _ :: cs => afterEachFrom pattern skip cs
  | 0, c :: cs =>
    if pattern.isPrefixOf (c :: cs) then
      (c :: cs).drop pattern.length :: afterEachFrom pattern (pattern.length - 1) cs
    else
      afterEachFrom pattern 0 cs

def afterEach (pattern cs : List Char) : List (List Char) :=
  afterEachFrom pattern 0 cs

/-- The pieces of `cs` between the separators, empty ones included. -/
def splitOn (separator : Char) : List Char → List (List Char)
  | [] => [[]]
  | c :: cs =>
    if c = separator then
      [] :: splitOn separator cs
    else
      match splitOn separator cs with
      | [] => [[c]]
      | p :: ps => (c :: p) :: ps

end QueryCraft.Text
