import QueryCraft.Text.Blank
import QueryCraft.Text.Search

/-!
Block strings: the text between two triple quotes, without the indent that its lines share.
-/

namespace QueryCraft.Text.Block

def quotes : List Char := ['"', '"', '"']

def escapedQuotes : List Char := ['\\', '"', '"', '"']

def byteLength : List Char → Nat
  | [] => 0
  | c :: cs => c.utf8Size + byteLength cs

/-- The line without the characters that its first `n` bytes belong to. -/
def dropBytes : Nat → List Char → List Char
  | 0, cs => cs
  | _, [] => []
  | n, c :: cs => dropBytes (n - c.utf8Size) cs

def isBlankLine (line : List Char) : Bool :=
  line.all isBlank

/-- Bytes of blanks in front of a line. -/
def indentOf (line : List Char) : Nat :=
  byteLength (line.takeWhile isBlank)

/-- The indent shared by the lines that hold something. -/
def sharedIndent (lines : List (List Char)) : Option Nat :=
  ((lines.filter (fun line => !isBlankLine line)).map indentOf).min?

/-- A line without the shared indent; a line shorter than the indent stays as it is. -/
def unindent (indent : Option Nat) (line : List Char) : List Char :=
  match indent with
  | none => line
  | some n => if n ≤ byteLength line then dropBytes n line else line

/-- Drops blank lines at both ends. -/
def dropBlankEnds (lines : List (List Char)) : List (List Char) :=
  ((lines.dropWhile isBlankLine).reverse.dropWhile isBlankLine).reverse

/-- The text that stands between triple quotes as `body`. The first line keeps its indent and has no
say in the shared one. -/
def read (body : List Char) : List Char :=
  match lines body with
  | [] => []
  | first :: others =>
    let indent := sharedIndent others
    let kept := dropBlankEnds (first :: others.map (unindent indent))
    join ['\n'] (kept.map (replace escapedQuotes quotes))

end QueryCraft.Text.Block
