import QueryCraft.Document

/-!
Why a text is no document.
-/

namespace QueryCraft

inductive DocumentError where
  /-- The text does not follow the grammar. -/
  | malformed
  /-- There is no query operation, only definitions of the given kinds. -/
  | noQuery (found : List Verbatim.Kind)
  deriving DecidableEq, Repr

def DocumentError.message : DocumentError → String
  | .malformed => "Error parsing query document: the text is not a sequence of definitions"
  | .noQuery [] =>
    "The query document does not contain a query operation: the document defines nothing"
  | .noQuery found =>
    "The query document does not contain a query operation: found only: " ++
      ", ".intercalate (found.map Verbatim.Kind.name)

end QueryCraft
