import QueryCraft.Schema
import QueryCraft.Text.Shown

/-!
Where things are defined in a schema, and why a schema cannot be built.
-/

namespace QueryCraft.Schema

inductive Location where
  | builtin
  | source (file : String) (position : Position)
  deriving DecidableEq, Repr

def Location.text : Location → String
  | .builtin => "<builtin>"
  | .source file position =>
    file ++ ":" ++ String.ofList (Number.natDigits position.line) ++ ":" ++
      String.ofList (Number.natDigits position.column)

inductive ReadError where
  | notFile (path : String)
  | notUtf8 (path : String)
  deriving DecidableEq, Repr

def ReadError.message : ReadError → String
  | .notFile path => "Path is not a file: " ++ Text.Shown.write path
  | .notUtf8 path => "File at " ++ Text.Shown.write path ++ " is not valid UTF-8"

inductive BuildError where
  | duplicateField (type field : String) (location : Location)
  | duplicateQueryType (first : String) (firstAt : Location) (second : String) (secondAt : Location)
  | duplicateType (type : String) (first second : Location)
  | undefinedExtension (type : String) (location : Location)
  | reservedName (type : String) (location : Location)
  | invalidExtension (type : String) (kind extension : TypeKind) (location : Location)
  | malformed (file : String)
  | unreadable (cause : ReadError)
  deriving DecidableEq, Repr

def BuildError.message : BuildError → String
  | .duplicateField type field location =>
    "The `" ++ type ++ "` type defines the `" ++ field ++ "` field more than once (" ++
      location.text ++ ")"
  | .duplicateQueryType .. => "Multiple `schema` definitions declare a query type"
  | .duplicateType type first second =>
    "Multiple GraphQL types named `" ++ type ++ "` were defined (" ++ first.text ++ " and " ++
      second.text ++ ")"
  | .undefinedExtension type _ =>
    "Attempted to extend `" ++ type ++ "`, which is not defined elsewhere"
  | .reservedName .. => "Type names must not start with `__`"
  | .invalidExtension type kind extension _ =>
    "Attempted to extend the " ++ kind.name ++ " type `" ++ type ++ "` with a " ++
      extension.name ++ " type extension"
  | .malformed _ => "Error parsing schema string"
  | .unreadable _ => "Failure while trying to read a schema file from disk"

end QueryCraft.Schema
