/-!
References to types: a named type or a list of another reference, each nullable or not.
-/

namespace QueryCraft

inductive TypeRef where
  | named (name : String) (nullable : Bool)
  | list (inner : TypeRef) (nullable : Bool)
  deriving DecidableEq, Repr, Inhabited

namespace TypeRef

def isNullable : TypeRef → Bool
  | .named _ nullable => nullable
  | .list _ nullable => nullable

def isList : TypeRef → Bool
  | .named .. => false
  | .list .. => true

/-- The named type within all lists. -/
def innermost : TypeRef → String
  | .named name _ => name
  | .list inner _ => inner.innermost

def bang (nullable : Bool) : List Char :=
  if nullable then [] else ['!']

def chars : TypeRef → List Char
  | .named name nullable => name.toList ++ bang nullable
  | .list inner nullable => '[' :: (inner.chars ++ ']' :: bang nullable)

def text (t : TypeRef) : String :=
  String.ofList t.chars

end TypeRef

end QueryCraft
