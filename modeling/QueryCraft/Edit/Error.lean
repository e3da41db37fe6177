import QueryCraft.Document.Error

/-!
Why an edit fails.
-/

namespace QueryCraft

/-- What a text or value was expected to be. -/
inductive Expectation where
  | nonNull (type : TypeRef)
  | listLiteral (type : TypeRef)
  | int
  | float
  | boolean
  | inputObject (type : String)
  | like (kind : Value.Kind)
  deriving DecidableEq, Repr

def Expectation.message : Expectation → String
  | .nonNull type => "a non-null " ++ type.text
  | .listLiteral type => "a " ++ type.text ++ " list literal"
  | .int => "an Int"
  | .float => "a Float"
  | .boolean => "a Boolean (`true` or `false`)"
  | .inputObject type => "a " ++ type ++ " input object literal"
  | .like kind => "a value like the current " ++ kind.name

inductive EditError where
  | invalidDocument (cause : DocumentError)
  | invalidOperationName (name : String)
  | undefinedVariable (name : String)
  | unknownPath (path : List String)
  /-- The text `raw` cannot be a value of the argument. -/
  | coercion (argument raw : String) (expected : Expectation)
  deriving DecidableEq, Repr

def EditError.message : EditError → String
  | .invalidDocument cause => "Invalid query document: " ++ cause.message
  | .invalidOperationName name => "`" ++ name ++ "` is not a valid GraphQL operation name"
  | .undefinedVariable name =>
    "`$" ++ name ++ "` is not defined by the operation and has no definition to take over"
  | .unknownPath path => "No field with children exists at `" ++ ".".intercalate path ++ "`"
  | .coercion argument raw expected =>
    "Cannot use `" ++ raw ++ "` as a value for `" ++ argument ++ "`: expected " ++ expected.message

end QueryCraft
