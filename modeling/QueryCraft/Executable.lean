import QueryCraft.Field

/-!
Executable definitions as they are written: operations and fragments, with every selection in them.
-/

namespace QueryCraft.Executable

inductive Selection where
  | field (f : Field) (selections : List Selection)
  | spread (fragment : String) (directives : List Directive)
  | inline (condition : Option String) (directives : List Directive) (selections : List Selection)

inductive OperationKind where
  | query
  | mutation
  | subscription
  deriving DecidableEq, Repr

/-- The first constructor is a query written as a selection set alone. -/
inductive Definition where
  | shorthand (selections : List Selection)
  | operation (kind : OperationKind) (name : Option String) (definitions : List VariableDefinition)
      (directives : List Directive) (selections : List Selection)
  | fragment (name condition : String) (directives : List Directive) (selections : List Selection)

end QueryCraft.Executable
