import QueryCraft.Document.Reading
import QueryCraft.Edit.Binding
import QueryCraft.Edit.Selecting

/-!
Edits of a document, each a value that can be applied.
-/

namespace QueryCraft

/-- Sets the name of the operation, or removes it. -/
def Document.rename (name : Option String) (d : Document) : Except EditError Document :=
  match name with
  | none => .ok { d with operation := { d.operation with name := none } }
  | some n =>
    if Text.isName n then .ok { d with operation := { d.operation with name := some n } }
    else .error (.invalidOperationName n)

inductive Edit where
  | select (names : List String)
  | selectAt (path names : List String)
  | argument (name : String) (value : Value)
  | argumentText (name raw : String)
  | rename (name : Option String)

def Edit.apply (policy : EmptyPolicy) (edit : Edit) (d : Document) : Except EditError Document :=
  match edit with
  | .select names => .ok (d.select policy names)
  | .selectAt path names => d.selectAt policy path names
  | .argument name value => d.setArgument name value
  | .argumentText name raw => d.setArgumentText name raw
  | .rename name => d.rename name

/-- Applies edits one after the other, up to the first that fails. -/
def Edit.applyAll (policy : EmptyPolicy) (edits : List Edit) (d : Document) :
    Except EditError Document :=
  edits.foldlM (fun d edit => edit.apply policy d) d

/-- Parses a text that is going to be edited. -/
def Document.parseToEdit (text : String) : Except EditError Document :=
  (Document.parse text).mapError .invalidDocument

end QueryCraft
