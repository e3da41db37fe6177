import QueryCraft.Document.Outline
import QueryCraft.Text.Name
import QueryCraft.Text.Search
import QueryCraft.Value.Search

/-!
The arguments of a document in the order in which they are written, the search for the first one of
a name, and the search for references to a variable. Both searches go through a list of selections,
in which a field is replaced by what is below it. Of a verbatim node only the source is known, so
there the text `$x` is looked for.
-/

namespace QueryCraft

def Directive.allArguments (ds : List Directive) : List Argument :=
  ds.flatMap Directive.arguments

/-- A field's own arguments, then those of its directives. -/
def Field.allArguments (f : Field) : List Argument :=
  f.arguments ++ Directive.allArguments f.directives

mutual

def Selection.allArguments : Selection → List Argument
  | .leaf f => f.allArguments
  | .branch f children => f.allArguments ++ Selection.listArguments children
  | .verbatim _ => []

def Selection.listArguments : List Selection → List Argument
  | [] => []
  | s :: ss => Selection.allArguments s ++ Selection.listArguments ss

end

/-- Every argument outside verbatim nodes. -/
def Operation.allArguments (op : Operation) : List Argument :=
  Directive.allArguments op.directives ++ Selection.listArguments op.selections

/-- The selections right below a selection. -/
def Selection.children : Selection → List Selection
  | .branch _ children => children
  | .leaf _ | .verbatim _ => []

theorem Selection.countAll_children (s : Selection) :
    Selection.countAll s.children + 1 = s.count := by
  cases s with
  | branch f ss => rw [children, count, Nat.add_comm]
  | leaf f | verbatim node => rfl

/-- The arguments of the field itself. -/
def Selection.ownArguments : Selection → List Argument
  | .leaf f | .branch f _ => f.allArguments
  | .verbatim _ => []

/-- The value of the first argument with the given name in some selections and below them. -/
def Selection.firstArgument? (name : String) : List Selection → Option Value
  | [] => none
  | s :: rest =>
    match s.ownArguments.find? (·.name == name) with
    | some a => some a.value
    | none => firstArgument? name (s.children ++ rest)
termination_by ss => Selection.countAll ss
decreasing_by
  have hchildren := s.countAll_children
  simp only [Selection.countAll_append, Selection.countAll]
  omega

/-- The value of the first argument with the given name; the directives of the operation come
first. -/
def Operation.argument? (op : Operation) (name : String) : Option Value :=
  match (Directive.allArguments op.directives).find? (·.name == name) with
  | some a => some a.value
  | none => Selection.firstArgument? name op.selections

/-- The variables that arguments with the given name are directly bound to. -/
def Operation.boundVariables (op : Operation) (name : String) : List String :=
  op.allArguments.filterMap fun a =>
    match a.value with
    | .var x => if a.name == name then some x else none
    | _ => none

/-- Whether a reference to a variable ends in front of the given text. -/
def endsReference : List Char → Bool
  | [] => true
  | c :: _ => !Text.isNamePart c

def Verbatim.mentions (x : String) (node : Verbatim) : Bool :=
  (Text.afterEach ('$' :: x.toList) node.source.toList).any endsReference

def Argument.anyMentions (x : String) (as : List Argument) : Bool :=
  Value.anyMentions x (as.map Argument.value)

def Directive.anyMentions (x : String) (ds : List Directive) : Bool :=
  ds.any fun d => Argument.anyMentions x d.arguments

/-- Whether the field itself mentions a variable, or the source of the node does. -/
def Selection.ownMentions (x : String) : Selection → Bool
  | .leaf f | .branch f _ =>
    Argument.anyMentions x f.arguments || Directive.anyMentions x f.directives
  | .verbatim node => node.mentions x

/-- Whether a variable is mentioned in some selections or below them. -/
def Selection.anyMentions (x : String) : List Selection → Bool
  | [] => false
  | s :: rest => s.ownMentions x || anyMentions x (s.children ++ rest)
termination_by ss => Selection.countAll ss
decreasing_by
  have hchildren := s.countAll_children
  simp only [Selection.countAll_append, Selection.countAll]
  omega

/-- Whether anything in the document still refers to the variable `x`. -/
def Document.mentions (x : String) (d : Document) : Bool :=
  Directive.anyMentions x d.operation.directives ||
    Selection.anyMentions x d.operation.selections ||
    d.auxiliary.any (Verbatim.mentions x)

end QueryCraft
