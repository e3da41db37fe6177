import QueryCraft.Document.Error
import QueryCraft.Executable.Parser
import QueryCraft.Executable.Printer
import QueryCraft.Text.Blank

/-!
Documents from text. The first query is the operation; every other definition keeps its canonical
text.
-/

namespace QueryCraft

/-- A definition kept as its canonical text. -/
def Verbatim.ofDefinition (d : Executable.Definition) : Verbatim where
  kind := match d with
    | .fragment .. => .fragmentDefinition
    | .operation .mutation .. => .mutation
    | .operation .subscription .. => .subscription
    | .operation .query .. | .shorthand _ => .query
  source := String.ofList (Text.trimEnd d.chars)

/-- A fragment spread; its directives are written as in a document. -/
def Verbatim.ofSpread (fragment : String) (directives : List Directive) : Verbatim where
  kind := .fragmentSpread
  source := String.ofList ('.' :: '.' :: '.' :: (fragment.toList ++ Directive.listChars directives))

/-- An inline fragment; its directives are written as in a document. -/
def Verbatim.ofInline (condition : Option String) (directives : List Directive)
    (selections : List Executable.Selection) : Verbatim where
  kind := .inlineFragment
  source := String.ofList ('.' :: '.' :: '.' :: (Executable.conditionChars condition ++
    (Directive.listChars directives ++ ' ' :: Text.trimEnd (Executable.setChars selections))))

mutual

def Selection.ofExecutable : Executable.Selection → Selection
  | .field f [] => .leaf f
  | .field f (s :: ss) => .branch f (Selection.ofExecutables (s :: ss))
  | .spread fragment directives => .verbatim (.ofSpread fragment directives)
  | .inline condition directives ss => .verbatim (.ofInline condition directives ss)

def Selection.ofExecutables : List Executable.Selection → List Selection
  | [] => []
  | s :: ss => Selection.ofExecutable s :: Selection.ofExecutables ss

end

/-- The operation that a definition stands for, if it is a query. -/
def Operation.ofDefinition? : Executable.Definition → Option Operation
  | .shorthand ss => some ⟨none, [], [], Selection.ofExecutables ss⟩
  | .operation .query name definitions directives ss =>
    some ⟨name, definitions, directives, Selection.ofExecutables ss⟩
  | _ => none

/-- The first query among definitions, and the other definitions in order. -/
def Document.ofDefinitions? : List Executable.Definition → Option Document
  | [] => none
  | d :: ds =>
    match Operation.ofDefinition? d with
    | some operation => some ⟨operation, ds.map Verbatim.ofDefinition⟩
    | none => (ofDefinitions? ds).map fun doc =>
      { doc with auxiliary := .ofDefinition d :: doc.auxiliary }

def Document.ofDefinitions (ds : List Executable.Definition) : Except DocumentError Document :=
  match ofDefinitions? ds with
  | some doc => .ok doc
  | none => .error (.noQuery (ds.map fun d => (Verbatim.ofDefinition d).kind))

def Document.parse (text : String) : Except DocumentError Document :=
  match Executable.ofText? text.toList with
  | none => .error .malformed
  | some ds => ofDefinitions ds

end QueryCraft
