import QueryCraft.Document

/-!
Walking a document with hooks that are called on its parts. Selections come first, then the
directives of the operation, then the variable definitions, so what the fields hold is known by
then.
-/

namespace QueryCraft

/-- A part of a document that a fold visits; the path holds the response names around it. -/
inductive Visit where
  | document
  | operation
  | set (path : List String)
  | field (path : List String) (f : Field)
  | directive (d : Directive)
  | argument (a : Argument)
  | definition (d : VariableDefinition)
  | verbatim (node : Verbatim)

/-- What a fold does: `visit` is called on each part before anything inside it, a field that is not
kept is dropped with all below it, and arguments and definitions may be replaced. -/
structure Folder (m : Type → Type) [Monad m] where
  visit : Visit → m Unit := fun _ => pure ()
  keeps : Field → Bool := fun _ => true
  onArgument : Argument → m Argument := pure
  onDefinition : VariableDefinition → m VariableDefinition := pure

namespace Folder

variable {m : Type → Type} [Monad m]

def argument (folder : Folder m) (a : Argument) : m Argument := do
  folder.visit (.argument a)
  folder.onArgument a

def arguments (folder : Folder m) : List Argument → m (List Argument)
  | [] => pure []
  | a :: as => do
    let a ← folder.argument a
    let as ← folder.arguments as
    pure (a :: as)

def directive (folder : Folder m) (d : Directive) : m Directive := do
  folder.visit (.directive d)
  let arguments ← folder.arguments d.arguments
  pure { d with arguments }

def directives (folder : Folder m) : List Directive → m (List Directive)
  | [] => pure []
  | d :: ds => do
    let d ← folder.directive d
    let ds ← folder.directives ds
    pure (d :: ds)

def field (folder : Folder m) (f : Field) : m Field := do
  let arguments ← folder.arguments f.arguments
  let directives ← folder.directives f.directives
  pure { f with arguments, directives }

mutual

def selection (folder : Folder m) (path : List String) : Selection → m (Option Selection)
  | .leaf f => do
    folder.visit (.field path f)
    if folder.keeps f then
      let g ← folder.field f
      pure (some (.leaf g))
    else
      pure none
  | .branch f children => do
    folder.visit (.field path f)
    if folder.keeps f then
      let g ← folder.field f
      folder.visit (.set (path ++ [f.responseName]))
      let kept ← folder.selections (path ++ [f.responseName]) children
      pure (some (.branch g kept))
    else
      pure none
  | .verbatim node => do
    folder.visit (.verbatim node)
    pure (some (.verbatim node))

def selections (folder : Folder m) (path : List String) : List Selection → m (List Selection)
  | [] => pure []
  | s :: ss => do
    let kept ← folder.selection path s
    let rest ← folder.selections path ss
    pure (kept.toList ++ rest)

end

def definitions (folder : Folder m) : List VariableDefinition → m (List VariableDefinition)
  | [] => pure []
  | d :: ds => do
    folder.visit (.definition d)
    let d ← folder.onDefinition d
    let ds ← folder.definitions ds
    pure (d :: ds)

def operation (folder : Folder m) (op : Operation) : m Operation := do
  folder.visit .operation
  folder.visit (.set [])
  let selections ← folder.selections [] op.selections
  let directives ← folder.directives op.directives
  let definitions ← folder.definitions op.definitions
  pure { op with selections, directives, definitions }

def document (folder : Folder m) (d : Document) : m Document := do
  folder.visit .document
  let operation ← folder.operation d.operation
  pure { d with operation }

end Folder

/-- Visits everything and changes nothing. -/
def Folder.trivial : Folder Id := {}

/-- Records the visits in order and drops the fields with the given names. -/
def Folder.tracing (drop : List String) : Folder (StateM (List Visit)) where
  visit v := modify (· ++ [v])
  keeps f := !drop.contains f.name

/-- The visits of a fold that drops the fields with the given names, and its result. -/
def Document.trace (drop : List String) (d : Document) : Document × List Visit :=
  ((Folder.tracing drop).document d).run []

end QueryCraft
