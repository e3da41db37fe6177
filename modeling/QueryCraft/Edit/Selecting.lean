import QueryCraft.Edit.Error

/-!
Keeping the fields with the given names, either at every level below the fields of the operation or
only right below one path.
-/

namespace QueryCraft

/-- What becomes of a field none of whose children is kept. Fields of the operation and fields that
are selected themselves keep their first child in any case. -/
inductive EmptyPolicy where
  | cascade
  | retainFirst
  deriving DecidableEq, Repr

/-- Without a scope, the children of every field may be dropped. -/
structure Pruning where
  policy : EmptyPolicy
  selected : List String
  scope : Option (List String)

namespace Pruning

/-- Whether a field with the given path around it is dropped. -/
def drops (p : Pruning) (path : List String) (f : Field) : Bool :=
  !path.isEmpty && p.scope.all (· == path) && !p.selected.contains f.name

/-- Whether an emptied field stays and gets its first child back. -/
def restores (p : Pruning) (path : List String) (f : Field) : Bool :=
  path.isEmpty || p.selected.contains f.name || p.policy == .retainFirst

mutual

def selection (p : Pruning) (path : List String) : Selection → Option Selection
  | .leaf f => if p.drops path f then none else some (.leaf f)
  | .branch f children =>
    if p.drops path f then none
    else
      match p.selections (path ++ [f.responseName]) children, children with
      | [], first :: _ => if p.restores path f then some (.branch f [first]) else none
      | kept, _ => some (.branch f kept)
  | .verbatim node => some (.verbatim node)

def selections (p : Pruning) (path : List String) : List Selection → List Selection
  | [] => []
  | s :: ss =>
    match p.selection path s with
    | some kept => kept :: p.selections path ss
    | none => p.selections path ss

end

def document (p : Pruning) (d : Document) : Document :=
  { d with operation := { d.operation with selections := p.selections [] d.operation.selections } }

end Pruning

/-- Whether the selection is a field with the given response name. -/
def Selection.hasResponseName (name : String) (s : Selection) : Bool :=
  s.field?.any (·.responseName == name)

/-- The selections below the fields on a path; of several fields with one response name, the first.
-/
def Selection.childrenAt? : List String → List Selection → Option (List Selection)
  | [], ss => some ss
  | name :: names, ss => do
    let s ← ss.find? (Selection.hasResponseName name)
    let children ← s.children?
    childrenAt? names children

/-- Whether a field with children stands at the path. -/
def Document.hasChildrenAt (d : Document) (path : List String) : Bool :=
  !path.isEmpty && (Selection.childrenAt? path d.operation.selections).any (!·.isEmpty)

/-- Keeps the fields with the given names. The fields of the operation and all verbatim nodes stay.
-/
def Document.select (policy : EmptyPolicy) (selected : List String) (d : Document) : Document :=
  Pruning.document ⟨policy, selected, none⟩ d

/-- Keeps, of the children of the fields at the path, those with the given names. -/
def Document.selectAt (policy : EmptyPolicy) (path selected : List String) (d : Document) :
    Except EditError Document :=
  if d.hasChildrenAt path then .ok (Pruning.document ⟨policy, selected, some path⟩ d)
  else .error (.unknownPath path)

end QueryCraft
