import QueryCraft.Document

/-!
The outline of a document: its selections as a flat list in the order in which they are written,
with their depth. The walk keeps the selections still to visit, each with its depth and the response
names above it.
-/

namespace QueryCraft

inductive OutlineEntry where
  | field (depth : Nat) (name : String) (path : List String) (argumentNames : List String)
      (hasChildren : Bool)
  | verbatim (depth : Nat) (kind : Verbatim.Kind)
  deriving DecidableEq, Repr

/-- A selection to visit, its depth, and the response names of the fields around it. -/
structure Pending where
  depth : Nat
  path : List String
  selection : Selection

mutual

/-- The number of selections in a selection, itself included. -/
def Selection.count : Selection → Nat
  | .leaf _ | .verbatim _ => 1
  | .branch _ children => 1 + Selection.countAll children

def Selection.countAll : List Selection → Nat
  | [] => 0
  | s :: ss => s.count + Selection.countAll ss

end

def Pending.count (pending : List Pending) : Nat :=
  Selection.countAll (pending.map Pending.selection)

/-- The path of a field among others around the given path. -/
def Pending.fieldPath (p : Pending) (f : Field) : List String :=
  p.path ++ [f.responseName]

/-- What is to visit below a selection. -/
def Pending.below (p : Pending) : List Pending :=
  match p.selection with
  | .branch f children => children.map fun child => ⟨p.depth + 1, p.fieldPath f, child⟩
  | .leaf _ | .verbatim _ => []

def Pending.entry (p : Pending) : OutlineEntry :=
  match p.selection with
  | .leaf f => .field p.depth f.name (p.fieldPath f) (f.arguments.map Argument.name) false
  | .branch f children =>
    .field p.depth f.name (p.fieldPath f) (f.arguments.map Argument.name) (!children.isEmpty)
  | .verbatim node => .verbatim p.depth node.kind

theorem Selection.countAll_append (ss ts : List Selection) :
    Selection.countAll (ss ++ ts) = Selection.countAll ss + Selection.countAll ts := by
  induction ss with
  | nil => simp [Selection.countAll]
  | cons s ss ih => simp only [List.cons_append, Selection.countAll, ih]; omega

theorem Pending.count_below (p : Pending) : Pending.count p.below + 1 = p.selection.count := by
  cases h : p.selection with
  | leaf f => simp [Pending.below, h, Pending.count, Selection.count, Selection.countAll]
  | branch f children =>
    simp [Pending.below, h, Pending.count, Selection.count, Function.comp_def]
    omega
  | verbatim node => simp [Pending.below, h, Pending.count, Selection.count, Selection.countAll]

/-- Visits the first pending selection, then what is below it, then the others. -/
def Pending.walk : List Pending → List OutlineEntry
  | [] => []
  | p :: rest => p.entry :: walk (p.below ++ rest)
termination_by pending => Pending.count pending
decreasing_by
  have h := p.count_below
  simp only [Pending.count, List.map_append, List.map_cons, Selection.countAll_append,
    Selection.countAll] at h ⊢
  omega

def Document.outline (d : Document) : List OutlineEntry :=
  Pending.walk (d.operation.selections.map fun s => ⟨0, [], s⟩)

end QueryCraft
