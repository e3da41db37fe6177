import QueryCraft.Schema
import QueryCraft.Synthesis.SelectionTree
import QueryCraft.Synthesis.VariableNames

/-!
The walk over a schema that builds a selection tree. Its nodes are addressed by their indices in an
arena, and those still to visit wait on a stack with their depths. When the stack is empty the tree
is put together from the last node back to the first. There is no result for an index that leads out
of the arena. The loop is defined wherever it ends.
-/

namespace QueryCraft

namespace Synthesis

/-- What to synthesize: whether the arguments of all fields are bound or only those of the root
field, the bound on the depth, and the name and indent of the operation. -/
structure Config where
  nestedArguments : Bool
  maxDepth : Option Nat
  operationName : Option String
  indent : Nat

/-- A field under construction. Only the selection of a type's name selects no field of the schema.
-/
structure Node where
  field : Option Schema.Field
  parent : Option Nat
  arguments : List Argument
  children : List Nat
  expandedType : Option String
  truncated : Bool

def Node.new (field : Option Schema.Field) (parent : Option Nat) : Node :=
  ⟨field, parent, [], [], none, false⟩

def Node.head (node : Node) : TreeHead :=
  ⟨(node.field.map Schema.Field.name).getD "__typename", node.arguments⟩

/-- The tree of a node over those of its children; a node is not both expanded and truncated. -/
def Node.tree? (node : Node) (children : List SelectionTree) : Option SelectionTree :=
  match node.expandedType, node.truncated with
  | some _, false => some (.node node.head children)
  | none, true => some (.truncated node.head)
  | none, false => some (.leaf node.head)
  | some _, true => none

/-- The variables that are given out, and the nodes. -/
structure SchemaWalk where
  names : VariableNames
  definitions : List VariableDefinition
  arena : Array Node

/-- A node that waits to be visited. -/
structure Entry where
  index : Nat
  depth : Nat

namespace SchemaWalk

/-- The walk from a root field. -/
def start (f : Schema.Field) : SchemaWalk :=
  ⟨.empty, [], #[.new (some f) none]⟩

def update (w : SchemaWalk) (index : Nat) (change : Node → Node) : SchemaWalk :=
  { w with arena := w.arena.modify index change }

/-- Binds a parameter of a node's field to a new variable of its type and default. -/
def bind (index : Nat) (w : SchemaWalk) (p : Schema.Parameter) : SchemaWalk :=
  let (name, names) := w.names.allocate p.name
  let bound : SchemaWalk :=
    { w with names, definitions := w.definitions ++ [⟨name, p.type, p.default⟩] }
  bound.update index fun node =>
    { node with arguments := node.arguments ++ [⟨p.name, .var name⟩] }

def bindArguments (w : SchemaWalk) (index : Nat) (f : Schema.Field) : SchemaWalk :=
  f.parameters.foldl (bind index) w

/-- Adds a node at the end of the arena. -/
def push (w : SchemaWalk) (node : Node) : Nat × SchemaWalk :=
  (w.arena.size, { w with arena := w.arena.push node })

def pushAll (w : SchemaWalk) : List Node → List Nat × SchemaWalk
  | [] => ([], w)
  | node :: nodes =>
    let (index, w) := w.push node
    let (indices, w) := w.pushAll nodes
    (index :: indices, w)

def truncate (w : SchemaWalk) (index : Nat) : SchemaWalk :=
  w.update index fun node => { node with truncated := true }

end SchemaWalk

/-- Whether a type is expanded at an index or on the way up from there. A parent stands before its
children; there is no way up to one that does not. -/
def isExpandedAbove (arena : Array Node) (type : String) (index : Option Nat) : Option Bool :=
  match index with
  | none => some false
  | some index =>
    match arena[index]? with
    | none => none
    | some node =>
      if node.expandedType = some type then some true
      else if node.parent.all (· < index) then isExpandedAbove arena type node.parent
      else none
termination_by index.elim 0 (· + 1)
decreasing_by
  have hbefore : node.parent.all (· < index) = true := ‹_›
  cases hparent : node.parent with
  | none => exact Nat.succ_pos index
  | some parent =>
    rw [hparent] at hbefore
    exact Nat.succ_lt_succ (of_decide_eq_true hbefore)

/-- Whether a composite type is not expanded: at the greatest depth, or without a bound on the depth
if it is expanded above or is where queries start. -/
def shouldTruncate (s : Schema) (config : Config) (arena : Array Node) (e : Entry)
    (type : String) : Option Bool :=
  match config.maxDepth with
  | some n => some (decide (max n 1 ≤ e.depth))
  | none =>
    match arena[e.index]? with
    | none => none
    | some node => (isExpandedAbove arena type node.parent).map (· || s.query == some type)

/-- The nodes for what is selected on a type. A union has no fields of its own. -/
def nodesBelow (s : Schema) (index : Nat) (t : Schema.NamedType) :
    Except Schema.LookupError (List Node) :=
  match t.shape with
  | .union _ => .ok [.new none (some index)]
  | _ => (s.fieldsOf t.name).map fun fields => fields.map fun f => .new (some f) (some index)

/-- Expands a node to what is selected on its type, and truncates it if that is nothing. With the
walk come the indices of its children. -/
def SchemaWalk.expand (s : Schema) (w : SchemaWalk) (index : Nat) (t : Schema.NamedType) :
    Except Schema.LookupError (List Nat × SchemaWalk) :=
  (nodesBelow s index t).map fun nodes =>
    let (children, w) := w.pushAll nodes
    if children.isEmpty then ([], w.truncate index)
    else (children, w.update index fun node => { node with children, expandedType := some t.name })

/-- One turn of the loop: binds the arguments of a node and finds what is to visit below it. -/
def turn (s : Schema) (config : Config) (w : SchemaWalk) (e : Entry) :
    Option (Except Schema.LookupError (List Nat × SchemaWalk)) :=
  match w.arena[e.index]? with
  | none => none
  | some node =>
    match node.field with
    | none => some (.ok ([], w))
    | some f =>
      let w := if e.index == 0 || config.nestedArguments then w.bindArguments e.index f else w
      match s.returnType f with
      | .error cause => some (.error cause)
      | .ok t =>
        if t.isComposite then
          (shouldTruncate s config w.arena e t.name).map fun cut =>
            if cut then .ok ([], w.truncate e.index) else w.expand s e.index t
        else
          some (.ok ([], w))

/-- Puts the children of a node on the stack, the last one first. -/
def pushReversed (depth : Nat) (children : List Nat) (stack : List Entry) : List Entry :=
  children.reverse.foldl (fun stack index => ⟨index, depth⟩ :: stack) stack

/-- A turn of the loop leads from a walk and a stack to the next ones. -/
inductive TurnsTo (s : Schema) (config : Config) :
    SchemaWalk × List Entry → SchemaWalk × List Entry → Prop where
  | turn {w w' : SchemaWalk} {e : Entry} {stack : List Entry} {children : List Nat}
      (h : turn s config w e = some (.ok (children, w'))) :
      TurnsTo s config (w', pushReversed (e.depth + 1) children stack) (w, e :: stack)

/-- From a walk and a stack, turns do not lead on for ever. -/
def Ends (s : Schema) (config : Config) (w : SchemaWalk) (stack : List Entry) : Prop :=
  Acc (TurnsTo s config) (w, stack)

instance (s : Schema) (config : Config) :
    WellFoundedRelation { point // Acc (TurnsTo s config) point } where
  rel := InvImage (TurnsTo s config) Subtype.val
  wf := ⟨fun point => InvImage.accessible Subtype.val point.2⟩

/-- Takes turns until the stack is empty, from where this ends. -/
def loop (s : Schema) (config : Config) (w : SchemaWalk) (stack : List Entry)
    (h : Ends s config w stack) : Option (Except Schema.LookupError SchemaWalk) :=
  match stack with
  | [] => some (.ok w)
  | e :: stack =>
    match hturn : turn s config w e with
    | none => none
    | some (.error cause) => some (.error cause)
    | some (.ok (children, w)) =>
      loop s config w (pushReversed (e.depth + 1) children stack) (h.inv (.turn hturn))
termination_by (⟨(w, stack), h⟩ : { point // Acc (TurnsTo s config) point })
decreasing_by exact .turn hturn

/-- Takes the trees at some indices out of those that are finished. -/
def takeTrees (finished : Array (Option SelectionTree)) :
    List Nat → Option (List SelectionTree × Array (Option SelectionTree))
  | [] => some ([], finished)
  | index :: indices => do
    let tree ← finished[index]?
    let (trees, finished) ← takeTrees (finished.setIfInBounds index none) indices
    some (tree.toList ++ trees, finished)

/-- Takes the trees of the children of a node; only an expanded one has any. -/
def takeChildren (finished : Array (Option SelectionTree)) (node : Node) :
    Option (List SelectionTree × Array (Option SelectionTree)) :=
  if node.expandedType.isSome then takeTrees finished node.children else some ([], finished)

/-- Finishes the nodes below an index, the last one first. -/
def finishBelow (arena : Array Node) :
    Nat → Array (Option SelectionTree) → Option (Array (Option SelectionTree))
  | 0, finished => some finished
  | index + 1, finished => do
    let node ← arena[index]?
    let (children, finished) ← takeChildren finished node
    let tree ← node.tree? children
    finishBelow arena index (finished.setIfInBounds index (some tree))

/-- The tree of the first node. -/
def assemble (arena : Array Node) : Option SelectionTree := do
  let finished ← finishBelow arena arena.size (Array.replicate arena.size none)
  some (finished[0]?.join.getD (.leaf ⟨"__typename", []⟩))

/-- The tree that the walk from a root field builds, and the definitions of its variables. -/
def run? (s : Schema) (config : Config) (f : Schema.Field)
    (h : Ends s config (.start f) [⟨0, 1⟩]) :
    Option (Except Schema.LookupError (SelectionTree × List VariableDefinition)) :=
  match loop s config (.start f) [⟨0, 1⟩] h with
  | none => none
  | some (.error cause) => some (.error cause)
  | some (.ok w) => (assemble w.arena).map fun root => .ok (root, w.definitions)

end Synthesis

end QueryCraft
