import QueryCraft.Document

/-!
Trees of synthesized fields, and their conversion to selections.
-/

namespace QueryCraft

/-- A synthesized field without its children. -/
structure TreeHead where
  name : String
  arguments : List Argument

/-- A truncated field would need children, but its expansion was cut short. -/
inductive SelectionTree where
  | leaf (head : TreeHead)
  | truncated (head : TreeHead)
  | node (head : TreeHead) (children : List SelectionTree)

namespace SelectionTree

def head : SelectionTree → TreeHead
  | .leaf h | .truncated h | .node h _ => h

def children : SelectionTree → List SelectionTree
  | .node _ children => children
  | .leaf _ | .truncated _ => []

mutual

/-- The number of levels; a leaf has one. -/
def depth : SelectionTree → Nat
  | .leaf _ | .truncated _ => 1
  | .node _ children => 1 + depthAll children

/-- The number of levels of the deepest of some trees. -/
def depthAll : List SelectionTree → Nat
  | [] => 0
  | t :: ts => max (depth t) (depthAll ts)

end

mutual

/-- The number of fields. -/
def count : SelectionTree → Nat
  | .leaf _ | .truncated _ => 1
  | .node _ children => 1 + countAll children

def countAll : List SelectionTree → Nat
  | [] => 0
  | t :: ts => count t + countAll ts

end

/-- The field as it is selected. -/
def TreeHead.field (h : TreeHead) : Field :=
  ⟨none, h.name, h.arguments, []⟩

/-- A field over its converted children; without any it has no selection set. -/
def select (h : TreeHead) : List Selection → Selection
  | [] => .leaf (TreeHead.field h)
  | s :: ss => .branch (TreeHead.field h) (s :: ss)

/-- What a conversion has still to do: convert a tree, or put its field over the selections that its
children were converted to. -/
inductive Task where
  | convert (t : SelectionTree)
  | finish (t : SelectionTree)

def Task.weight : Task → Nat
  | .convert t => 2 * t.count
  | .finish _ => 1

def Task.totalWeight : List Task → Nat
  | [] => 0
  | task :: tasks => task.weight + totalWeight tasks

theorem Task.totalWeight_append (tasks others : List Task) :
    Task.totalWeight (tasks ++ others) = Task.totalWeight tasks + Task.totalWeight others := by
  induction tasks with
  | nil => simp [totalWeight]
  | cons task tasks ih => simp only [List.cons_append, totalWeight, ih, Nat.add_assoc]

theorem totalWeight_convert (ts : List SelectionTree) :
    Task.totalWeight (ts.map Task.convert) = 2 * countAll ts := by
  induction ts with
  | nil => rfl
  | cons t ts ih =>
    simp only [List.map_cons, Task.totalWeight, Task.weight, countAll, ih, Nat.mul_add]

theorem count_eq (t : SelectionTree) : t.count = 1 + countAll t.children := by
  cases t <;> simp [count, children, countAll]

/-- Works on tasks until none is left; the last selection converted is the first of `done`. A field
takes as many selections from there as it has children, and there is no result if they are too
few. -/
def Task.run : List Task → List Selection → Option (List Selection)
  | [], done => some done
  | .convert t :: tasks, done =>
    run (t.children.map .convert ++ .finish t :: tasks) done
  | .finish t :: tasks, done =>
    if t.children.length ≤ done.length then
      run tasks (select t.head (done.take t.children.length).reverse :: done.drop t.children.length)
    else
      none
termination_by tasks => Task.totalWeight tasks
decreasing_by
  · have hcount := t.count_eq
    simp only [Task.totalWeight_append, totalWeight_convert, Task.totalWeight, Task.weight]
    omega
  · simp [Task.totalWeight, Task.weight]

/-- The selection that a tree stands for. -/
def toSelection (t : SelectionTree) : Selection :=
  match Task.run [.convert t] [] with
  | some (s :: _) => s
  | _ => .leaf (TreeHead.field t.head)

end SelectionTree

end QueryCraft
