import QueryCraft.Proofs.Document.Conditions
import QueryCraft.Proofs.Synthesis.Tasks

/-!
Induction over synthesized trees, and the fields and the arguments in them. A conversion keeps every
argument in its place.
-/

namespace QueryCraft

namespace SelectionTree

/-- Induction in which the children of a field are members, not the tail of a mutual function. -/
@[elab_as_elim]
theorem inductOn {motive : SelectionTree → Prop} (t : SelectionTree) (leaf : ∀ h, motive (.leaf h))
    (truncated : ∀ h, motive (.truncated h))
    (node : ∀ h children, (∀ t ∈ children, motive t) → motive (.node h children)) : motive t := by
  refine @SelectionTree.rec motive (fun children => ∀ t ∈ children, motive t) leaf truncated node
    ?_ ?_ t
  · simp
  · intro t children ht hchildren
    simpa using And.intro ht hchildren

mutual

/-- The fields of a tree, each in front of those below it. -/
def heads : SelectionTree → List TreeHead
  | .leaf h | .truncated h => [h]
  | .node h children => h :: headsOf children

def headsOf : List SelectionTree → List TreeHead
  | [] => []
  | t :: ts => heads t ++ headsOf ts

end

theorem headsOf_eq_flatMap (ts : List SelectionTree) : headsOf ts = ts.flatMap heads := by
  induction ts with
  | nil => rfl
  | cons t ts ih => simp [headsOf, ih]

/-- The arguments of all fields of a tree. -/
def allArguments (t : SelectionTree) : List Argument :=
  t.heads.flatMap TreeHead.arguments

theorem allArguments_select (h : TreeHead) (ss : List Selection) :
    (select h ss).allArguments = h.arguments ++ ss.flatMap Selection.allArguments := by
  have hfield : (TreeHead.field h).allArguments = h.arguments := by
    simp [Field.allArguments, Directive.allArguments, TreeHead.field]
  cases ss with
  | nil => simp [select, Selection.allArguments, hfield]
  | cons s ss =>
    rw [select, Selection.allArguments, hfield, Selection.listArguments_eq_flatMap]

/-- A synthesized selection has the arguments of its tree. -/
theorem allArguments_toSelection (t : SelectionTree) :
    t.toSelection.allArguments = t.allArguments := by
  rw [toSelection_eq_selected]
  induction t using inductOn with
  | leaf h =>
    rw [selected_eq_select, allArguments_select]
    simp [head, children, allArguments, heads]
  | truncated h =>
    rw [selected_eq_select, allArguments_select]
    simp [head, children, allArguments, heads]
  | node h children ih =>
    rw [selected, selectedAll_eq_map, allArguments_select, allArguments, heads, headsOf_eq_flatMap,
      List.flatMap_map, List.flatMap_def, List.map_congr_left ih, List.flatMap_cons,
      List.flatMap_assoc]
    rfl

end SelectionTree

end QueryCraft
