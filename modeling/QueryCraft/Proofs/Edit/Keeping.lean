import QueryCraft.Proofs.Edit.Selecting

/-!
What stays of a document when fields are kept by name at every level. It is told without paths and
policies: below a field stay the selections that are wanted, or, if none is, the first one as it was.
-/

namespace QueryCraft

namespace Selection

/-- Whether a selection below another one stays: a field if its name is among `names`, a verbatim
node in any case. -/
def isWanted (names : List String) (s : Selection) : Bool :=
  s.field?.all fun f => names.contains f.name

mutual

/-- The selection with what is wanted below it, at every level. A field below which nothing is wanted
keeps its first child with everything in it. -/
def keeping (names : List String) : Selection → Selection
  | .leaf f => .leaf f
  | .branch f children =>
    .branch f (if children.any (isWanted names) then keepingWanted names children
      else children.take 1)
  | .verbatim node => .verbatim node

def keepingWanted (names : List String) : List Selection → List Selection
  | [] => []
  | s :: ss => if isWanted names s then keeping names s :: keepingWanted names ss
    else keepingWanted names ss

end

theorem keepingWanted_eq_map (names : List String) (ss : List Selection) :
    keepingWanted names ss = (ss.filter (isWanted names)).map (keeping names) := by
  induction ss with
  | nil => rfl
  | cons s ss ih =>
    rw [keepingWanted, ih]
    cases hs : isWanted names s with
    | true => simp [hs]
    | false => simp [hs]

theorem keepingWanted_eq_nil_iff {names : List String} {ss : List Selection} :
    keepingWanted names ss = [] ↔ ss.any (isWanted names) = false := by
  rw [keepingWanted_eq_map, List.map_eq_nil_iff, List.filter_eq_nil_iff, List.any_eq_false]

end Selection

namespace Pruning

variable {policy : EmptyPolicy} {names : List String}

/-- Without a scope, exactly the fields below others that are not named are dropped. -/
theorem drops_unscoped (path : List String) (f : Field) :
    drops ⟨policy, names, none⟩ path f = !(path.isEmpty || names.contains f.name) := by
  simp [drops]

/-- A field that is not dropped gets its first child back, under either policy. -/
theorem restores_of_not_drops {path : List String} {f : Field}
    (h : drops ⟨policy, names, none⟩ path f = false) :
    restores ⟨policy, names, none⟩ path f = true := by
  rw [drops_unscoped, Bool.not_eq_false'] at h
  rw [restores, h, Bool.true_or]

theorem selections_unscoped {path : List String} {ss : List Selection}
    (h : ∀ s ∈ ss, selection ⟨policy, names, none⟩ path s =
      if s.isWanted names then some (s.keeping names) else none) :
    selections ⟨policy, names, none⟩ path ss = Selection.keepingWanted names ss := by
  induction ss with
  | nil => rfl
  | cons s ss ih =>
    rw [List.forall_mem_cons] at h
    rw [selections, Selection.keepingWanted, h.1, ih h.2]
    cases s.isWanted names <;> rfl

/-- A selection that is not dropped is pruned in the same way wherever it stands. -/
theorem selection_unscoped (path : List String) (s : Selection) :
    selection ⟨policy, names, none⟩ path s =
      if path.isEmpty || s.isWanted names then some (s.keeping names) else none := by
  induction s using Selection.inductOn generalizing path with
  | leaf f =>
    have hwanted : (Selection.leaf f).isWanted names = names.contains f.name := rfl
    rw [selection, drops_unscoped, hwanted]
    cases path.isEmpty || names.contains f.name <;> rfl
  | verbatim node =>
    have hwanted : (Selection.verbatim node).isWanted names = true := rfl
    rw [selection, hwanted, Bool.or_true, if_pos rfl]
    rfl
  | branch f children ih =>
    have hwanted : (Selection.branch f children).isWanted names = names.contains f.name := rfl
    have hchildren : selections ⟨policy, names, none⟩ (path ++ [f.responseName]) children =
        Selection.keepingWanted names children := by
      refine selections_unscoped fun s hs => ?_
      rw [ih s hs]
      simp
    unfold selection
    rw [hwanted, hchildren]
    cases hdrops : drops ⟨policy, names, none⟩ path f with
    | true =>
      rw [drops_unscoped, Bool.not_eq_true'] at hdrops
      rw [hdrops]
      rfl
    | false =>
      have hrestores := restores_of_not_drops hdrops
      rw [drops_unscoped, Bool.not_eq_false'] at hdrops
      rw [hdrops, Selection.keeping]
      cases hkept : Selection.keepingWanted names children with
      | nil =>
        rw [Selection.keepingWanted_eq_nil_iff.mp hkept]
        cases children with
        | nil => rfl
        | cons first rest => simp [hrestores]
      | cons kept more =>
        have hany : children.any (Selection.isWanted names) = true := by
          rw [← Bool.not_eq_false, ← Selection.keepingWanted_eq_nil_iff, hkept]
          exact List.cons_ne_nil kept more
        rw [hany]
        rfl

end Pruning

/-- Keeping fields by name keeps every selection of the operation, with what is wanted below it, and
nothing else changes. The policy has no say, since no field is emptied that does not stay. -/
theorem Document.select_eq_keeping (policy : EmptyPolicy) (names : List String) (d : Document) :
    d.select policy names =
      { d with
        operation :=
          { d.operation with
            selections := d.operation.selections.map (Selection.keeping names) } } := by
  have hselections : Pruning.selections ⟨policy, names, none⟩ [] d.operation.selections =
      d.operation.selections.map (Selection.keeping names) := by
    rw [Pruning.selections_eq_filterMap, ← List.filterMap_eq_map]
    congr
    funext s
    exact Pruning.selection_unscoped [] s
  rw [select, Pruning.document, hselections]

end QueryCraft
