import Mathlib.Data.List.Basic
import QueryCraft.Edit.Selecting
import QueryCraft.Proofs.Document.Conditions

/-!
What is left of a document when fields are dropped.
-/

namespace QueryCraft

/-- Dropping some elements and shrinking the others leaves no more in the end. -/
private theorem flatMap_filterMap_subset {α β : Type} {f : α → Option α} {g : α → List β}
    {as : List α} (h : ∀ a ∈ as, ∀ b, f a = some b → g b ⊆ g a) :
    (as.filterMap f).flatMap g ⊆ as.flatMap g := by
  intro x hx
  obtain ⟨b, hb, hx⟩ := List.mem_flatMap.mp hx
  obtain ⟨a, ha, hf⟩ := List.mem_filterMap.mp hb
  exact List.mem_flatMap.mpr ⟨a, ha, h a ha b hf hx⟩

namespace Pruning

variable {p : Pruning}

theorem selections_eq_filterMap (p : Pruning) (path : List String) (ss : List Selection) :
    p.selections path ss = ss.filterMap (p.selection path) := by
  induction ss with
  | nil => rfl
  | cons s ss ih =>
    rw [selections, List.filterMap_cons]
    split
    · next kept hkept => simp [hkept, ih]
    · next hdropped => simp [hdropped, ih]

theorem selections_eq_self {path : List String} {ss : List Selection}
    (h : ∀ s ∈ ss, p.selection path s = some s) : p.selections path ss = ss := by
  rw [selections_eq_filterMap, List.filterMap_congr h, List.filterMap_some]

/-- A leaf stays as it is. -/
theorem selection_leaf_eq_some_iff {path : List String} {f : Field} {t : Selection} :
    p.selection path (.leaf f) = some t ↔ p.drops path f = false ∧ .leaf f = t := by
  rw [selection]
  cases p.drops path f <;> simp

/-- A field with a selection set stays with the children that are kept. If none of them is, it may
get its first child back. -/
theorem selection_branch_eq_some_iff {path : List String} {f : Field} {children : List Selection}
    {t : Selection} :
    p.selection path (.branch f children) = some t ↔
      p.drops path f = false ∧
        ((p.selections (path ++ [f.responseName]) children = [] → children = []) ∧
            .branch f (p.selections (path ++ [f.responseName]) children) = t ∨
          p.selections (path ++ [f.responseName]) children = [] ∧ p.restores path f = true ∧
            ∃ first rest, children = first :: rest ∧ .branch f [first] = t) := by
  unfold selection
  cases p.drops path f with
  | true => simp
  | false =>
    cases children with
    | nil => simp [selections]
    | cons first rest =>
      cases p.selections (path ++ [f.responseName]) (first :: rest) with
      | nil => cases p.restores path f <;> simp
      | cons s ss => simp

/-- A field whose selection set does not change stays as it is, unless it is dropped itself. -/
theorem selection_branch_eq_self {path : List String} {f : Field} {children : List Selection}
    (hdrops : p.drops path f = false)
    (hchildren : p.selections (path ++ [f.responseName]) children = children) :
    p.selection path (.branch f children) = some (.branch f children) := by
  apply selection_branch_eq_some_iff.mpr
  rw [hchildren]
  exact ⟨hdrops, .inl ⟨id, rfl⟩⟩

/-- A field with a selection set is dropped itself, or goes because none of its children is kept. -/
theorem selection_branch_eq_none_iff {path : List String} {f : Field} {children : List Selection} :
    p.selection path (.branch f children) = none ↔
      p.drops path f = true ∨
        p.restores path f = false ∧ children ≠ [] ∧
          p.selections (path ++ [f.responseName]) children = [] := by
  unfold selection
  cases p.drops path f with
  | true => simp
  | false =>
    cases children with
    | nil => simp [selections]
    | cons first rest =>
      cases p.selections (path ++ [f.responseName]) (first :: rest) with
      | nil => cases p.restores path f <;> simp
      | cons s ss => simp

/-- A field that is kept has some of its children left, or gets its first child back. -/
theorem selection_branch {path : List String} {f : Field} {children : List Selection}
    {t : Selection} (h : p.selection path (.branch f children) = some t) :
    ((p.selections (path ++ [f.responseName]) children = [] → children = []) ∧
      t = .branch f (p.selections (path ++ [f.responseName]) children)) ∨
    ∃ first rest, children = first :: rest ∧ t = .branch f [first] := by
  obtain ⟨-, ⟨hempty, rfl⟩ | ⟨-, -, first, rest, rfl, rfl⟩⟩ := selection_branch_eq_some_iff.mp h
  · exact .inl ⟨hempty, rfl⟩
  · exact .inr ⟨first, rest, rfl, rfl⟩

/-- Every selection of the operation itself is kept. -/
theorem isSome_selection_root (p : Pruning) (s : Selection) : (p.selection [] s).isSome = true := by
  apply Option.isSome_iff_ne_none.mpr
  cases s with
  | leaf f => simp [selection, drops]
  | verbatim node => exact nofun
  | branch f children => simp [selection_branch_eq_none_iff, drops, restores]

/-- What holds of every selection still does, if it does not mind a selection set that loses some of
its members but not all. -/
theorem everywhere_selection {q : Selection → Bool}
    (hq : ∀ f children kept, q (.branch f children) = true → (kept = [] → children = []) →
      q (.branch f kept) = true)
    {s : Selection} (h : s.everywhere q = true) : ∀ {path : List String} {t : Selection},
      p.selection path s = some t → t.everywhere q = true := by
  induction s using Selection.inductOn with
  | leaf f =>
    intro path t hkept
    obtain ⟨-, rfl⟩ := selection_leaf_eq_some_iff.mp hkept
    exact h
  | verbatim node =>
    intro path t hkept
    rw [selection] at hkept
    obtain rfl := Option.some.inj hkept
    exact h
  | branch f children ih =>
    intro path t hkept
    obtain ⟨hself, hchildren⟩ := Selection.everywhere_branch.mp h
    rcases selection_branch hkept with ⟨hempty, rfl⟩ | ⟨first, rest, rfl, rfl⟩
    · refine Selection.everywhere_branch.mpr ⟨hq f children _ hself hempty, fun t ht => ?_⟩
      rw [selections_eq_filterMap] at ht
      obtain ⟨s, hs, ht⟩ := List.mem_filterMap.mp ht
      exact ih s hs (hchildren s hs) ht
    · refine Selection.everywhere_branch.mpr ⟨hq f _ _ hself nofun, fun t ht => ?_⟩
      rw [List.mem_singleton.mp ht]
      exact hchildren first List.mem_cons_self

/-- What is kept of a selection has no other arguments, also where an original child is put back. -/
theorem allArguments_selection {s : Selection} : ∀ {path : List String} {t : Selection},
    p.selection path s = some t → t.allArguments ⊆ s.allArguments := by
  induction s using Selection.inductOn with
  | leaf f =>
    intro path t h
    obtain ⟨-, rfl⟩ := selection_leaf_eq_some_iff.mp h
    exact List.Subset.refl _
  | verbatim node =>
    intro path t h
    rw [selection] at h
    obtain rfl := Option.some.inj h
    exact List.Subset.refl _
  | branch f children ih =>
    intro path t h
    rcases selection_branch h with ⟨-, rfl⟩ | ⟨first, rest, rfl, rfl⟩
    · simp only [Selection.allArguments, Selection.listArguments_eq_flatMap]
      refine List.append_subset.mpr ⟨List.subset_append_left _ _, ?_⟩
      refine List.Subset.trans ?_ (List.subset_append_right _ _)
      rw [selections_eq_filterMap]
      exact flatMap_filterMap_subset fun s hs t ht => ih s hs ht
    · simp [Selection.allArguments, Selection.listArguments]

theorem allArguments_document (p : Pruning) (d : Document) :
    (p.document d).operation.allArguments ⊆ d.operation.allArguments := by
  simp only [document, Operation.allArguments, Selection.listArguments_eq_flatMap]
  refine List.append_subset.mpr ⟨List.subset_append_left _ _, ?_⟩
  refine List.Subset.trans ?_ (List.subset_append_right _ _)
  rw [selections_eq_filterMap]
  exact flatMap_filterMap_subset fun s _ t ht => allArguments_selection ht

end Pruning

/-- A selection at a path succeeds where a field with children stands, and then it prunes the
document below that path. -/
theorem Document.selectAt_ok_iff {policy : EmptyPolicy} {path names : List String}
    {d e : Document} :
    d.selectAt policy path names = .ok e ↔
      d.hasChildrenAt path = true ∧ Pruning.document ⟨policy, names, some path⟩ d = e := by
  rw [selectAt]
  cases d.hasChildrenAt path <;> simp

end QueryCraft
