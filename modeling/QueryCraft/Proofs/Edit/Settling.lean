import QueryCraft.Proofs.Edit.Selecting

/-!
Keeping the same fields once more changes nothing. What is kept is kept again as it is, and a field
that got its first child back would get it back again.
-/

namespace QueryCraft

namespace Pruning

variable {p q : Pruning}

/-- Two ways of pruning that differ at most in how they list the selected names. -/
structure Alike (p q : Pruning) : Prop where
  policy : p.policy = q.policy
  scope : p.scope = q.scope
  selected : ∀ name, name ∈ p.selected ↔ name ∈ q.selected

namespace Alike

theorem contains (h : p.Alike q) (name : String) :
    p.selected.contains name = q.selected.contains name := by
  rw [Bool.eq_iff_iff, List.contains_iff_mem, List.contains_iff_mem, h.selected]

theorem drops (h : p.Alike q) (path : List String) (f : Field) :
    p.drops path f = q.drops path f := by
  rw [Pruning.drops, Pruning.drops, h.scope, h.contains]

theorem restores (h : p.Alike q) (path : List String) (f : Field) :
    p.restores path f = q.restores path f := by
  rw [Pruning.restores, Pruning.restores, h.policy, h.contains]

end Alike

theorem selections_congr {path : List String} {ss : List Selection}
    (h : ∀ s ∈ ss, p.selection path s = q.selection path s) :
    p.selections path ss = q.selections path ss := by
  rw [selections_eq_filterMap, selections_eq_filterMap]
  exact List.filterMap_congr h

theorem Alike.selection (h : p.Alike q) (path : List String) (s : Selection) :
    p.selection path s = q.selection path s := by
  induction s using Selection.inductOn generalizing path with
  | leaf f => rw [Pruning.selection, Pruning.selection, h.drops]
  | verbatim node => rfl
  | branch f children ih =>
    have hchildren := selections_congr fun s hs => ih s hs (path ++ [f.responseName])
    apply Option.ext
    intro t
    rw [selection_branch_eq_some_iff, selection_branch_eq_some_iff, h.drops, h.restores, hchildren]

theorem selections_selections {path : List String} {ss : List Selection}
    (h : ∀ s ∈ ss, ∀ t, p.selection path s = some t → p.selection path t = some t) :
    p.selections path (p.selections path ss) = p.selections path ss := by
  apply selections_eq_self
  intro t ht
  rw [selections_eq_filterMap] at ht
  obtain ⟨s, hs, ht⟩ := List.mem_filterMap.mp ht
  exact h s hs t ht

/-- What is kept of a selection is kept as it is. -/
theorem selection_of_kept {s : Selection} : ∀ {path : List String} {t : Selection},
    p.selection path s = some t → p.selection path t = some t := by
  induction s using Selection.inductOn with
  | leaf f =>
    intro path t hkept
    obtain ⟨-, rfl⟩ := selection_leaf_eq_some_iff.mp hkept
    exact hkept
  | verbatim node =>
    intro path t hkept
    obtain rfl := Option.some.inj hkept
    rfl
  | branch f children ih =>
    intro path t hkept
    obtain ⟨hstays, ⟨-, rfl⟩ | ⟨hempty, hrestores, first, rest, rfl, rfl⟩⟩ :=
      selection_branch_eq_some_iff.mp hkept
    · have hagain : p.selections (path ++ [f.responseName])
          (p.selections (path ++ [f.responseName]) children) =
            p.selections (path ++ [f.responseName]) children :=
        selections_selections fun s hs t => ih s hs
      exact selection_branch_eq_self hstays hagain
    · -- The first child was dropped with the others, and alone it is dropped again.
      rw [selections_eq_filterMap, List.filterMap_eq_nil_iff, List.forall_mem_cons] at hempty
      have hfirst : p.selections (path ++ [f.responseName]) [first] = [] := by
        rw [selections_eq_filterMap, List.filterMap_cons_none hempty.1, List.filterMap_nil]
      apply selection_branch_eq_some_iff.mpr
      exact ⟨hstays, .inr ⟨hfirst, hrestores, first, [], rfl, rfl⟩⟩

theorem document_document (p : Pruning) (d : Document) :
    p.document (p.document d) = p.document d := by
  have hselections : p.selections [] (p.selections [] d.operation.selections) =
      p.selections [] d.operation.selections :=
    selections_selections fun s _ t => selection_of_kept
  rw [document, document, hselections]

theorem Alike.document (h : p.Alike q) (d : Document) : p.document d = q.document d := by
  have hselections : p.selections [] d.operation.selections =
      q.selections [] d.operation.selections :=
    selections_congr fun s _ => h.selection [] s
  rw [Pruning.document, Pruning.document, hselections]

end Pruning

namespace Document

/-- Keeping the same fields again changes nothing, be it at every level or below one path. There the
second edit is refused if the first has left no field with children at the path. -/
theorem select_again (policy : EmptyPolicy) {names again : List String}
    (hsame : ∀ name, name ∈ again ↔ name ∈ names) (d : Document) :
    (d.select policy names).select policy again = d.select policy names ∧
    ∀ (path : List String) (e : Document), d.selectAt policy path names = .ok e →
      e.selectAt policy path again =
        if e.hasChildrenAt path then .ok e else .error (.unknownPath path) := by
  have hagain (scope : Option (List String)) :
      Pruning.document ⟨policy, again, scope⟩ (Pruning.document ⟨policy, names, scope⟩ d) =
        Pruning.document ⟨policy, names, scope⟩ d := by
    have halike : Pruning.Alike ⟨policy, again, scope⟩ ⟨policy, names, scope⟩ := ⟨rfl, rfl, hsame⟩
    rw [halike.document, Pruning.document_document]
  refine ⟨hagain none, fun path e h => ?_⟩
  obtain ⟨-, rfl⟩ := selectAt_ok_iff.mp h
  rw [selectAt, hagain (some path)]

/-- A user with two profiles. -/
private def twoProfiles : Document where
  operation :=
    { name := none
      definitions := []
      directives := []
      selections :=
        [.branch ⟨none, "user", [], []⟩
          [.branch ⟨none, "profile", [], []⟩ [.leaf ⟨none, "bio", [], []⟩],
            .branch ⟨none, "profile", [], []⟩ [.leaf ⟨none, "avatar", [], []⟩]]] }
  auxiliary := []

private def firstProfile : Document where
  operation :=
    { name := none
      definitions := []
      directives := []
      selections :=
        [.branch ⟨none, "user", [], []⟩
          [.branch ⟨none, "profile", [], []⟩ [.leaf ⟨none, "bio", [], []⟩]]] }
  auxiliary := []

/-- Both profiles go, and the user gets the first one back. -/
theorem select_again_twoProfiles :
    twoProfiles.selectAt .cascade ["user", "profile"] ["id", "name"] = .ok firstProfile ∧
      firstProfile.selectAt .cascade ["user", "profile"] ["name", "id"] = .ok firstProfile := by
  have hsame : ∀ name, name ∈ ["name", "id"] ↔ name ∈ ["id", "name"] := by
    intro name
    simp [or_comm]
  have hfirst : twoProfiles.selectAt .cascade ["user", "profile"] ["id", "name"] =
      .ok firstProfile := rfl
  exact ⟨hfirst, (select_again .cascade hsame twoProfiles).2 _ _ hfirst⟩

end Document

end QueryCraft
