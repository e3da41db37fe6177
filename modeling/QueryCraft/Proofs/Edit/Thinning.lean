import Mathlib.Data.List.Forall2
import QueryCraft.Proofs.Edit.Selecting

/-!
Keeping fields only takes selections away. What is left of a selection set has the same order, what
is left of a field has the same arguments and directives, and every verbatim node stays in place.
-/

namespace QueryCraft

namespace Selection

def verbatim? : Selection → Option Verbatim
  | .verbatim node => some node
  | _ => none

/-- What is left of a selection when fields below it are taken away. Of a selection set some members
are left, in their order, and all the verbatim nodes among them. -/
inductive RemainsOf : Selection → Selection → Prop
  | leaf (f : Field) : RemainsOf (.leaf f) (.leaf f)
  | branch {f : Field} {kept children : List Selection}
      (hkept : List.SublistForall₂ RemainsOf kept children)
      (hverbatim : kept.filterMap verbatim? = children.filterMap verbatim?) :
      RemainsOf (.branch f kept) (.branch f children)
  | verbatim (node : Verbatim) : RemainsOf (.verbatim node) (.verbatim node)

/-- A selection remains if nothing is taken away. -/
theorem RemainsOf.refl (s : Selection) : s.RemainsOf s := by
  induction s using inductOn with
  | leaf f => exact .leaf f
  | verbatim node => exact .verbatim node
  | branch f children ih =>
    refine .branch ?_ rfl
    apply List.sublistForall₂_iff.mpr
    exact ⟨children, List.forall₂_same.mpr ih, List.Sublist.refl children⟩

/-- Whether a field has members in its selection set, if it has one. -/
def isFilled : Selection → Bool
  | .branch _ children => !children.isEmpty
  | _ => true

end Selection

namespace Pruning

variable {p : Pruning}

/-- The verbatim nodes are those that are kept. -/
theorem filterMap_verbatim?_selections (p : Pruning) (path : List String) (ss : List Selection) :
    (p.selections path ss).filterMap Selection.verbatim? = ss.filterMap Selection.verbatim? := by
  rw [selections_eq_filterMap, List.filterMap_filterMap]
  congr
  funext s
  cases hkept : p.selection path s with
  | none =>
    cases s with
    | verbatim node => contradiction
    | _ => rfl
  | some t =>
    cases s with
    | leaf f =>
      obtain ⟨-, rfl⟩ := selection_leaf_eq_some_iff.mp hkept
      rfl
    | branch f children =>
      rcases selection_branch hkept with ⟨-, rfl⟩ | ⟨first, rest, -, rfl⟩
      · rfl
      · rfl
    | verbatim node =>
      obtain rfl := Option.some.inj hkept
      rfl

theorem sublistForall₂_selections {path : List String} {ss : List Selection}
    (h : ∀ s ∈ ss, ∀ t, p.selection path s = some t → t.RemainsOf s) :
    List.SublistForall₂ Selection.RemainsOf (p.selections path ss) ss := by
  induction ss with
  | nil => exact .nil
  | cons s ss ih =>
    rw [List.forall_mem_cons] at h
    have hrest := ih h.2
    rw [selections_eq_filterMap] at hrest ⊢
    cases hkept : p.selection path s with
    | none =>
      rw [List.filterMap_cons_none hkept]
      exact .cons_right hrest
    | some t =>
      rw [List.filterMap_cons_some hkept]
      exact .cons (h.1 t hkept) hrest

/-- What is kept of a selection remains of it, also where an original child is put back. -/
theorem remainsOf_selection {s : Selection} : ∀ {path : List String} {t : Selection},
    p.selection path s = some t → t.RemainsOf s := by
  induction s using Selection.inductOn with
  | leaf f =>
    intro path t hkept
    obtain ⟨-, rfl⟩ := selection_leaf_eq_some_iff.mp hkept
    exact .leaf f
  | verbatim node =>
    intro path t hkept
    obtain rfl := Option.some.inj hkept
    exact .verbatim node
  | branch f children ih =>
    intro path t hkept
    obtain ⟨-, ⟨-, rfl⟩ | ⟨hempty, -, first, rest, rfl, rfl⟩⟩ :=
      selection_branch_eq_some_iff.mp hkept
    · refine .branch ?_ (filterMap_verbatim?_selections p _ children)
      exact sublistForall₂_selections fun s hs t => ih s hs
    · -- Nothing was kept of the children, so there is no verbatim node among them.
      have hnone : (first :: rest).filterMap Selection.verbatim? = [] := by
        rw [← filterMap_verbatim?_selections p, hempty, List.filterMap_nil]
      have hfirst : first.verbatim? = none :=
        (List.forall_mem_cons.mp (List.filterMap_eq_nil_iff.mp hnone)).1
      refine .branch (.cons (.refl first) .nil) ?_
      rw [hnone, List.filterMap_cons_none hfirst, List.filterMap_nil]

/-- Of every selection of the operation itself something is left. -/
theorem forall₂_selections_root (p : Pruning) (ss : List Selection) :
    List.Forall₂ Selection.RemainsOf (p.selections [] ss) ss := by
  induction ss with
  | nil => exact .nil
  | cons s ss ih =>
    obtain ⟨t, hkept⟩ := Option.isSome_iff_exists.mp (p.isSome_selection_root s)
    rw [selections_eq_filterMap] at ih ⊢
    rw [List.filterMap_cons_some hkept]
    exact .cons (remainsOf_selection hkept) ih

theorem isFilled_selection {path : List String} {s t : Selection}
    (h : s.everywhere Selection.isFilled = true) (hkept : p.selection path s = some t) :
    t.everywhere Selection.isFilled = true := by
  refine everywhere_selection (fun f children kept hself hempty => ?_) h hkept
  simp only [Selection.isFilled, Bool.not_eq_true', List.isEmpty_eq_false_iff] at hself ⊢
  exact mt hempty hself

end Pruning

namespace Document

/-- What is left of a document when selections are taken away: everything else is the same, and of
every selection of the operation itself something is left. -/
structure RemainsOf (e d : Document) : Prop where
  auxiliary : e.auxiliary = d.auxiliary
  name : e.operation.name = d.operation.name
  definitions : e.operation.definitions = d.operation.definitions
  directives : e.operation.directives = d.operation.directives
  selections : List.Forall₂ Selection.RemainsOf e.operation.selections d.operation.selections

/-- No selection set is empty, that of the operation included. -/
def isFilled (d : Document) : Bool :=
  !d.operation.selections.isEmpty &&
    Selection.allEverywhere Selection.isFilled d.operation.selections

end Document

namespace Pruning

theorem remainsOf_document (p : Pruning) (d : Document) : (p.document d).RemainsOf d where
  auxiliary := rfl
  name := rfl
  definitions := rfl
  directives := rfl
  selections := p.forall₂_selections_root d.operation.selections

theorem isFilled_document (p : Pruning) {d : Document} (h : d.isFilled = true) :
    (p.document d).isFilled = true := by
  simp only [Document.isFilled, Bool.and_eq_true, Bool.not_eq_true', List.isEmpty_eq_false_iff,
    Selection.allEverywhere_iff] at h ⊢
  obtain ⟨hne, hfilled⟩ := h
  constructor
  · have hlength := (p.remainsOf_document d).selections.length_eq
    exact List.ne_nil_of_length_pos (hlength ▸ List.length_pos_iff.mpr hne)
  · intro t ht
    rw [document, selections_eq_filterMap] at ht
    obtain ⟨s, hs, hkept⟩ := List.mem_filterMap.mp ht
    exact isFilled_selection (hfilled s hs) hkept

end Pruning

namespace Document

/-- Keeping fields, at every level or below one path, only takes selections away, and it leaves no
selection set empty that was not. -/
theorem remainsOf_of_select (policy : EmptyPolicy) (names : List String) (d : Document) :
    ((d.select policy names).RemainsOf d ∧
      (d.isFilled = true → (d.select policy names).isFilled = true)) ∧
    ∀ (path : List String) (e : Document), d.selectAt policy path names = .ok e →
      e.RemainsOf d ∧ (d.isFilled = true → e.isFilled = true) := by
  refine ⟨⟨Pruning.remainsOf_document _ d, Pruning.isFilled_document _⟩, fun path e h => ?_⟩
  obtain ⟨-, rfl⟩ := selectAt_ok_iff.mp h
  exact ⟨Pruning.remainsOf_document _ d, Pruning.isFilled_document _⟩

/-- A search with a fragment between two results. -/
private def twoResults : Document where
  operation :=
    { name := none
      definitions := []
      directives := []
      selections :=
        [.branch ⟨none, "search", [], []⟩
          [.branch ⟨none, "result", [], []⟩ [.leaf ⟨none, "title", [], []⟩],
            .verbatim ⟨.fragmentSpread, "...Hit"⟩,
            .branch ⟨none, "result", [], []⟩
              [.leaf ⟨none, "title", [], []⟩, .leaf ⟨none, "id", [], []⟩]]] }
  auxiliary := []

/-- The first result goes with its title, and the fragment stays. -/
theorem remainsOf_of_select_twoResults :
    ∃ e, twoResults.selectAt .cascade ["search", "result"] ["id"] = .ok e ∧
      e.RemainsOf twoResults ∧ twoResults.isFilled = true ∧ e.isFilled = true := by
  have hfilled : twoResults.isFilled = true := rfl
  obtain ⟨e, he⟩ : ∃ e, twoResults.selectAt .cascade ["search", "result"] ["id"] = .ok e :=
    ⟨_, rfl⟩
  obtain ⟨hremains, hstill⟩ := (remainsOf_of_select .cascade ["id"] twoResults).2 _ e he
  exact ⟨e, he, hremains, hfilled, hstill hfilled⟩

end Document

end QueryCraft
