import Mathlib.Data.List.Basic
import QueryCraft.Proofs.Document.References
import QueryCraft.Proofs.Edit.Isolation

/-!
Definitions that are left without a reference when arguments are bound to a variable. Those of the
variables that the arguments were bound to go; the ones that the arguments only had in a list or an
object stay.
-/

namespace QueryCraft

/-- What is no orphan stays, in its order. -/
theorem VariableDefinition.sublist_takeOver {x : String} {isOrphan : String → Bool} {defined : Bool}
    {ds es : List VariableDefinition} (h : takeOver x isOrphan defined ds = some es) :
    (ds.filter fun d => !isOrphan d.name).Sublist es := by
  induction ds generalizing defined es with
  | nil => exact List.nil_sublist es
  | cons d ds ih =>
    unfold takeOver at h
    rw [List.filter_cons]
    split at h
    · next hkept =>
      obtain ⟨rest, hrest, rfl⟩ := Option.map_eq_some_iff.mp h
      rw [if_pos hkept]
      exact (ih hrest).cons_cons d
    · next horphan =>
      rw [if_neg horphan]
      split at h
      · exact ih h
      · obtain ⟨rest, hrest, rfl⟩ := Option.map_eq_some_iff.mp h
        exact (ih hrest).cons _

namespace Document

variable {d e : Document} {name x : String}

/-- The arguments that are bound refer to their variable. -/
theorem refers_of_rebind (h : d.rebind name x = .ok e)
    (hany : ∃ a ∈ d.operation.allArguments, a.name = name) : e.Refers x := by
  obtain ⟨a, ha, hname⟩ := hany
  refine .inl ⟨Argument.rebind name x a, ?_, ?_⟩
  · rw [allArguments_of_rebind h]
    exact List.mem_map_of_mem ha
  · simp [Argument.rebind, hname, Value.mentions]

/-- What is freed was referred to before. -/
theorem refers_of_isFreed {y : String} (h : d.isFreed name x y = true) : d.Refers y := by
  simp only [isFreed, Bool.and_eq_true, List.contains_iff_mem] at h
  obtain ⟨a, ha, -, hvalue⟩ := Operation.mem_boundVariables.mp h.1.1
  exact .inl ⟨a, ha, by simp [hvalue, Value.mentions]⟩

theorem isFreed_iff_of_rebind (h : d.rebind name x = .ok e)
    (hany : ∃ a ∈ d.operation.allArguments, a.name = name) {y : String} (hy : ¬e.Refers y) :
    d.isFreed name x y = true ↔ ∃ a ∈ d.operation.allArguments, a.name = name ∧ a.value = .var y := by
  have hne : y ≠ x := by
    rintro rfl
    exact hy (refers_of_rebind h hany)
  have hfree : (d.map (Argument.rebind name x) id).mentions y = false := by
    rw [← mentions_of_rebind h, ← Bool.not_eq_true, mentions_iff_refers]
    exact hy
  simp [isFreed, hne, hfree, Operation.mem_boundVariables]

/-- Binding the arguments of one name to a variable takes exactly those definitions away that nothing
refers to any more and that are of variables to which such an argument was bound as a whole.
Definitions that nothing referred to before stay as they are. -/
theorem definitions_of_setArgument_var (h : d.setArgument name (.var x) = .ok e) :
    (∀ w ∈ d.operation.definitions, ¬e.Refers w.name →
      ((∀ u ∈ e.operation.definitions, u.name ≠ w.name) ↔
        ∃ a ∈ d.operation.allArguments, a.name = name ∧ a.value = .var w.name)) ∧
    (d.operation.definitions.filter fun w => ¬d.Refers w.name).Sublist
      e.operation.definitions := by
  rw [setArgument_var] at h
  rcases rebind_cases h with ⟨habsent, rfl⟩ | ⟨hany, definitions, htake, hoperation, -⟩
  · refine ⟨fun w hw _ => iff_of_false (fun hgone => hgone w hw rfl) ?_, List.filter_sublist⟩
    rintro ⟨a, ha, hname, -⟩
    exact habsent a ha hname
  rw [hoperation]
  refine ⟨fun w hw hw' => ?_, ?_⟩
  · rw [← isFreed_iff_of_rebind h hany hw']
    constructor
    · intro hgone
      cases hfreed : d.isFreed name x w.name with
      | true => rfl
      | false => exact absurd rfl (hgone w (VariableDefinition.mem_takeOver htake hw hfreed))
    · intro hfreed u hu hname
      have hstays := VariableDefinition.not_isOrphan_of_mem_takeOver (d.isFreed_self name x) htake hu
      rw [hname, hfreed] at hstays
      contradiction
  · refine List.Sublist.trans ?_ (VariableDefinition.sublist_takeOver htake)
    refine List.monotone_filter_right _ fun w hw => ?_
    cases hfreed : d.isFreed name x w.name with
    | false => rfl
    | true => simp [refers_of_isFreed hfreed] at hw

/-- Two variables of which an argument has one, as a whole or in a list. -/
private def search (xs : List String) (v : Value) : Document where
  operation :=
    { name := none
      definitions := xs.map fun x => ⟨x, .named "Int" true, none⟩
      directives := []
      selections := [.leaf ⟨none, "search", [⟨"ids", v⟩], []⟩] }
  auxiliary := []

theorem definitions_of_setArgument_var_search :
    (search ["n", "m", "k"] (.var "n")).setArgument "ids" (.var "m") =
      .ok (search ["m", "k"] (.var "m")) ∧
    (∀ u ∈ (search ["m", "k"] (.var "m")).operation.definitions, u.name ≠ "n") ∧
    [⟨"m", .named "Int" true, none⟩, ⟨"k", .named "Int" true, none⟩].Sublist
      (search ["m", "k"] (.var "m")).operation.definitions := by
  have hset : (search ["n", "m", "k"] (.var "n")).setArgument "ids" (.var "m") =
      .ok (search ["m", "k"] (.var "m")) := by with_unfolding_all rfl
  obtain ⟨hgone, hkept⟩ := definitions_of_setArgument_var hset
  refine ⟨hset, ?_, hkept⟩
  exact (hgone ⟨"n", .named "Int" true, none⟩ (.head _) (by decide)).mpr
    ⟨⟨"ids", .var "n"⟩, .head _, rfl, rfl⟩

/-- A variable in a list is left without a reference, and its definition stays. -/
theorem definitions_of_setArgument_var_differs :
    (search ["n", "m"] (.list [.var "n"])).setArgument "ids" (.var "m") =
      .ok (search ["n", "m"] (.var "m")) ∧
    (search ["n", "m"] (.list [.var "n"])).Refers "n" ∧
    ¬(search ["n", "m"] (.var "m")).Refers "n" ∧
    ∃ u ∈ (search ["n", "m"] (.var "m")).operation.definitions, u.name = "n" := by
  refine ⟨by with_unfolding_all rfl, by decide, by decide, ?_⟩
  exact ⟨⟨"n", .named "Int" true, none⟩, .head _, rfl⟩

end Document

end QueryCraft
