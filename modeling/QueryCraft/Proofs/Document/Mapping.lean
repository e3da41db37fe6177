import QueryCraft.Proofs.Document.Conditions

/-!
Documents with all their arguments and variable definitions replaced, and everything else in place.
-/

namespace QueryCraft

def Directive.map (f : Argument → Argument) (d : Directive) : Directive :=
  { d with arguments := d.arguments.map f }

def Field.map (f : Argument → Argument) (field : Field) : Field :=
  { field with
    arguments := field.arguments.map f
    directives := field.directives.map (Directive.map f) }

mutual

def Selection.map (f : Argument → Argument) : Selection → Selection
  | .leaf field => .leaf (field.map f)
  | .branch field children => .branch (field.map f) (Selection.mapAll f children)
  | .verbatim node => .verbatim node

def Selection.mapAll (f : Argument → Argument) : List Selection → List Selection
  | [] => []
  | s :: ss => Selection.map f s :: Selection.mapAll f ss

end

def Operation.map (f : Argument → Argument) (g : VariableDefinition → VariableDefinition)
    (op : Operation) : Operation where
  name := op.name
  definitions := op.definitions.map g
  directives := op.directives.map (Directive.map f)
  selections := Selection.mapAll f op.selections

/-- Replaces each argument by `f` and each variable definition by `g`. -/
def Document.map (f : Argument → Argument) (g : VariableDefinition → VariableDefinition)
    (d : Document) : Document :=
  { d with operation := d.operation.map f g }

theorem Selection.mapAll_eq_map (f : Argument → Argument) (ss : List Selection) :
    mapAll f ss = ss.map (map f) := by
  induction ss with
  | nil => rfl
  | cons s ss ih => simp [mapAll, ih]

theorem Directive.allArguments_map (f : Argument → Argument) (ds : List Directive) :
    allArguments (ds.map (map f)) = (allArguments ds).map f := by
  simp [allArguments, List.flatMap_map, List.map_flatMap, map]

theorem Field.allArguments_map (f : Argument → Argument) (field : Field) :
    (field.map f).allArguments = field.allArguments.map f := by
  simp [allArguments, map, Directive.allArguments_map]

theorem Selection.allArguments_map (f : Argument → Argument) (s : Selection) :
    (s.map f).allArguments = s.allArguments.map f := by
  induction s using Selection.inductOn with
  | leaf field => exact Field.allArguments_map f field
  | verbatim node => rfl
  | branch field children ih =>
    simp only [map, allArguments, Field.allArguments_map, listArguments_eq_flatMap, mapAll_eq_map,
      List.flatMap_map, List.map_append, List.map_flatMap]
    rw [List.flatMap_def, List.map_congr_left ih]
    rfl

theorem Operation.allArguments_map (f : Argument → Argument)
    (g : VariableDefinition → VariableDefinition) (op : Operation) :
    (op.map f g).allArguments = op.allArguments.map f := by
  simp [allArguments, map, Directive.allArguments_map, Selection.mapAll_eq_map,
    Selection.listArguments_eq_flatMap, List.flatMap_map, List.map_flatMap,
    Selection.allArguments_map]

theorem Directive.map_congr {f f' : Argument → Argument} {d : Directive}
    (h : ∀ a ∈ d.arguments, f a = f' a) : d.map f = d.map f' := by
  rw [map, map, List.map_congr_left h]

theorem Directive.map_all_congr {f f' : Argument → Argument} {ds : List Directive}
    (h : ∀ a ∈ allArguments ds, f a = f' a) : ds.map (map f) = ds.map (map f') := by
  simp only [allArguments, List.forall_mem_flatMap] at h
  exact List.map_congr_left fun d hd => map_congr (h d hd)

theorem Field.map_congr {f f' : Argument → Argument} {field : Field}
    (h : ∀ a ∈ field.allArguments, f a = f' a) : field.map f = field.map f' := by
  rw [forall_allArguments] at h
  rw [map, map, List.map_congr_left h.1, Directive.map_all_congr h.2]

/-- Replacements that agree on the arguments of a selection make the same selection. -/
theorem Selection.map_congr {f f' : Argument → Argument} {s : Selection}
    (h : ∀ a ∈ s.allArguments, f a = f' a) : s.map f = s.map f' := by
  induction s using Selection.inductOn with
  | leaf field =>
    rw [map, map, Field.map_congr h]
  | verbatim node => rfl
  | branch field children ih =>
    rw [forall_allArguments_branch] at h
    rw [map, map, Field.map_congr h.1, mapAll_eq_map, mapAll_eq_map,
      List.map_congr_left fun s hs => ih s hs (h.2 s hs)]

theorem Operation.map_congr {f f' : Argument → Argument}
    {g g' : VariableDefinition → VariableDefinition} {op : Operation}
    (hf : ∀ a ∈ op.allArguments, f a = f' a) (hg : ∀ d ∈ op.definitions, g d = g' d) :
    op.map f g = op.map f' g' := by
  rw [forall_allArguments] at hf
  rw [map, map, List.map_congr_left hg, Directive.map_all_congr hf.1, Selection.mapAll_eq_map,
    Selection.mapAll_eq_map, List.map_congr_left fun s hs => Selection.map_congr (hf.2 s hs)]

theorem Document.map_congr {f f' : Argument → Argument}
    {g g' : VariableDefinition → VariableDefinition} {d : Document}
    (hf : ∀ a ∈ d.operation.allArguments, f a = f' a)
    (hg : ∀ v ∈ d.operation.definitions, g v = g' v) : d.map f g = d.map f' g' := by
  rw [map, map, Operation.map_congr hf hg]

theorem Directive.map_id (d : Directive) : d.map id = d := by
  simp [map]

theorem Field.map_id (field : Field) : field.map id = field := by
  rw [map, List.map_id, List.map_id'' Directive.map_id]

theorem Selection.map_id (s : Selection) : s.map id = s := by
  induction s using Selection.inductOn with
  | leaf field => rw [map, Field.map_id]
  | verbatim node => rfl
  | branch field children ih =>
    have hchildren : children.map (map id) = children.map id := List.map_congr_left ih
    rw [map, Field.map_id, mapAll_eq_map, hchildren, List.map_id]

theorem Document.map_id (d : Document) : d.map id id = d := by
  rw [map, Operation.map, List.map_id, List.map_id'' Directive.map_id, Selection.mapAll_eq_map,
    List.map_id'' Selection.map_id]

/-- Replacements that leave each part as it is leave the document as it is. -/
theorem Document.map_eq_self {f : Argument → Argument} {g : VariableDefinition → VariableDefinition}
    {d : Document} (hf : ∀ a ∈ d.operation.allArguments, f a = a)
    (hg : ∀ v ∈ d.operation.definitions, g v = v) : d.map f g = d :=
  (map_congr hf hg).trans d.map_id

theorem Selection.isField_map (f : Argument → Argument) (s : Selection) :
    (s.map f).everywhere isField = s.everywhere isField := by
  induction s using Selection.inductOn with
  | leaf field => rfl
  | verbatim node => rfl
  | branch field children ih =>
    rw [Bool.eq_iff_iff, map, mapAll_eq_map, everywhere_branch, everywhere_branch,
      List.forall_mem_map]
    exact and_congr_right fun _ => forall₂_congr fun s hs => by rw [ih s hs]

section Printable

variable {f : Argument → Argument}

theorem Directive.isPrintable_map {d : Directive} (h : d.isPrintable = true)
    (hf : ∀ a ∈ d.arguments, (f a).isPrintable = true) : (d.map f).isPrintable = true := by
  simp only [isPrintable, map, Bool.and_eq_true, List.all_eq_true, List.forall_mem_map] at h ⊢
  exact ⟨h.1, hf⟩

theorem Directive.isPrintable_map_all {ds : List Directive} (h : ∀ d ∈ ds, d.isPrintable = true)
    (hf : ∀ a ∈ allArguments ds, (f a).isPrintable = true) :
    ∀ d ∈ ds.map (map f), d.isPrintable = true := by
  simp only [allArguments, List.forall_mem_flatMap] at hf
  exact List.forall_mem_map.mpr fun d hd => isPrintable_map (h d hd) (hf d hd)

theorem Field.isPrintable_map {field : Field} (h : field.isPrintable = true)
    (hf : ∀ a ∈ field.allArguments, (f a).isPrintable = true) :
    (field.map f).isPrintable = true := by
  rw [forall_allArguments] at hf
  simp only [isPrintable, Bool.and_eq_true, List.all_eq_true] at h ⊢
  exact ⟨⟨h.1.1, List.forall_mem_map.mpr hf.1⟩, Directive.isPrintable_map_all h.2 hf.2⟩

theorem Selection.isPrintable_map {s : Selection} (h : s.everywhere isPrintable = true)
    (hf : ∀ a ∈ s.allArguments, (f a).isPrintable = true) :
    (s.map f).everywhere isPrintable = true := by
  induction s using Selection.inductOn with
  | leaf field => exact Field.isPrintable_map h hf
  | verbatim node => exact h
  | branch field children ih =>
    obtain ⟨hself, hchildren⟩ := everywhere_branch.mp h
    rw [forall_allArguments_branch] at hf
    rw [map, mapAll_eq_map]
    refine everywhere_branch.mpr ⟨?_, List.forall_mem_map.mpr fun s hs => ?_⟩
    · simp only [isPrintable, Bool.and_eq_true, List.isEmpty_map] at hself ⊢
      exact ⟨Field.isPrintable_map hself.1 hf.1, hself.2⟩
    · exact ih s hs (hchildren s hs) (hf.2 s hs)

/-- Printable replacements keep a document printable. -/
theorem Document.isPrintable_map {g : VariableDefinition → VariableDefinition} {d : Document}
    (h : d.isPrintable = true)
    (hf : ∀ a ∈ d.operation.allArguments, (f a).isPrintable = true)
    (hg : ∀ v ∈ d.operation.definitions, (g v).isPrintable = true) :
    (d.map f g).isPrintable = true := by
  rw [Operation.forall_allArguments] at hf
  simp only [isPrintable, Operation.isPrintable, map, Operation.map, Bool.and_eq_true,
    List.all_eq_true, Selection.allEverywhere_iff, Selection.mapAll_eq_map, List.isEmpty_map,
    List.forall_mem_map] at h ⊢
  obtain ⟨⟨⟨⟨hname, -⟩, hdirectives⟩, hne⟩, hselections⟩ := h
  refine ⟨⟨⟨⟨hname, hg⟩, ?_⟩, hne⟩, fun s hs => ?_⟩
  · exact List.forall_mem_map.mp (Directive.isPrintable_map_all hdirectives hf.1)
  · exact Selection.isPrintable_map (hselections s hs) (hf.2 s hs)

end Printable

theorem sameLists_map_iff {α : Type} {same : α → α → Bool} {f : α → α} {as : List α} :
    sameLists same (as.map f) as = true ↔ ∀ a ∈ as, same (f a) a = true := by
  induction as with
  | nil => simp [sameLists]
  | cons a as ih => simp [sameLists, ih]

theorem Directive.same_map_all_iff {f : Argument → Argument} {ds : List Directive} :
    sameLists same (ds.map (map f)) ds = true ↔ ∀ a ∈ allArguments ds, (f a).same a = true := by
  rw [sameLists_map_iff, allArguments, List.forall_mem_flatMap]
  simp only [same, map, Bool.and_eq_true, beq_self_eq_true, true_and, sameLists_map_iff]

theorem Field.same_map_iff {f : Argument → Argument} {field : Field} :
    (field.map f).same field = true ↔ ∀ a ∈ field.allArguments, (f a).same a = true := by
  rw [forall_allArguments]
  simp only [same, map, Bool.and_eq_true, beq_self_eq_true, true_and, sameLists_map_iff]
  rw [← Directive.same_map_all_iff, sameLists_map_iff]

theorem Selection.sameAll_eq_sameLists (ss ts : List Selection) :
    sameAll ss ts = sameLists same ss ts := by
  induction ss generalizing ts with
  | nil => cases ts <;> rfl
  | cons s ss ih =>
    cases ts with
    | nil => rfl
    | cons t ts => simp [sameAll, sameLists, ih]

theorem Selection.same_map_iff {f : Argument → Argument} {s : Selection} :
    (s.map f).same s = true ↔ ∀ a ∈ s.allArguments, (f a).same a = true := by
  induction s using Selection.inductOn with
  | leaf field => exact Field.same_map_iff
  | verbatim node => simp [map, same, allArguments]
  | branch field children ih =>
    rw [forall_allArguments_branch]
    simp only [map, same, Bool.and_eq_true, mapAll_eq_map, sameAll_eq_sameLists, sameLists_map_iff,
      Field.same_map_iff]
    exact and_congr_right fun _ => forall₂_congr ih

/-- A document with its parts replaced is the same exactly if each part is. -/
theorem Document.same_map_iff {f : Argument → Argument}
    {g : VariableDefinition → VariableDefinition} {d : Document} :
    (d.map f g).same d = true ↔
      (∀ a ∈ d.operation.allArguments, (f a).same a = true) ∧
        ∀ v ∈ d.operation.definitions, (g v).same v = true := by
  rw [Operation.forall_allArguments]
  simp only [same, map, Operation.same, Operation.map, Bool.and_eq_true, beq_self_eq_true,
    true_and, and_true, Selection.mapAll_eq_map, Selection.sameAll_eq_sameLists, sameLists_map_iff,
    Selection.same_map_iff]
  rw [← Directive.same_map_all_iff, sameLists_map_iff]
  constructor
  · rintro ⟨⟨hdefinitions, hdirectives⟩, hselections⟩
    exact ⟨⟨hdirectives, hselections⟩, hdefinitions⟩
  · rintro ⟨⟨hdirectives, hselections⟩, hdefinitions⟩
    exact ⟨⟨hdefinitions, hdirectives⟩, hselections⟩

section Composition

variable (f f' : Argument → Argument)

theorem Directive.map_map (d : Directive) : (d.map f).map f' = d.map (f' ∘ f) := by
  simp [map]

theorem Field.map_map (field : Field) : (field.map f).map f' = field.map (f' ∘ f) := by
  simp [map, Directive.map_map, Function.comp_def]

theorem Selection.map_map (s : Selection) : (s.map f).map f' = s.map (f' ∘ f) := by
  induction s using Selection.inductOn with
  | leaf field => rw [map, map, map, Field.map_map]
  | verbatim node => rfl
  | branch field children ih =>
    have hchildren : children.map (map f' ∘ map f) = children.map (map (f' ∘ f)) :=
      List.map_congr_left ih
    simp only [map, mapAll_eq_map, Field.map_map, List.map_map, hchildren]

/-- Replacing twice is replacing once. -/
theorem Document.map_map (g g' : VariableDefinition → VariableDefinition) (d : Document) :
    (d.map f g).map f' g' = d.map (f' ∘ f) (g' ∘ g) := by
  simp [map, Operation.map, Selection.mapAll_eq_map, Directive.map_map, Selection.map_map,
    Function.comp_def]

end Composition

end QueryCraft
