import QueryCraft.Proofs.Schema.Sources

/-!
The order of loading. Declarations take effect when they are loaded and extensions when everything
is loaded, so only the order of the declarations among themselves and the order of the extensions
among themselves decide what is built, however both are spread over sources.
-/

namespace QueryCraft.Schema

/-- Whether a definition takes effect when it is loaded. -/
def Definition.isDeclaration : Definition → Bool
  | .schema .. | .type _ => true
  | .extension _ | .directive => false

def Definition.extension? : Definition → Option TypeExtension
  | .extension e => some e
  | _ => none

theorem Definition.isDeclaration_unplaced (d : Definition) :
    d.unplaced.isDeclaration = d.isDeclaration := by
  cases d <;> rfl

theorem Definition.extension?_unplaced (d : Definition) :
    d.unplaced.extension? = d.extension?.map TypeExtension.unplaced := by
  cases d <;> rfl

/-- The extensions among definitions, each with the name of its source. -/
def extensionsOf (ds : List (String × Definition)) : List (String × TypeExtension) :=
  ds.filterMap fun d => d.2.extension?.map fun e => (d.1, e)

namespace Builder

/-- A builder with more extensions to merge. -/
def queue (b : Builder) (es : List (String × TypeExtension)) : Builder :=
  { b with extensions := b.extensions ++ es }

theorem queue_nil (b : Builder) : b.queue [] = b := by
  simp [queue]

theorem queue_queue (b : Builder) (es fs : List (String × TypeExtension)) :
    (b.queue es).queue fs = b.queue (es ++ fs) := by
  simp [queue]

theorem declare_queue (b : Builder) (es : List (String × TypeExtension)) (name : String)
    (t : TypeDraft) (location : Location) :
    translate (queue · es) id (b.declare name t location) =
      (b.queue es).declare name t location := by
  have hlocations : (b.queue es).locations = b.locations := rfl
  unfold declare
  rw [hlocations]
  by_cases hreserved : isReserved name = true
  · rw [if_pos hreserved, if_pos hreserved]
    rfl
  · rw [if_neg hreserved, if_neg hreserved]
    cases b.locations.lookup name <;> rfl

/-- A declaration does not look at the extensions that wait. -/
theorem add_queue {file : String} {d : Definition} (h : d.isDeclaration = true) (b : Builder)
    (es : List (String × TypeExtension)) :
    translate (queue · es) id (b.add file d) = (b.queue es).add file d := by
  cases d with
  | schema position query =>
    cases query with
    | none => rfl
    | some type =>
      obtain ⟨locations, types, extensions, chosen, unnamedSources⟩ := b
      cases chosen <;> rfl
  | type d =>
    simp only [add]
    cases ShapeDraft.ofBody file d.name d.body with
    | error e => rfl
    | ok shape => exact declare_queue b es d.name _ _
  | extension e | directive => contradiction

theorem addEach_queue {ds : List (String × Definition)}
    (h : ∀ d ∈ ds, d.2.isDeclaration = true) (b : Builder)
    (es : List (String × TypeExtension)) :
    translate (queue · es) id (b.addEach ds) = (b.queue es).addEach ds := by
  induction ds generalizing b with
  | nil => rfl
  | cons d ds ih =>
    rw [List.forall_mem_cons] at h
    rw [addEach, addEach, List.foldlM_cons, List.foldlM_cons, ← add_queue h.1]
    cases b.add d.1 d.2 with
    | error e => rfl
    | ok c => exact ih h.2 c

/-- Taking in definitions is taking in the declarations among them, with the extensions left for
later. -/
theorem addEach_eq (b : Builder) (ds : List (String × Definition)) :
    b.addEach ds =
      translate (queue · (extensionsOf ds)) id (b.addEach (ds.filter (·.2.isDeclaration))) := by
  induction ds generalizing b with
  | nil => exact congrArg Except.ok b.queue_nil.symm
  | cons d ds ih =>
    obtain ⟨file, d⟩ := d
    cases d with
    | schema position query | type d =>
      rw [List.filter_cons_of_pos (by rfl), addEach, addEach, List.foldlM_cons, List.foldlM_cons]
      cases hadd : b.add file _ with
      | error e => rfl
      | ok c => exact ih c
    | extension e =>
      have hdeclarations : ∀ d ∈ ds.filter (·.2.isDeclaration), d.2.isDeclaration = true :=
        fun d hd => (List.mem_filter.mp hd).2
      have hall := ih (b.queue [(file, e)])
      rw [← addEach_queue hdeclarations] at hall
      rw [List.filter_cons_of_neg (by simp [Definition.isDeclaration])]
      refine hall.trans ?_
      cases b.addEach (ds.filter (·.2.isDeclaration)) with
      | error cause => rfl
      | ok c => exact congrArg Except.ok (c.queue_queue _ _)
    | directive => exact ih b

end Builder

/-- What is built depends on the sequence of the declarations and on that of the extensions only. -/
theorem ofPlaced_congr {ds es : List (String × Definition)}
    (hdeclarations : ds.filter (·.2.isDeclaration) = es.filter (·.2.isDeclaration))
    (hextensions : extensionsOf ds = extensionsOf es) : ofPlaced ds = ofPlaced es := by
  unfold ofPlaced
  rw [Builder.addEach_eq _ ds, Builder.addEach_eq _ es, hdeclarations, hextensions]

theorem filter_unplaced (ds : List Definition) :
    (ds.map fun d => ("", d.unplaced)).filter (·.2.isDeclaration) =
      ((ds.filter Definition.isDeclaration).map Definition.unplaced).map (Prod.mk "") := by
  rw [List.filter_map, List.map_map]
  congr 1
  exact List.filter_congr fun d _ => d.isDeclaration_unplaced

theorem extensionsOf_unplaced (ds : List Definition) :
    extensionsOf (ds.map fun d => ("", d.unplaced)) =
      ((ds.filterMap Definition.extension?).map TypeExtension.unplaced).map (Prod.mk "") := by
  rw [extensionsOf, List.filterMap_map, List.map_map, List.map_filterMap]
  refine List.filterMap_congr fun d _ => ?_
  simp [Definition.extension?_unplaced, Function.comp_def]

/-- Sources with the same declarations and the same extensions, each in the same order, build the
same schema or fail with the same error, places aside. -/
theorem ofSources_eq_of_same_definitions {sources others : List Source} {ds es : List Definition}
    (hds : Source.allDefinitions? sources = some ds)
    (hes : Source.allDefinitions? others = some es)
    (hdeclarations : (ds.filter Definition.isDeclaration).map Definition.unplaced =
      (es.filter Definition.isDeclaration).map Definition.unplaced)
    (hextensions : (ds.filterMap Definition.extension?).map TypeExtension.unplaced =
      (es.filterMap Definition.extension?).map TypeExtension.unplaced) :
    (∃ s, ofSources sources = .ok s ∧ ofSources others = .ok s) ∨
      ∃ e f, ofSources sources = .error e ∧ ofSources others = .error f ∧
        e.unplaced = f.unplaced := by
  have hsame : translate id BuildError.unplaced (ofSources sources) =
      translate id BuildError.unplaced (ofSources others) := by
    rw [ofSources_unplaced hds, ofSources_unplaced hes]
    apply ofPlaced_congr
    · rw [filter_unplaced, filter_unplaced, hdeclarations]
    · rw [extensionsOf_unplaced, extensionsOf_unplaced, hextensions]
  cases hsources : ofSources sources with
  | ok s =>
    rw [hsources] at hsame
    cases hothers : ofSources others with
    | ok t =>
      rw [hothers] at hsame
      obtain rfl : s = t := Except.ok.inj hsame
      exact .inl ⟨s, rfl, rfl⟩
    | error f =>
      rw [hothers] at hsame
      contradiction
  | error e =>
    rw [hsources] at hsame
    cases hothers : ofSources others with
    | ok t =>
      rw [hothers] at hsame
      contradiction
    | error f =>
      rw [hothers] at hsame
      exact .inr ⟨e, f, rfl, rfl, Except.error.inj hsame⟩

/-- The type comes in a second source, behind its extension. -/
private def splitSources : List Source :=
  [.text (some "a.graphql") "extend union U = B", .text none "union U = A extend union U = C"]

private def wholeSource : List Source :=
  [.text none "union U = A extend union U = B extend union U = C"]

private def unionDefinition (start : Position) : Definition :=
  .type ⟨start, none, "U", .union ["A"]⟩

private def unionExtension (start : Position) (member : String) : Definition :=
  .extension ⟨start, "U", .union [member]⟩

theorem ofSources_eq_of_same_definitions_split :
    ∃ s, ofSources splitSources = .ok s ∧ ofSources wholeSource = .ok s := by
  have hsplit : Source.allDefinitions? splitSources = some
      [unionExtension ⟨1, 8⟩ "B", unionDefinition ⟨1, 1⟩, unionExtension ⟨1, 20⟩ "C"] := by
    with_unfolding_all rfl
  have hwhole : Source.allDefinitions? wholeSource = some
      [unionDefinition ⟨1, 1⟩, unionExtension ⟨1, 20⟩ "B", unionExtension ⟨1, 39⟩ "C"] := by
    with_unfolding_all rfl
  rcases ofSources_eq_of_same_definitions hsplit hwhole rfl rfl with h | ⟨e, f, he, -⟩
  · exact h
  · have hok : (ofSources splitSources).isOk = true := by decide +kernel
    rw [he] at hok
    contradiction

end QueryCraft.Schema
