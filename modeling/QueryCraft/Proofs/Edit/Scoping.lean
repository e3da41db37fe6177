import QueryCraft.Edit
import QueryCraft.Proofs.Document.References
import QueryCraft.Proofs.Edit.Binding
import QueryCraft.Proofs.Edit.Selecting
import QueryCraft.Proofs.Synthesis.Variables

/-!
Variables stay in scope. Synthesis starts with well-scoped documents, every edit keeps them well
scoped, and no edit takes a definition away that the document still refers to.
-/

namespace QueryCraft

namespace Document

def definedNames (d : Document) : List String :=
  d.operation.definitions.map VariableDefinition.name

/-- Each variable is defined once, and each one that an argument mentions is defined. -/
structure WellScoped (d : Document) : Prop where
  nodup : d.definedNames.Nodup
  defined : ∀ a ∈ d.operation.allArguments, ∀ x, a.value.mentions x = true → x ∈ d.definedNames

/-- Every definition of the first document whose variable the second one still mentions is there,
with its name and type. -/
def KeepsMentioned (d e : Document) : Prop :=
  ∀ v ∈ d.operation.definitions, e.mentions v.name = true →
    ∃ w ∈ e.operation.definitions, w.name = v.name ∧ w.type = v.type

end Document

namespace Document

variable {d e : Document} {name x : String} {v : Value}

/-- The same definitions and no other arguments: the scope is the same. -/
theorem WellScoped.of_subset (h : d.WellScoped) (hnames : e.definedNames = d.definedNames)
    (hargs : e.operation.allArguments ⊆ d.operation.allArguments) : e.WellScoped := by
  refine ⟨hnames ▸ h.nodup, fun a ha x hx => ?_⟩
  rw [hnames]
  exact h.defined a (hargs ha) x hx

theorem keepsMentioned_of_eq (h : e.operation.definitions = d.operation.definitions) :
    d.KeepsMentioned e := by
  intro w hw _
  exact ⟨w, h ▸ hw, rfl, rfl⟩

/-- Pruning leaves the definitions alone. -/
theorem WellScoped.prune (h : d.WellScoped) (p : Pruning) :
    (p.document d).WellScoped ∧ d.KeepsMentioned (p.document d) :=
  ⟨h.of_subset rfl (p.allArguments_document d), keepsMentioned_of_eq rfl⟩

theorem WellScoped.rename {newName : Option String} (h : d.WellScoped)
    (hrename : d.rename newName = .ok e) : e.WellScoped ∧ d.KeepsMentioned e := by
  unfold Document.rename at hrename
  split at hrename
  · obtain rfl := Except.ok.inj hrename
    exact ⟨h.of_subset rfl (List.Subset.refl _), keepsMentioned_of_eq rfl⟩
  · split at hrename
    · obtain rfl := Except.ok.inj hrename
      exact ⟨h.of_subset rfl (List.Subset.refl _), keepsMentioned_of_eq rfl⟩
    · contradiction

/-- A value without variables brings none in, also where it is converted. -/
theorem WellScoped.assign (h : d.WellScoped) (hv : v.isConstant = true)
    (hassign : d.assign name v = .ok e) : e.WellScoped ∧ d.KeepsMentioned e := by
  obtain ⟨hresult, rfl⟩ := assign_ok_iff.mp hassign
  have hnames : (d.map (Folder.result (Argument.assign name v))
      (VariableDefinition.assign (d.operation.boundVariables name) v)).definedNames =
      d.definedNames := by
    simp [definedNames, map, Operation.map, VariableDefinition.name_assign, Function.comp_def]
  have hkept : d.KeepsMentioned (d.map (Folder.result (Argument.assign name v))
      (VariableDefinition.assign (d.operation.boundVariables name) v)) := by
    intro w hw _
    refine ⟨_, List.mem_map_of_mem hw, VariableDefinition.name_assign _ v w, ?_⟩
    exact VariableDefinition.type_assign _ v w
  refine ⟨⟨hnames ▸ h.nodup, fun b hb x hx => ?_⟩, hkept⟩
  have hargs := Operation.allArguments_map (Folder.result (Argument.assign name v))
    (VariableDefinition.assign (d.operation.boundVariables name) v) d.operation
  rw [map, hargs] at hb
  obtain ⟨a, ha, rfl⟩ := List.mem_map.mp hb
  rw [hnames]
  rcases Argument.assign_cases (hresult a ha) with hsame | ⟨-, -, -, hconform⟩
  · rw [hsame] at hx
    exact h.defined a ha x hx
  · have hconstant := Value.isConstant_of_conform hv hconform
    rw [Value.mentions_eq_false_of_isConstant hconstant] at hx
    contradiction

/-- A variable that arguments are bound to is defined, or takes over a definition that nothing
refers to; definitions that are referred to stay. -/
theorem WellScoped.rebind (h : d.WellScoped) (hrebind : d.rebind name x = .ok e) :
    e.WellScoped ∧ d.KeepsMentioned e := by
  rcases rebind_cases hrebind with ⟨-, rfl⟩ | ⟨-, definitions, htake, hoperation, -⟩
  · exact ⟨h, keepsMentioned_of_eq rfl⟩
  have hnames : e.definedNames = definitions.map VariableDefinition.name := by
    rw [definedNames, hoperation]
  have hkept : d.KeepsMentioned e := by
    intro w hw hmentioned
    have hstays : d.isFreed name x w.name = false := by
      simp [isFreed, ← mentions_of_rebind hrebind, hmentioned]
    have hmem : w ∈ definitions := VariableDefinition.mem_takeOver htake hw hstays
    rw [hoperation]
    exact ⟨w, hmem, rfl, rfl⟩
  refine ⟨⟨?_, fun b hb y hy => ?_⟩, hkept⟩
  · rw [hnames]
    refine VariableDefinition.nodup_takeOver htake h.nodup fun hundefined => ?_
    rw [← Bool.not_eq_true, Operation.definition?_isSome] at hundefined
    simpa using hundefined
  · have hmentioned : e.mentions y = true := mentions_of_mem hb hy
    rw [allArguments_of_rebind hrebind] at hb
    obtain ⟨a, ha, rfl⟩ := List.mem_map.mp hb
    by_cases hname : a.name = name
    · obtain rfl : x = y := by simpa [Argument.rebind, hname, Value.mentions] using hy
      rw [hnames]
      obtain ⟨definition, hdefinition, rfl⟩ :=
        VariableDefinition.exists_definition_of_takeOver htake (d.isFreed_self name x)
      exact List.mem_map_of_mem hdefinition
    -- The mention was there before, and it keeps the definition from being freed.
    · rw [Argument.rebind, if_neg hname] at hy
      obtain ⟨w, hw, rfl⟩ := List.mem_map.mp (h.defined a ha y hy)
      obtain ⟨w', hw', hsame, -⟩ := hkept w hw hmentioned
      exact List.mem_map.mpr ⟨w', hw', hsame⟩

theorem WellScoped.setArgument (h : d.WellScoped)
    (hv : (∃ x, v = .var x) ∨ v.isConstant = true) (hset : d.setArgument name v = .ok e) :
    e.WellScoped ∧ d.KeepsMentioned e := by
  rcases hv with ⟨x, rfl⟩ | hconstant
  · rw [setArgument_var] at hset
    exact h.rebind hset
  · have hkind : v.kind ≠ .var := by
      intro hvar
      obtain ⟨x, rfl⟩ := Value.kind_eq_var_iff.mp hvar
      contradiction
    rw [setArgument_eq_assign hkind] at hset
    exact h.assign hconstant hset

theorem WellScoped.setArgumentText {raw : String} (h : d.WellScoped)
    (hset : d.setArgumentText name raw = .ok e) : e.WellScoped ∧ d.KeepsMentioned e := by
  unfold Document.setArgumentText at hset
  split at hset
  · obtain rfl := Except.ok.inj hset
    exact ⟨h, keepsMentioned_of_eq rfl⟩
  · split at hset
    · next v hvalue =>
      exact h.setArgument (.inr ((formed_of_argumentValue hvalue).isConstant rfl)) hset
    · contradiction

end Document

/-- Whether an edit gives no argument a compound value that mentions variables. -/
def Edit.bringsNoReference : Edit → Bool
  | .argument _ v => v.kind == .var || v.isConstant
  | _ => true

/-- One document becomes another by an edit that succeeds, under some policy. -/
def Edit.Step (d e : Document) : Prop :=
  ∃ (policy : EmptyPolicy) (edit : Edit),
    edit.bringsNoReference = true ∧ edit.apply policy d = .ok e

/-- One document becomes another by any number of edits. -/
inductive Edit.Session (d : Document) : Document → Prop where
  | start : Session d d
  | next {e f : Document} : Session d e → Edit.Step e f → Session d f

/-- One edit keeps a document well scoped, and the definitions that are still referred to. -/
theorem Document.WellScoped.step {d e : Document} (h : d.WellScoped) (hstep : Edit.Step d e) :
    e.WellScoped ∧ d.KeepsMentioned e := by
  obtain ⟨policy, edit, hsafe, happly⟩ := hstep
  cases edit with
  | select names =>
    obtain rfl := Except.ok.inj happly
    exact h.prune _
  | selectAt path names =>
    obtain ⟨-, rfl⟩ := Document.selectAt_ok_iff.mp happly
    exact h.prune _
  | argument name v =>
    simp only [Edit.bringsNoReference, Bool.or_eq_true, beq_iff_eq, Value.kind_eq_var_iff] at hsafe
    exact h.setArgument hsafe happly
  | argumentText name raw => exact h.setArgumentText happly
  | rename name => exact h.rename happly

/-- A whole session keeps a document well scoped. -/
theorem Document.WellScoped.session {d e : Document} (h : d.WellScoped)
    (hsession : Edit.Session d e) : e.WellScoped := by
  induction hsession with
  | start => exact h
  | next _ hstep ih => exact (ih.step hstep).1

/-- A synthesized query is a well-scoped document. -/
theorem Document.WellScoped.synthesize {s : Schema} {config : Synthesis.Config} {name : String}
    {q : SynthesizedQuery} (h : s.synthesize config name = .ok q) : q.toDocument.WellScoped := by
  obtain ⟨-, f, st, -, -, hwalk, rfl⟩ := Schema.synthesize_ok h
  obtain ⟨hnodup, hbound⟩ := (Synthesis.State.Scoped.initial.walk hwalk).query config f
  refine ⟨hnodup, fun a ha x hx => ?_⟩
  have ha : a ∈ (config.query f st).root.allArguments := by
    simpa [SynthesizedQuery.toDocument, Operation.allArguments, Directive.allArguments,
      Selection.listArguments, SelectionTree.allArguments_toSelection] using ha
  obtain ⟨y, hy, hvalue⟩ := hbound a ha
  rw [hvalue, Value.mentions, beq_iff_eq] at hx
  exact hx ▸ hy

/-- Synthesized queries are well scoped, every session of edits keeps a document well scoped, and
none of its edits takes away the definition of a variable that is still referred to. -/
theorem Document.wellScoped_of_synthesis_and_sessions :
    (∀ (s : Schema) (config : Synthesis.Config) (name : String) (q : SynthesizedQuery),
      s.synthesize config name = .ok q → q.toDocument.WellScoped) ∧
    ∀ d e : Document, d.WellScoped → Edit.Session d e →
      e.WellScoped ∧ ∀ f, Edit.Step e f → f.WellScoped ∧ e.KeepsMentioned f := by
  refine ⟨fun _ _ _ _ h => WellScoped.synthesize h, fun d e hd hsession => ?_⟩
  have he : e.WellScoped := hd.session hsession
  exact ⟨he, fun f hstep => he.step hstep⟩

/-- A query with an argument bound to the variable `x`, and a directive bound to another one. -/
private def boundQuery (x : String) : Document where
  operation :=
    { name := none
      definitions := [⟨x, .named "Int" true, none⟩, ⟨"deep", .named "Boolean" false, none⟩]
      directives := []
      selections :=
        [.leaf ⟨none, "issues", [⟨"first", .var x⟩], [⟨"include", [⟨"if", .var "deep"⟩]⟩]⟩] }
  auxiliary := [⟨.fragmentDefinition, "fragment F on T \x7b f(a: $deep) \x7d"⟩]

theorem Document.wellScoped_of_synthesis_and_sessions_boundQuery :
    Edit.Step (boundQuery "n") (boundQuery "count") ∧ (boundQuery "count").WellScoped ∧
      (boundQuery "n").KeepsMentioned (boundQuery "count") := by
  have hscoped : (boundQuery "n").WellScoped := by
    refine ⟨by decide, fun a ha x hx => ?_⟩
    have hargs : a ∈ [(⟨"first", .var "n"⟩ : Argument), ⟨"if", .var "deep"⟩] := ha
    simp only [List.mem_cons, List.not_mem_nil, or_false] at hargs
    rcases hargs with rfl | rfl
    · obtain rfl := beq_iff_eq.mp hx
      decide
    · obtain rfl := beq_iff_eq.mp hx
      decide
  have hstep : Edit.Step (boundQuery "n") (boundQuery "count") :=
    ⟨.cascade, .argument "first" (.var "count"), rfl, by with_unfolding_all rfl⟩
  exact ⟨hstep, (wellScoped_of_synthesis_and_sessions.2 _ _ hscoped .start).2 _ hstep⟩

end QueryCraft
