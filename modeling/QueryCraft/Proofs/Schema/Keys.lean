import QueryCraft.Proofs.Schema.Building

/-!
The names in a schema. Types, fields and parameters stand under their own names and no name stands
twice, whatever is loaded and merged.
-/

namespace QueryCraft

namespace Keyed

variable {α : Type} {name : α → String} {m n : Map α}

/-- Each element of a map stands under its own name, and no name stands twice. -/
structure Named (name : α → String) (m : Map α) : Prop where
  keys : ∀ e ∈ m, e.1 = name e.2
  nodup : (names m).Nodup

theorem Named.nil : Named name [] :=
  ⟨nofun, List.nodup_nil⟩

theorem Named.append (hm : Named name m) (hn : Named name n)
    (h : ∀ k ∈ names n, k ∉ names m) : Named name (m ++ n) := by
  refine ⟨List.forall_mem_append.mpr ⟨hm.keys, hn.keys⟩, ?_⟩
  rw [names, List.map_append, List.nodup_append']
  exact ⟨hm.nodup, hn.nodup, fun k hk hk' => h k hk' hk⟩

theorem named_map_iff {β : Type} {key : β → String} {f : β → α} {bs : List β}
    (h : ∀ b, key b = name (f b)) :
    Named name (bs.map fun b => (key b, f b)) ↔ (bs.map key).Nodup := by
  have hnames : names (bs.map fun b => (key b, f b)) = bs.map key := by
    simp [names, Function.comp_def]
  refine ⟨fun hnamed => hnames ▸ hnamed.nodup, fun hnodup => ⟨?_, hnames ▸ hnodup⟩⟩
  exact List.forall_mem_map.mpr fun b _ => h b

/-- Parameters that repeat a name leave no trace of it. -/
theorem named_ofList (as : List α) : Named name (ofList Prod.fst (as.map fun a => (name a, a))) := by
  refine ⟨fun e he => ?_, nodup_names_ofList _⟩
  obtain ⟨a, -, rfl⟩ := List.mem_map.mp (mem_of_mem_ofList he)
  rfl

/-- What starts a list without some element ends before this element. -/
theorem prefix_of_not_mem {as front back : List α} {a : α} (h : as <+: front ++ a :: back)
    (ha : a ∉ as) : as <+: front := by
  rw [List.append_cons] at h
  rcases List.prefix_or_prefix_of_prefix h (List.prefix_append _ _) with hshort | hlong
  · rcases List.prefix_concat_iff.mp hshort with rfl | hfront
    · exact absurd (by simp) ha
    · exact hfront
  · exact absurd (hlong.subset (by simp)) ha

end Keyed

namespace Schema

/-- The fields and parameters of a type stand under their names, and its fields are its own. -/
structure ShapeDraft.Named (type : String) (s : ShapeDraft) : Prop where
  fields : Keyed.Named FieldDraft.name s.fields
  parents : ∀ f ∈ s.fields, f.2.parent = type
  parameters : ∀ f ∈ s.fields, Keyed.Named Parameter.name f.2.parameters
  inputs : Keyed.Named Parameter.name s.inputs

/-- The types of a schema stand under their names, and the types that every schema has come first
and as they are. -/
structure NamedTypes (types : Keyed.Map TypeDraft) : Prop where
  keys : Keyed.Named TypeDraft.name types
  shapes : ∀ t ∈ types, t.2.shape.Named t.2.name
  builtin : (BuiltinScalar.all.map fun b => (b.name, b.draft)) <+: types

theorem Body.named_draft {type : String} {b : Body} (h : b.memberNames.Nodup) :
    (b.draft type).Named type := by
  rw [memberNames, List.nodup_append'] at h
  refine ⟨?_, ?_, ?_, ?_⟩
  · rw [fields_draft]
    exact (Keyed.named_map_iff (f := FieldDraft.ofDefinition type) fun d => rfl).mpr h.1
  · rw [fields_draft]
    exact List.forall_mem_map.mpr fun d _ => rfl
  · rw [fields_draft]
    exact List.forall_mem_map.mpr fun d _ => Keyed.named_ofList d.parameters
  · rw [inputs_draft]
    exact (Keyed.named_map_iff (f := InputField.parameter) fun f => rfl).mpr h.2.1

/-- An extension leaves the members of a type under their names. -/
theorem ShapeDraft.Named.joined {type : String} {s : ShapeDraft} {b : Body} (h : s.Named type)
    (hkind : s.kind = b.kind) (hnodup : b.memberNames.Nodup)
    (hfresh : ∀ n ∈ b.memberNames, n ∉ s.memberNames) : (s.joined type b).Named type := by
  have hdraft : (b.draft type).Named type := b.named_draft hnodup
  have hfields : (s.joined type b).fields = s.fields ++ (b.draft type).fields := by
    rw [fields_joined hkind, Body.fields_draft]
  have hinputs : (s.joined type b).inputs = s.inputs ++ (b.draft type).inputs := by
    rw [inputs_joined hkind, Body.inputs_draft]
  rw [← b.memberNames_draft type] at hfresh
  refine ⟨?_, ?_, ?_, ?_⟩
  · rw [hfields]
    refine h.fields.append hdraft.fields fun k hk hk' => ?_
    exact hfresh k (List.mem_append_left _ hk) (List.mem_append_left _ hk')
  · rw [hfields]
    exact List.forall_mem_append.mpr ⟨h.parents, hdraft.parents⟩
  · rw [hfields]
    exact List.forall_mem_append.mpr ⟨h.parameters, hdraft.parameters⟩
  · rw [hinputs]
    refine h.inputs.append hdraft.inputs fun k hk hk' => ?_
    exact hfresh k (List.mem_append_right _ hk) (List.mem_append_right _ hk')

/-- A merged extension leaves the types under their names, and the types that every schema has as
they are. -/
theorem NamedTypes.mergeExtension {types out : Keyed.Map TypeDraft} {file : String}
    {e : TypeExtension} (h : NamedTypes types) (hmerge : mergeExtension types file e = .ok out) :
    NamedTypes out := by
  obtain ⟨front, t, back, shape, rfl, -, hkind, hshape, rfl⟩ := mergeExtension_eq_ok.mp hmerge
  obtain ⟨hnodup, hfresh, rfl⟩ := (TypeDraft.extendedShape_eq_ok hkind).mp hshape
  obtain ⟨⟨hkeys, hnames⟩, hshapes, hbuiltin⟩ := h
  simp only [List.forall_mem_append, List.forall_mem_cons] at hkeys hshapes
  refine ⟨⟨?_, ?_⟩, ?_, ?_⟩
  · simp only [List.forall_mem_append, List.forall_mem_cons]
    exact hkeys
  · simpa [Keyed.names] using hnames
  · simp only [List.forall_mem_append, List.forall_mem_cons]
    exact ⟨hshapes.1, hshapes.2.1.joined hkind hnodup hfresh, hshapes.2.2⟩
  · -- The changed type comes behind the types that every schema has, for it has another kind.
    have hlater : (e.name, t) ∉ BuiltinScalar.all.map fun b => (b.name, b.draft) := by
      intro hmem
      obtain ⟨b, -, heq⟩ := List.mem_map.mp hmem
      obtain ⟨-, rfl⟩ := Prod.ext_iff.mp heq
      exact b.kind_draft_ne e.body hkind
    exact (Keyed.prefix_of_not_mem hbuiltin hlater).trans (List.prefix_append _ _)

namespace Builder

/-- The states of a builder while it loads: it sets out for a source, and it takes in one
definition after the other. -/
inductive Reached : Builder → Prop where
  | initial : Reached .initial
  | source {b : Builder} (file : Option String) : Reached b → Reached (b.sourceName file).2
  | add {b c : Builder} (file : String) (d : Definition) :
    Reached b → b.add file d = .ok c → Reached c

/-- Types stand under their names, and a location is kept for each of them. -/
structure Named (b : Builder) : Prop where
  locations : Keyed.names b.locations = Keyed.names b.types
  types : NamedTypes b.types

variable {b c : Builder} {file : String}

theorem Named.initial : Builder.initial.Named where
  locations := rfl
  types := by
    refine ⟨⟨by decide, by decide⟩, ?_, List.prefix_rfl⟩
    simp only [Builder.initial, List.forall_mem_map]
    exact fun b _ => ⟨.nil, List.forall_mem_nil _, List.forall_mem_nil _, .nil⟩

/-- One definition leaves everything under its name. -/
theorem Named.add {d : Definition} (h : b.Named) (hadd : b.add file d = .ok c) : c.Named := by
  cases d with
  | schema position query =>
    cases query with
    | none =>
      obtain rfl := Except.ok.inj hadd
      exact h
    | some type =>
      obtain ⟨-, rfl⟩ := add_query_eq_ok.mp hadd
      exact ⟨h.locations, h.types⟩
  | type d =>
    obtain ⟨hmembers, -, hfree, rfl⟩ := add_type_eq_ok.mp hadd
    have hfreeType : d.name ∉ Keyed.names b.types := h.locations ▸ hfree
    obtain ⟨hlocations, hkeys, hshapes, hbuiltin⟩ := h
    refine ⟨?_, ?_, ?_, ?_⟩
    · simp only [Keyed.insert_of_not_mem hfree, Keyed.insert_of_not_mem hfreeType]
      simp only [Keyed.names, List.map_append] at hlocations ⊢
      rw [hlocations]
      rfl
    all_goals simp only [Keyed.insert_of_not_mem hfreeType]
    · refine hkeys.append ⟨by simp, by simp [Keyed.names]⟩ ?_
      simpa [Keyed.names] using hfreeType
    · exact List.forall_mem_append.mpr
        ⟨hshapes, List.forall_mem_singleton.mpr (d.body.named_draft hmembers)⟩
    · exact hbuiltin.trans (List.prefix_append _ _)
  | extension e =>
    obtain rfl := Except.ok.inj hadd
    exact ⟨h.locations, h.types⟩
  | directive =>
    obtain rfl := Except.ok.inj hadd
    exact h

theorem Reached.named (h : b.Reached) : b.Named := by
  induction h with
  | initial => exact .initial
  | source file _ ih =>
    cases file with
    | none => exact ⟨ih.locations, ih.types⟩
    | some file => exact ih
  | add file d _ hadd ih => exact ih.add hadd

theorem Reached.addAll {ds : List Definition} (h : b.Reached) (hadd : b.addAll file ds = .ok c) :
    c.Reached :=
  foldlM_keeps hadd h fun d _ _ _ hb => hb.add file d

theorem Reached.load {s : Source} (h : b.Reached) (hload : b.load s = .ok c) : c.Reached := by
  obtain ⟨ds, hds⟩ := exists_definitions_of_load hload
  obtain ⟨file, heq⟩ := load_eq hds
  exact (h.source file).addAll (heq.symm.trans hload)

/-- Loading goes through states that are reached from one definition to the next. -/
theorem Loaded.reached (h : b.Loaded) : b.Reached := by
  induction h with
  | initial => exact .initial
  | text file text _ hload ih => exact ih.load (s := .text file text) hload
  | file path found _ hload ih => exact ih.load (s := .file path found) hload

end Builder

/-- While sources are loaded, the same names have locations and types. Everything in the schema that
is built stands under its name. -/
theorem namedTypes_of_build {b : Builder} {s : Schema} (h : b.Loaded) (hbuild : b.build = .ok s) :
    (∀ c : Builder, c.Reached → Keyed.names c.locations = Keyed.names c.types) ∧
      ∃ types, b.mergedTypes = .ok types ∧ s.types = types.map (fun t => t.2.finish) ∧
        NamedTypes types := by
  refine ⟨fun c hc => hc.named.locations, ?_⟩
  obtain ⟨types, hmerged, hschema⟩ := bind_eq_ok.mp hbuild
  obtain rfl := Except.ok.inj hschema
  refine ⟨types, hmerged, rfl, ?_⟩
  exact foldlM_keeps hmerged h.reached.named.types fun e _ _ _ htypes hmerge =>
    htypes.mergeExtension hmerge

private def extendedText : String :=
  "extend interface Node \x7b made(in: ID, in: Int): ID \x7d interface Node \x7b id: ID! \x7d"

theorem namedTypes_of_build_extended :
    ∃ (b : Builder) (s : Schema), b.Loaded ∧ b.build = .ok s ∧
      (∀ c : Builder, c.Reached → Keyed.names c.locations = Keyed.names c.types) ∧
        ∃ types, b.mergedTypes = .ok types ∧ s.types = types.map (fun t => t.2.finish) ∧
          NamedTypes types := by
  have hrun : (Builder.initial.loadText none extendedText).toOption.any (fun b =>
      b.build.toOption.any fun s => s.types.length == 6) = true := by
    decide +kernel
  obtain ⟨b, hload, hrun⟩ := exists_of_toOption_any hrun
  obtain ⟨s, hbuild, -⟩ := exists_of_toOption_any hrun
  have hloaded : b.Loaded := .text none extendedText .initial hload
  exact ⟨b, s, hloaded, hbuild, namedTypes_of_build hloaded hbuild⟩

end Schema

end QueryCraft
