import QueryCraft.Proofs.Schema.Naming
import QueryCraft.Proofs.Schema.Sources

/-!
The schemas that can be built. Whatever sources are loaded, and whatever extensions are merged, the
fields that can be selected are well formed.
-/

namespace QueryCraft.Schema

/-- A field that can be selected with all its arguments. -/
structure Field.Formed (f : Field) : Prop where
  name : Text.isName f.name = true
  parameters : ∀ p ∈ f.parameters, p.Formed

/-- A shape whose fields, if it has any to select, are well formed. -/
def Shape.Formed : Shape → Prop
  | .object _ fields | .interface _ fields => ∀ f ∈ fields, f.Formed
  | _ => True

/-- A draft whose fields, if it has any to select, are well formed. -/
def ShapeDraft.Formed (s : ShapeDraft) : Prop :=
  ∀ f ∈ s.fields, f.2.finish.Formed

theorem ShapeDraft.Formed.finish {s : ShapeDraft} (h : s.Formed) : s.finish.Formed := by
  cases s with
  | object interfaces fields | interface interfaces fields => exact List.forall_mem_map.mpr h
  | builtin b | scalar | union members | enum values | input fields => trivial

theorem Body.Formed.fields {b : Body} (h : b.Formed) : ∀ d ∈ b.fields, d.Formed := by
  cases b with
  | object interfaces fields | interface interfaces fields => exact h
  | scalar | union members | enum values | input fields => exact nofun

theorem FieldDefinition.Formed.finish {d : FieldDefinition} (h : d.Formed) (parent : String) :
    (fieldEntry parent d).2.finish.Formed := by
  refine ⟨h.name, List.forall_mem_map.mpr fun e he => ?_⟩
  obtain ⟨p, hp, rfl⟩ := List.mem_map.mp (Keyed.mem_of_mem_ofList he)
  exact h.parameters p hp

theorem Body.Formed.draft {b : Body} (h : b.Formed) (parent : String) :
    (b.draft parent).Formed := by
  rw [ShapeDraft.Formed, Body.fields_draft]
  exact List.forall_mem_map.mpr fun d hd => (h.fields d hd).finish parent

theorem ShapeDraft.Formed.joined {s : ShapeDraft} {b : Body} (h : s.Formed) (hb : b.Formed)
    (hkind : s.kind = b.kind) (parent : String) : (s.joined parent b).Formed := by
  rw [ShapeDraft.Formed, ShapeDraft.fields_joined hkind]
  refine List.forall_mem_append.mpr ⟨h, List.forall_mem_map.mpr fun d hd => ?_⟩
  exact (hb.fields d hd).finish parent

/-- What is loaded is well formed. -/
structure Builder.Formed (b : Builder) : Prop where
  types : ∀ t ∈ b.types, t.2.shape.Formed
  extensions : ∀ e ∈ b.extensions, e.2.body.Formed

namespace Builder.Formed

variable {b c : Builder} {file : String}

theorem initial : Builder.initial.Formed := by
  refine ⟨?_, nofun⟩
  simp only [Builder.initial, List.forall_mem_map]
  exact fun _ _ => nofun

/-- One definition keeps what is loaded well formed. -/
theorem add {d : Definition} (h : b.Formed) (hd : d.Formed) (hadd : b.add file d = .ok c) :
    c.Formed := by
  cases d with
  | schema position query =>
    cases query with
    | none =>
      obtain rfl := Except.ok.inj hadd
      exact h
    | some type =>
      obtain ⟨-, rfl⟩ := add_query_eq_ok.mp hadd
      exact ⟨h.types, h.extensions⟩
  | type d =>
    obtain ⟨-, -, -, rfl⟩ := add_type_eq_ok.mp hadd
    refine ⟨fun t ht => ?_, h.extensions⟩
    rcases Keyed.mem_upsert ht with rfl | ht
    · exact Body.Formed.draft hd d.name
    · exact h.types t ht
  | extension e =>
    obtain rfl := Except.ok.inj hadd
    refine ⟨h.types, ?_⟩
    rw [List.forall_mem_append]
    exact ⟨h.extensions, List.forall_mem_singleton.mpr hd⟩
  | directive =>
    obtain rfl := Except.ok.inj hadd
    exact h

theorem addAll {ds : List Definition} (h : b.Formed) (hds : ∀ d ∈ ds, d.Formed)
    (hadd : b.addAll file ds = .ok c) : c.Formed :=
  foldlM_keeps hadd h fun d hd _ _ hb => hb.add (hds d hd)

theorem load {s : Source} (h : b.Formed) (hload : b.load s = .ok c) : c.Formed := by
  obtain ⟨ds, hds⟩ := exists_definitions_of_load hload
  obtain ⟨file, heq⟩ := load_eq hds
  have hnamed : (b.sourceName file).2.Formed := by
    unfold Builder.sourceName
    split
    · exact h
    · exact ⟨h.types, h.extensions⟩
  obtain ⟨text, -, htext⟩ := Option.bind_eq_some_iff.mp hds
  exact hnamed.addAll (formed_of_definitions? htext) (heq.symm.trans hload)

end Builder.Formed

/-- The builders that are reached by loading sources, one after the other. -/
inductive Builder.Loaded : Builder → Prop where
  | initial : Loaded .initial
  | text {b c : Builder} (file : Option String) (text : String) :
    Loaded b → b.loadText file text = .ok c → Loaded c
  | file {b c : Builder} (path : String) (found : Lookup) :
    Loaded b → b.loadFile path found = .ok c → Loaded c

theorem Builder.Loaded.formed {b : Builder} (h : b.Loaded) : b.Formed := by
  induction h with
  | initial => exact .initial
  | text file text _ hload ih => exact ih.load (s := .text file text) hload
  | file path found _ hload ih => exact ih.load (s := .file path found) hload

/-- A schema that some sources build. -/
def IsBuilt (s : Schema) : Prop :=
  ∃ b : Builder, b.Loaded ∧ b.build = .ok s

/-- The schema that a single source without a file builds. -/
def ofText? (text : String) : Option Schema :=
  match Builder.initial.loadText none text with
  | .ok b => b.build.toOption
  | .error _ => none

theorem isBuilt_of_ofText? {text : String} {s : Schema} (h : ofText? text = some s) :
    s.IsBuilt := by
  unfold ofText? at h
  split at h
  · next b hload =>
    cases hbuild : b.build with
    | error e =>
      rw [hbuild] at h
      contradiction
    | ok s' =>
      rw [hbuild] at h
      obtain rfl := Option.some.inj h
      exact ⟨b, .text none text .initial hload, hbuild⟩
  · contradiction

theorem formed_of_mergeExtension {types out : Keyed.Map TypeDraft} {file : String}
    {e : TypeExtension} (h : mergeExtension types file e = .ok out)
    (htypes : ∀ t ∈ types, t.2.shape.Formed) (he : e.body.Formed) :
    ∀ t ∈ out, t.2.shape.Formed := by
  obtain ⟨front, t, back, shape, rfl, -, hkind, hshape, rfl⟩ := mergeExtension_eq_ok.mp h
  obtain ⟨-, -, rfl⟩ := (TypeDraft.extendedShape_eq_ok hkind).mp hshape
  simp only [List.forall_mem_append, List.forall_mem_cons] at htypes ⊢
  exact ⟨htypes.1, htypes.2.1.joined he hkind t.name, htypes.2.2⟩

/-- The fields that can be selected in a schema are well formed. -/
def Formed (s : Schema) : Prop :=
  ∀ t ∈ s.types, t.shape.Formed

theorem IsBuilt.formed {s : Schema} (h : s.IsBuilt) : s.Formed := by
  obtain ⟨b, hloaded, hbuild⟩ := h
  have hb := hloaded.formed
  obtain ⟨types, hmerge, hschema⟩ := bind_eq_ok.mp hbuild
  obtain rfl := Except.ok.inj hschema
  have htypes : ∀ t ∈ types, t.2.shape.Formed :=
    foldlM_keeps (P := fun types => ∀ t ∈ types, t.2.shape.Formed) hmerge hb.types
      fun e he _ _ htypes h => formed_of_mergeExtension h htypes (hb.extensions e he)
  exact List.forall_mem_map.mpr fun t ht => (htypes t ht).finish

end QueryCraft.Schema
