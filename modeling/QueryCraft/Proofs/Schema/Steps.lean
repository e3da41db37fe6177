import Mathlib.Data.List.Nodup
import QueryCraft.Proofs.Outcome
import QueryCraft.Schema.Builder

/-!
The steps of building a schema. Adding members to a type, declaring a type, taking in a definition
and merging an extension: for each, when it succeeds and what it makes.
-/

namespace QueryCraft.Schema

/-- Members are added if their names are new and different. They come behind those that are
there. -/
theorem addMembers_eq_ok {α : Type} {file type : String} {ms out : Keyed.Map α}
    {new : List (Member α)} :
    addMembers file type ms new = .ok out ↔
      (new.map Member.name).Nodup ∧ (∀ m ∈ new, m.name ∉ Keyed.names ms) ∧
        out = ms ++ new.map fun m => (m.name, m.content) := by
  induction new generalizing ms with
  | nil => simp [addMembers, eq_comm]
  | cons m rest ih =>
    unfold addMembers
    by_cases htaken : m.name ∈ Keyed.names ms
    · rw [if_pos (Keyed.any_name_eq_true_iff.mpr htaken)]
      simp [htaken]
    · have hnames : Keyed.names (ms ++ [(m.name, m.content)]) = Keyed.names ms ++ [m.name] := by
        simp [Keyed.names]
      rw [if_neg (Keyed.any_name_eq_true_iff.not.mpr htaken), Keyed.insert_of_not_mem htaken, ih,
        hnames]
      simp only [List.mem_append, List.mem_singleton, not_or, List.map_cons, List.nodup_cons,
        List.mem_map, List.forall_mem_cons, List.append_assoc, List.singleton_append]
      constructor
      · rintro ⟨hnodup, hfresh, rfl⟩
        refine ⟨⟨?_, hnodup⟩, ⟨htaken, fun n hn => (hfresh n hn).1⟩, rfl⟩
        rintro ⟨n, hn, heq⟩
        exact (hfresh n hn).2 heq
      · rintro ⟨⟨hself, hnodup⟩, ⟨-, hfresh⟩, rfl⟩
        exact ⟨hnodup, fun n hn => ⟨hfresh n hn, fun heq => hself ⟨n, hn, heq⟩⟩, rfl⟩

/-- The fields that can be selected on what a body defines. -/
def Body.fields : Body → List FieldDefinition
  | .object _ fields | .interface _ fields => fields
  | _ => []

/-- The fields of the input object that a body defines. -/
def Body.inputs : Body → List InputField
  | .input fields => fields
  | _ => []

/-- The names that must differ within a type. -/
def Body.memberNames (b : Body) : List String :=
  b.fields.map FieldDefinition.name ++ b.inputs.map fun f => f.parameter.name

def ShapeDraft.fields : ShapeDraft → Keyed.Map FieldDraft
  | .object _ fields | .interface _ fields => fields
  | _ => []

def ShapeDraft.inputs : ShapeDraft → Keyed.Map Parameter
  | .input fields => fields
  | _ => []

def ShapeDraft.memberNames (s : ShapeDraft) : List String :=
  Keyed.names s.fields ++ Keyed.names s.inputs

def fieldEntry (parent : String) (d : FieldDefinition) : String × FieldDraft :=
  (d.name, .ofDefinition parent d)

def inputEntry (f : InputField) : String × Parameter :=
  (f.parameter.name, f.parameter)

/-- The shape of a type with the body of a definition, whether or not its names differ. -/
def Body.draft (parent : String) : Body → ShapeDraft
  | .scalar => .scalar
  | .object interfaces fields => .object interfaces (fields.map (fieldEntry parent))
  | .interface interfaces fields => .interface interfaces (fields.map (fieldEntry parent))
  | .union members => .union members
  | .enum values => .enum values
  | .input fields => .input (fields.map inputEntry)

/-- The shape of a type with what an extension of its kind adds. -/
def ShapeDraft.joined (parent : String) : ShapeDraft → Body → ShapeDraft
  | .object interfaces fields, .object moreInterfaces moreFields =>
    .object (interfaces ++ moreInterfaces) (fields ++ moreFields.map (fieldEntry parent))
  | .interface interfaces fields, .interface _ moreFields =>
    .interface interfaces (fields ++ moreFields.map (fieldEntry parent))
  | .union members, .union more => .union (members ++ more)
  | .enum values, .enum more => .enum (values ++ more)
  | .input fields, .input more => .input (fields ++ more.map inputEntry)
  | shape, _ => shape

@[simp] theorem Body.fields_draft (parent : String) (b : Body) :
    (b.draft parent).fields = b.fields.map (fieldEntry parent) := by
  cases b <;> rfl

@[simp] theorem Body.inputs_draft (parent : String) (b : Body) :
    (b.draft parent).inputs = b.inputs.map inputEntry := by
  cases b <;> rfl

theorem Body.memberNames_draft (parent : String) (b : Body) :
    (b.draft parent).memberNames = b.memberNames := by
  simp [ShapeDraft.memberNames, memberNames, Keyed.names, fieldEntry, inputEntry, Function.comp_def]

@[simp] theorem Body.kind_draft (parent : String) (b : Body) : (b.draft parent).kind = b.kind := by
  cases b <;> rfl

/-- No definition or extension is about a type that every schema has. -/
theorem BuiltinScalar.kind_draft_ne (s : BuiltinScalar) (b : Body) :
    s.draft.shape.kind ≠ b.kind := by
  cases b <;> exact nofun

theorem ShapeDraft.fields_joined {parent : String} {s : ShapeDraft} {b : Body}
    (hkind : s.kind = b.kind) :
    (s.joined parent b).fields = s.fields ++ b.fields.map (fieldEntry parent) := by
  cases s <;> cases b <;> first | contradiction | simp [joined, fields, Body.fields]

theorem ShapeDraft.inputs_joined {parent : String} {s : ShapeDraft} {b : Body}
    (hkind : s.kind = b.kind) :
    (s.joined parent b).inputs = s.inputs ++ b.inputs.map inputEntry := by
  cases s <;> cases b <;> first | contradiction | simp [joined, inputs, Body.inputs]

theorem addFields_eq_ok {file type parent : String} {fields out : Keyed.Map FieldDraft}
    {ds : List FieldDefinition} :
    addMembers file type fields (ds.map (·.member parent)) = .ok out ↔
      (ds.map FieldDefinition.name).Nodup ∧ (∀ d ∈ ds, d.name ∉ Keyed.names fields) ∧
        out = fields ++ ds.map (fieldEntry parent) := by
  rw [addMembers_eq_ok, List.map_map, List.map_map, List.forall_mem_map]
  rfl

theorem addInputs_eq_ok {file type : String} {inputs out : Keyed.Map Parameter}
    {fs : List InputField} :
    addMembers file type inputs (fs.map InputField.member) = .ok out ↔
      (fs.map fun f => f.parameter.name).Nodup ∧
        (∀ f ∈ fs, f.parameter.name ∉ Keyed.names inputs) ∧
          out = inputs ++ fs.map inputEntry := by
  rw [addMembers_eq_ok, List.map_map, List.map_map, List.forall_mem_map]
  rfl

theorem ShapeDraft.ofBody_eq_ok {file type : String} {body : Body} {shape : ShapeDraft} :
    ofBody file type body = .ok shape ↔ body.memberNames.Nodup ∧ shape = body.draft type := by
  cases body <;>
    simp [ofBody, map_eq_ok, addFields_eq_ok, addInputs_eq_ok, Body.draft, Body.memberNames,
      Body.fields, Body.inputs, Keyed.names, @eq_comm _ _ shape]

/-- An extension of a type's kind is merged if the names that it adds are new and different. -/
theorem TypeDraft.extendedShape_eq_ok {file : String} {t : TypeDraft} {e : TypeExtension}
    {shape : ShapeDraft} (hkind : t.shape.kind = e.body.kind) :
    t.extendedShape file e = .ok shape ↔
      e.body.memberNames.Nodup ∧ (∀ n ∈ e.body.memberNames, n ∉ t.shape.memberNames) ∧
        shape = t.shape.joined t.name e.body := by
  obtain ⟨name, description, s⟩ := t
  obtain ⟨position, type, body⟩ := e
  cases s <;> cases body <;>
    simp_all [ShapeDraft.kind, Body.kind, extendedShape, map_eq_ok, addFields_eq_ok,
      addInputs_eq_ok, ShapeDraft.joined, Body.memberNames, Body.fields, Body.inputs,
      ShapeDraft.memberNames, ShapeDraft.fields, ShapeDraft.inputs, Keyed.names,
      @eq_comm _ _ shape, and_assoc]

/-- An extension is merged into the first type with its name. -/
theorem mergeExtension_eq_ok {types out : Keyed.Map TypeDraft} {file : String}
    {e : TypeExtension} :
    mergeExtension types file e = .ok out ↔
      ∃ front t back shape, types = front ++ (e.name, t) :: back ∧ e.name ∉ Keyed.names front ∧
        t.shape.kind = e.body.kind ∧ t.extendedShape file e = .ok shape ∧
          out = front ++ (e.name, { t with shape }) :: back := by
  induction types generalizing out with
  | nil => simp [mergeExtension]
  | cons entry ts ih =>
    obtain ⟨name, t⟩ := entry
    unfold mergeExtension
    by_cases hname : name = e.name
    · rw [if_pos hname]
      constructor
      · intro h
        split at h
        · next hkind =>
          obtain ⟨shape, hshape, rfl⟩ := map_eq_ok.mp h
          exact ⟨[], t, ts, shape, by simp [hname], by simp [Keyed.names], hkind, hshape,
            by simp [hname]⟩
        · contradiction
      · rintro ⟨front, u, back, shape, heq, hfront, hkind, hshape, rfl⟩
        cases front with
        | nil =>
          obtain ⟨⟨-, rfl⟩, rfl⟩ := by simpa using heq
          rw [if_pos hkind, hshape, hname]
          rfl
        | cons first front =>
          obtain ⟨rfl, -⟩ := List.cons.inj heq
          simp [Keyed.names, hname] at hfront
    · rw [if_neg hname, map_eq_ok]
      simp only [ih]
      constructor
      · rintro ⟨ts', ⟨front, u, back, shape, rfl, hfront, hkind, hshape, rfl⟩, rfl⟩
        refine ⟨(name, t) :: front, u, back, shape, rfl, ?_, hkind, hshape, rfl⟩
        simpa [Keyed.names, Ne.symm hname] using hfront
      · rintro ⟨front, u, back, shape, heq, hfront, hkind, hshape, rfl⟩
        cases front with
        | nil =>
          obtain ⟨⟨rfl, -⟩, -⟩ := by simpa using heq
          contradiction
        | cons first front =>
          obtain ⟨rfl, rfl⟩ := List.cons.inj heq
          refine ⟨_, ⟨front, u, back, shape, rfl, ?_, hkind, hshape, rfl⟩, rfl⟩
          exact fun hmem => hfront (List.mem_cons_of_mem _ hmem)

namespace Builder

variable {b c : Builder} {file : String}

/-- A type is declared if its name is neither reserved nor taken. -/
theorem declare_eq_ok {name : String} {t : TypeDraft} {location : Location} :
    b.declare name t location = .ok c ↔
      isReserved name = false ∧ name ∉ Keyed.names b.locations ∧
        c = { b with
          locations := Keyed.insert name location b.locations
          types := Keyed.insert name t b.types } := by
  unfold declare
  by_cases hreserved : isReserved name = true
  · simp [hreserved]
  · cases hlookup : b.locations.lookup name with
    | none => simp [hreserved, Keyed.lookup_eq_none_iff.mp hlookup, eq_comm]
    | some first =>
      have htaken : name ∈ Keyed.names b.locations := by
        by_contra hfree
        rw [Keyed.lookup_eq_none_iff.mpr hfree] at hlookup
        contradiction
      simp [hreserved, htaken]

theorem add_type_eq_ok {d : TypeDefinition} :
    b.add file (.type d) = .ok c ↔
      d.body.memberNames.Nodup ∧ isReserved d.name = false ∧
        d.name ∉ Keyed.names b.locations ∧
        c = { b with
          locations := Keyed.insert d.name (.source file d.position) b.locations
          types := Keyed.insert d.name ⟨d.name, d.description, d.body.draft d.name⟩ b.types } := by
  simp only [add, bind_eq_ok, ShapeDraft.ofBody_eq_ok, declare_eq_ok]
  constructor
  · rintro ⟨shape, ⟨hnodup, rfl⟩, hreserved, hfree, rfl⟩
    exact ⟨hnodup, hreserved, hfree, rfl⟩
  · rintro ⟨hnodup, hreserved, hfree, rfl⟩
    exact ⟨_, ⟨hnodup, rfl⟩, hreserved, hfree, rfl⟩

theorem add_query_eq_ok {position : Position} {type : String} :
    b.add file (.schema position (some type)) = .ok c ↔
      b.query = none ∧ c = { b with query := some (type, .source file position) } := by
  unfold add
  cases b.query <;> simp [eq_comm]

end Builder

end QueryCraft.Schema
