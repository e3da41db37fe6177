import QueryCraft.Keyed
import QueryCraft.Schema

/-!
Types while sources are loaded. Fields, their parameters and input fields are kept in maps under
their names; a schema lists what the maps hold.
-/

namespace QueryCraft.Schema

/-- A field of an object or interface with its parameters in a map. -/
structure FieldDraft where
  name : String
  parent : String
  type : TypeRef
  parameters : Keyed.Map Parameter

inductive ShapeDraft where
  | builtin (scalar : BuiltinScalar)
  | scalar
  | object (interfaces : List String) (fields : Keyed.Map FieldDraft)
  | interface (interfaces : List String) (fields : Keyed.Map FieldDraft)
  | union (members : List String)
  | enum (values : List String)
  | input (fields : Keyed.Map Parameter)

structure TypeDraft where
  name : String
  description : Option String
  shape : ShapeDraft

/-- A repeated parameter keeps its first place and its last definition. -/
def FieldDraft.ofDefinition (parent : String) (d : FieldDefinition) : FieldDraft :=
  ⟨d.name, parent, d.type, Keyed.ofList Prod.fst (d.parameters.map fun p => (p.name, p))⟩

def FieldDraft.finish (f : FieldDraft) : Field :=
  ⟨f.name, f.parent, f.type, f.parameters.map Prod.snd⟩

def ShapeDraft.finish : ShapeDraft → Shape
  | .builtin b => .builtin b
  | .scalar => .scalar
  | .object interfaces fields => .object interfaces (fields.map fun f => f.2.finish)
  | .interface interfaces fields => .interface interfaces (fields.map fun f => f.2.finish)
  | .union members => .union members
  | .enum values => .enum values
  | .input fields => .input (fields.map Prod.snd)

def ShapeDraft.kind : ShapeDraft → TypeKind
  | .builtin b => .builtin b
  | .scalar => .scalar
  | .object .. => .object
  | .interface .. => .interface
  | .union _ => .union
  | .enum _ => .enum
  | .input _ => .input

/-- The type as a schema has it. -/
def TypeDraft.finish (t : TypeDraft) : NamedType :=
  ⟨t.name, t.description, t.shape.finish⟩

def BuiltinScalar.draft (b : BuiltinScalar) : TypeDraft :=
  ⟨b.name, none, .builtin b⟩

end QueryCraft.Schema
