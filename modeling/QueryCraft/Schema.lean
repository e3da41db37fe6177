import QueryCraft.Schema.Definition

/-!
Schemas: the types of a service with their fields, and the type that queries start from.
-/

namespace QueryCraft

namespace Schema

/-- The scalars that every schema has. -/
inductive BuiltinScalar where
  | boolean
  | float
  | id
  | int
  | string
  deriving DecidableEq, Repr

def BuiltinScalar.name : BuiltinScalar → String
  | .boolean => "Boolean"
  | .float => "Float"
  | .id => "ID"
  | .int => "Int"
  | .string => "String"

def BuiltinScalar.all : List BuiltinScalar :=
  [.boolean, .float, .id, .int, .string]

/-- A field of an object or interface; `parent` is the type that declares it. -/
structure Field where
  name : String
  parent : String
  type : TypeRef
  parameters : List Parameter

inductive Shape where
  | builtin (scalar : BuiltinScalar)
  | scalar
  | object (interfaces : List String) (fields : List Field)
  | interface (interfaces : List String) (fields : List Field)
  | union (members : List String)
  | enum (values : List String)
  | input (fields : List Parameter)

structure NamedType where
  name : String
  description : Option String
  shape : Shape

inductive TypeKind where
  | builtin (scalar : BuiltinScalar)
  | scalar
  | object
  | interface
  | union
  | enum
  | input
  deriving DecidableEq, Repr

def TypeKind.name : TypeKind → String
  | .builtin b => b.name
  | .scalar => "Scalar"
  | .object => "Object"
  | .interface => "Interface"
  | .union => "Union"
  | .enum => "Enum"
  | .input => "InputObject"

def Shape.kind : Shape → TypeKind
  | .builtin b => .builtin b
  | .scalar => .scalar
  | .object .. => .object
  | .interface .. => .interface
  | .union _ => .union
  | .enum _ => .enum
  | .input _ => .input

/-- The kind of type that a definition or extension is about. -/
def Body.kind : Body → TypeKind
  | .scalar => .scalar
  | .object .. => .object
  | .interface .. => .interface
  | .union _ => .union
  | .enum _ => .enum
  | .input _ => .input

/-- The fields that can be selected on a type; none if it has none of its own. -/
def NamedType.fields? (t : NamedType) : Option (List Field) :=
  match t.shape with
  | .object _ fields | .interface _ fields => some fields
  | _ => none

/-- Whether a field of this type needs a selection set. -/
def NamedType.isComposite (t : NamedType) : Bool :=
  match t.shape with
  | .object .. | .interface .. | .union _ => true
  | _ => false

/-- Whether a field of this type ends a selection. -/
def NamedType.isLeaf (t : NamedType) : Bool :=
  match t.shape with
  | .builtin _ | .scalar | .enum _ => true
  | _ => false

def builtinTypes : List NamedType :=
  BuiltinScalar.all.map fun b => ⟨b.name, none, .builtin b⟩

end Schema

/-- A schema; `query` names the type that queries start from. -/
structure Schema where
  query : Option String
  types : List Schema.NamedType

namespace Schema

inductive LookupError where
  | invalidFieldType (field parent type : String)
  | noFields (type : String) (kind : TypeKind)
  | noRootType
  | unknownType (type : String)
  deriving DecidableEq, Repr

def LookupError.message : LookupError → String
  | .invalidFieldType field parent type =>
    "The `" ++ field ++ "` field on `" ++ parent ++ "` returns `" ++ type ++
      "`, which is not a type defined in the schema"
  | .noFields type kind => "The `" ++ type ++ "` type is a " ++ kind.name ++ " type and has no fields"
  | .noRootType => "The schema does not define a root Query type"
  | .unknownType type => "No type named `" ++ type ++ "` is defined in the schema"

def find? (s : Schema) (name : String) : Option NamedType :=
  s.types.find? (·.name == name)

def typeOf (s : Schema) (name : String) : Except LookupError NamedType :=
  match s.find? name with
  | some t => .ok t
  | none => .error (.unknownType name)

/-- The fields declared on the object or interface with the given name. -/
def fieldsOf (s : Schema) (name : String) : Except LookupError (List Field) := do
  let t ← s.typeOf name
  match t.fields? with
  | some fields => .ok fields
  | none => .error (.noFields name t.shape.kind)

def isComposite (s : Schema) (name : String) : Bool :=
  (s.find? name).any NamedType.isComposite

/-- The type that a field returns, without lists. -/
def returnType (s : Schema) (f : Field) : Except LookupError NamedType :=
  match s.find? f.type.innermost with
  | some t => .ok t
  | none => .error (.invalidFieldType f.name f.parent f.type.innermost)

/-- The fields of the query type. -/
def rootFields (s : Schema) : Except LookupError (List Field) :=
  match s.query.bind s.find? with
  | some ⟨_, _, .object _ fields⟩ => .ok fields
  | _ => .error .noRootType

end Schema

end QueryCraft
