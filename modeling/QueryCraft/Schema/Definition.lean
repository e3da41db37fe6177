import QueryCraft.Field
import QueryCraft.Token.Position

/-!
Schema definitions as they are written: types, extensions of types, and the choice of the query
type.
-/

namespace QueryCraft.Schema

/-- An argument of a field, or a field of an input object. -/
structure Parameter where
  name : String
  type : TypeRef
  default : Option Value

structure FieldDefinition where
  position : Position
  name : String
  parameters : List Parameter
  type : TypeRef

structure InputField where
  position : Position
  parameter : Parameter

/-- What a type of each kind is made of. -/
inductive Body where
  | scalar
  | object (interfaces : List String) (fields : List FieldDefinition)
  | interface (interfaces : List String) (fields : List FieldDefinition)
  | union (members : List String)
  | enum (values : List String)
  | input (fields : List InputField)

structure TypeDefinition where
  position : Position
  description : Option String
  name : String
  body : Body

structure TypeExtension where
  position : Position
  name : String
  body : Body

/-- A schema block may name the query type. A definition of a directive says nothing about types. -/
inductive Definition where
  | schema (position : Position) (query : Option String)
  | type (definition : TypeDefinition)
  | extension (extension : TypeExtension)
  | directive

end QueryCraft.Schema
