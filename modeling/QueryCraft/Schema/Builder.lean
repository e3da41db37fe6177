import QueryCraft.FileTree
import QueryCraft.Schema.Draft
import QueryCraft.Schema.Error
import QueryCraft.Schema.Parser

/-!
Building a schema from definitions in any number of sources. Types are declared as they come; the
extensions are merged when everything is loaded, so one may come before the type it extends.
-/

namespace QueryCraft.Schema

/-- What has been loaded so far: the types, and where each name is defined. -/
structure Builder where
  locations : Keyed.Map Location
  types : Keyed.Map TypeDraft
  extensions : List (String × TypeExtension)
  query : Option (String × Location)
  unnamedSources : UInt16

def Builder.initial : Builder where
  locations := BuiltinScalar.all.map fun b => (b.name, .builtin)
  types := BuiltinScalar.all.map fun b => (b.name, b.draft)
  extensions := []
  query := none
  unnamedSources := 0

/-- What a type declares under a name of its own. -/
structure Member (α : Type) where
  position : Position
  name : String
  content : α

def FieldDefinition.member (parent : String) (d : FieldDefinition) : Member FieldDraft :=
  ⟨d.position, d.name, .ofDefinition parent d⟩

def InputField.member (f : InputField) : Member Parameter :=
  ⟨f.position, f.parameter.name, f.parameter⟩

/-- Adds members to those that a type has already; none may repeat a name. -/
def addMembers {α : Type} (file type : String) : Keyed.Map α → List (Member α) →
    Except BuildError (Keyed.Map α)
  | ms, [] => .ok ms
  | ms, m :: rest =>
    if ms.any (·.1 == m.name) then
      .error (.duplicateField type m.name (.source file m.position))
    else
      addMembers file type (Keyed.insert m.name m.content ms) rest

/-- The shape that the body of a definition describes. -/
def ShapeDraft.ofBody (file type : String) : Body → Except BuildError ShapeDraft
  | .scalar => .ok .scalar
  | .object interfaces fields =>
    (addMembers file type [] (fields.map (·.member type))).map (.object interfaces)
  | .interface interfaces fields =>
    (addMembers file type [] (fields.map (·.member type))).map (.interface interfaces)
  | .union members => .ok (.union members)
  | .enum values => .ok (.enum values)
  | .input fields => (addMembers file type [] (fields.map InputField.member)).map .input

/-- The shape of a type with what an extension of its kind adds. The interfaces of an interface and
the directives of a scalar are not added. -/
def TypeDraft.extendedShape (file : String) (t : TypeDraft) (e : TypeExtension) :
    Except BuildError ShapeDraft :=
  match t.shape, e.body with
  | .object interfaces fields, .object moreInterfaces moreFields =>
    (addMembers file t.name fields (moreFields.map (·.member t.name))).map
      (.object (interfaces ++ moreInterfaces))
  | .interface interfaces fields, .interface _ moreFields =>
    (addMembers file t.name fields (moreFields.map (·.member t.name))).map (.interface interfaces)
  | .union members, .union more => .ok (.union (members ++ more))
  | .enum values, .enum more => .ok (.enum (values ++ more))
  | .input fields, .input more =>
    (addMembers file e.name fields (more.map InputField.member)).map .input
  | shape, _ => .ok shape

def isReserved (name : String) : Bool :=
  ['_', '_'].isPrefixOf name.toList

namespace Builder

/-- Declares a type under a name that is neither taken nor reserved. -/
def declare (b : Builder) (name : String) (t : TypeDraft) (location : Location) :
    Except BuildError Builder :=
  if isReserved name then .error (.reservedName name location)
  else
    match b.locations.lookup name with
    | some first => .error (.duplicateType name first location)
    | none =>
      .ok { b with
        locations := Keyed.insert name location b.locations
        types := Keyed.insert name t b.types }

/-- Takes in one definition of a source. -/
def add (file : String) (b : Builder) : Definition → Except BuildError Builder
  | .schema _ none => .ok b
  | .schema position (some type) =>
    match b.query with
    | some (first, firstAt) =>
      .error (.duplicateQueryType first firstAt type (.source file position))
    | none => .ok { b with query := some (type, .source file position) }
  | .type d => do
    let shape ← ShapeDraft.ofBody file d.name d.body
    b.declare d.name ⟨d.name, d.description, shape⟩ (.source file d.position)
  | .extension e => .ok { b with extensions := b.extensions ++ [(file, e)] }
  | .directive => .ok b

def addAll (file : String) (b : Builder) (ds : List Definition) : Except BuildError Builder :=
  ds.foldlM (add file) b

/-- The name of a source, and the builder that knows how many sources had none of their own. Their
count starts again behind the greatest number. -/
def sourceName (b : Builder) : Option String → String × Builder
  | some file => (file, b)
  | none =>
    ("str://" ++ String.ofList (Number.natDigits b.unnamedSources.toNat),
      { b with unnamedSources := b.unnamedSources + 1 })

/-- Loads a source from its text. -/
def loadText (b : Builder) (file : Option String) (text : String) : Except BuildError Builder :=
  let (name, b) := b.sourceName file
  match definitions? text with
  | none => .error (.malformed name)
  | some ds => b.addAll name ds

/-- Loads the file that a path leads to. -/
def loadFile (b : Builder) (path : String) (found : Lookup) : Except BuildError Builder :=
  match found with
  | .ok (.file content) =>
    match String.fromUTF8? content with
    | some text => b.loadText (some path) text
    | none => .error (.unreadable (.notUtf8 path))
  | _ => .error (.unreadable (.notFile path))

end Builder

/-- Merges an extension into the types. -/
def mergeExtension (types : Keyed.Map TypeDraft) (file : String) (e : TypeExtension) :
    Except BuildError (Keyed.Map TypeDraft) :=
  match types with
  | [] => .error (.undefinedExtension e.name (.source file e.position))
  | (name, t) :: ts =>
    if name = e.name then
      if t.shape.kind = e.body.kind then
        (t.extendedShape file e).map fun shape => (name, { t with shape }) :: ts
      else
        .error (.invalidExtension e.name t.shape.kind e.body.kind (.source file e.position))
    else
      (mergeExtension ts file e).map ((name, t) :: ·)

/-- The type named `Query` is where queries start if no schema block says otherwise and it is an
object. -/
def defaultQuery (types : Keyed.Map TypeDraft) : Option String :=
  match types.lookup "Query" with
  | some ⟨_, _, .object ..⟩ => some "Query"
  | _ => none

/-- The types with all extensions merged, in the order in which they were loaded. -/
def Builder.mergedTypes (b : Builder) : Except BuildError (Keyed.Map TypeDraft) :=
  b.extensions.foldlM (fun types (file, e) => mergeExtension types file e) b.types

/-- Merges the extensions and settles the query type. -/
def Builder.build (b : Builder) : Except BuildError Schema := do
  let types ← b.mergedTypes
  .ok ⟨(b.query.map Prod.fst).or (defaultQuery types), types.map fun t => t.2.finish⟩

end QueryCraft.Schema
