import QueryCraft.Document
import QueryCraft.Json.Number
import QueryCraft.Json.Record
import QueryCraft.Keyed

/-!
The JSON form of documents.
-/

namespace QueryCraft

/-- Numbers that JSON has no text for become null. -/
def Json.ofFloat (x : Float) : Json :=
  if x.isFinite then .number (String.ofList (Number.FloatStyle.json.write x)) else .null

mutual

def Value.toJson : Value → Json
  | .null => .string "Null"
  | .boolean b => .object [("Boolean", .bool b)]
  | .int n => .object [("Int", .number (String.ofList (Number.intDigits n.toInt)))]
  | .float x => .object [("Float", Json.ofFloat x)]
  | .string text => .object [("String", .string text)]
  | .enum name => .object [("Enum", .string name)]
  | .var name => .object [("Variable", .string name)]
  | .list items => .object [("List", .array (Value.itemsToJson items))]
  | .object entries => .object [("Object", .object (Value.entriesToJson entries))]

def Value.itemsToJson : List Value → List Json
  | [] => []
  | v :: vs => Value.toJson v :: Value.itemsToJson vs

def Value.entriesToJson : List (String × Value) → List (String × Json)
  | [] => []
  | (key, v) :: es => (key, Value.toJson v) :: Value.entriesToJson es

end

def TypeRef.toJson : TypeRef → Json
  | .named name nullable =>
    .object [("Named", .object [("name", .string name), ("nullable", .bool nullable)])]
  | .list inner nullable =>
    .object [("List", .object [("inner", inner.toJson), ("nullable", .bool nullable)])]

def Argument.toJson (a : Argument) : Json :=
  .object [("name", .string a.name), ("value", a.value.toJson)]

def Directive.toJson (d : Directive) : Json :=
  .object [("arguments", .array (d.arguments.map Argument.toJson)), ("name", .string d.name)]

def VariableDefinition.toJson (d : VariableDefinition) : Json :=
  .object [("default_value", .ofOption Value.toJson d.default), ("name", .string d.name),
    ("type_annotation", d.type.toJson)]

def Verbatim.toJson (node : Verbatim) : Json :=
  .object [("kind", .string node.kind.name), ("source", .string node.source)]

/-- A field with the JSON form of its selection set. -/
def Field.toJson (f : Field) (selectionSet : Json) : Json :=
  .object [("alias", .ofOption .string f.aliasName),
    ("arguments", .array (f.arguments.map Argument.toJson)),
    ("directives", .array (f.directives.map Directive.toJson)),
    ("name", .string f.name), ("selection_set", selectionSet)]

mutual

def Selection.toJson : Selection → Json
  | .leaf f => .object [("Field", f.toJson .null)]
  | .branch f children =>
    .object [("Field", f.toJson (.object [("items", .array (Selection.listToJson children))]))]
  | .verbatim node => .object [("Unsupported", node.toJson)]

def Selection.listToJson : List Selection → List Json
  | [] => []
  | s :: ss => Selection.toJson s :: Selection.listToJson ss

end

def Operation.toJson (op : Operation) : Json :=
  .object [("directives", .array (op.directives.map Directive.toJson)),
    ("name", .ofOption .string op.name),
    ("selection_set", .object [("items", .array (Selection.listToJson op.selections))]),
    ("variables", .array (op.definitions.map VariableDefinition.toJson))]

def Document.toJson (d : Document) : Json :=
  .object [("auxiliary", .array (d.auxiliary.map Verbatim.toJson)),
    ("operation", d.operation.toJson)]

mutual

def Value.ofJson? : Json → Option Value
  | .string name => if name = "Null" then some .null else none
  | .object [(name, .array items)] =>
    if name = "List" then (Value.itemsOfJson? items).map .list else none
  | .object [(name, .object entries)] =>
    if name = "Object" then
      (Value.entriesOfJson? entries).map fun es => .object (Keyed.ofList Prod.fst es)
    else none
  | .object [(name, .string text)] =>
    if name = "String" then some (.string text)
    else if name = "Enum" then some (.enum text)
    else if name = "Variable" then some (.var text)
    else none
  | .object [(name, .bool b)] => if name = "Boolean" then some (.boolean b) else none
  | .object [(name, .number text)] =>
    if name = "Int" then (Json.toInt64? (.number text)).map .int
    else if name = "Float" then (Json.toFloat? (.number text)).map .float
    else none
  | .object [(name, .null)] => if name = "Null" then some .null else none
  | _ => none

def Value.itemsOfJson? : List Json → Option (List Value)
  | [] => some []
  | j :: js =>
    match Value.ofJson? j with
    | none => none
    | some v => (Value.itemsOfJson? js).map (v :: ·)

def Value.entriesOfJson? : List (String × Json) → Option (List (String × Value))
  | [] => some []
  | (key, j) :: es =>
    match Value.ofJson? j with
    | none => none
    | some v => (Value.entriesOfJson? es).map ((key, v) :: ·)

end

/-- The types within a JSON form nest at most as deep as its text is read. -/
def TypeRef.ofJsonWithin? : Nat → Json → Option TypeRef
  | 0, _ => none
  | depth + 1, j =>
    match Json.variant? j with
    | some ("Named", some fields) =>
      match Json.record ["name", "nullable"] fields with
      | some [name, nullable] => do some (.named (← name.toString?) (← nullable.toBool?))
      | _ => none
    | some ("List", some fields) =>
      match Json.record ["inner", "nullable"] fields with
      | some [inner, nullable] => do
        some (.list (← TypeRef.ofJsonWithin? depth inner) (← nullable.toBool?))
      | _ => none
    | _ => none

/-- The deepest JSON text that is read. -/
def jsonDepth : Nat := 128

def TypeRef.ofJson? (j : Json) : Option TypeRef :=
  TypeRef.ofJsonWithin? jsonDepth j

def Argument.ofJson? (j : Json) : Option Argument :=
  match Json.record ["name", "value"] j with
  | some [name, value] => do some ⟨← name.toString?, ← Value.ofJson? value⟩
  | _ => none

def Directive.ofJson? (j : Json) : Option Directive :=
  match Json.record ["arguments", "name"] j with
  | some [arguments, name] => do some ⟨← name.toString?, ← arguments.toList? Argument.ofJson?⟩
  | _ => none

def VariableDefinition.ofJson? (j : Json) : Option VariableDefinition :=
  match Json.record ["default_value", "name", "type_annotation"] j with
  | some [default, name, type] => do
    some ⟨← name.toString?, ← TypeRef.ofJson? type, ← default.nullable Value.ofJson?⟩
  | _ => none

def Verbatim.Kind.ofName? (name : String) : Option Verbatim.Kind :=
  Verbatim.Kind.all.find? (·.name == name)

def Verbatim.ofJson? (j : Json) : Option Verbatim :=
  match Json.record ["kind", "source"] j with
  | some [kind, source] => do
    some ⟨← Verbatim.Kind.ofName? (← Json.emptyVariant? kind), ← source.toString?⟩
  | _ => none

/-- A field and the JSON form of its selection set. -/
def Field.ofJson? (j : Json) : Option (Field × Json) :=
  match Json.record ["alias", "arguments", "directives", "name", "selection_set"] j with
  | some [aliasName, arguments, directives, name, selectionSet] => do
    some (⟨← aliasName.nullable Json.toString?, ← name.toString?,
      ← arguments.toList? Argument.ofJson?, ← directives.toList? Directive.ofJson?⟩, selectionSet)
  | _ => none

/-- A selection whose JSON form nests within the given depth. -/
def Selection.ofJsonWithin? : Nat → Json → Option Selection
  | 0, _ => none
  | depth + 1, j =>
    match Json.variant? j with
    | some ("Field", some fields) => do
      let (f, selectionSet) ← Field.ofJson? fields
      match selectionSet with
      | .null => some (.leaf f)
      | selectionSet =>
        match Json.record ["items"] selectionSet with
        | some [items] =>
          (items.toList? (Selection.ofJsonWithin? depth)).map fun children => .branch f children
        | _ => none
    | some ("Unsupported", some node) => (Verbatim.ofJson? node).map .verbatim
    | _ => none

def Selection.setOfJson? (j : Json) : Option (List Selection) :=
  match Json.record ["items"] j with
  | some [items] => items.toList? (Selection.ofJsonWithin? jsonDepth)
  | _ => none

def Operation.ofJson? (j : Json) : Option Operation :=
  match Json.record ["directives", "name", "selection_set", "variables"] j with
  | some [directives, name, selectionSet, definitions] => do
    some ⟨← name.nullable Json.toString?, ← definitions.toList? VariableDefinition.ofJson?,
      ← directives.toList? Directive.ofJson?, ← Selection.setOfJson? selectionSet⟩
  | _ => none

def Document.ofJson? (j : Json) : Option Document :=
  match Json.record ["auxiliary", "operation"] j with
  | some [auxiliary, operation] => do
    some ⟨← Operation.ofJson? operation, ← auxiliary.toList? Verbatim.ofJson?⟩
  | _ => none

end QueryCraft
