import QueryCraft.Document.Json
import QueryCraft.Document.Printer
import QueryCraft.Proofs.Synthesis.Ending
import QueryCraft.Synthesis.Error

/-!
Synthesis of a query that selects everything below a field of the query type.
-/

namespace QueryCraft

structure SynthesizedQuery where
  indent : Nat
  operationName : Option String
  root : SelectionTree
  definitions : List VariableDefinition

def SynthesizedQuery.toDocument (q : SynthesizedQuery) : Document where
  operation := ⟨q.operationName, q.definitions, [], [q.root.toSelection]⟩
  auxiliary := []

def SynthesizedQuery.print? (q : SynthesizedQuery) : Option String :=
  q.toDocument.print? q.indent

namespace Synthesis

def Config.default : Config :=
  ⟨false, none, none, defaultIndent⟩

/-- The query for a field that queries can start from. The loop over the arena always ends, and
there is always a result. -/
def ofField (s : Schema) (config : Config) (field : Schema.Field) :
    Except Schema.LookupError SynthesizedQuery :=
  let result := (run? s config field (ends_start s config field)).get (isSome_run? s config field)
  result.map fun (root, definitions) =>
    ⟨config.indent, config.operationName, root, definitions⟩

end Synthesis

open Synthesis in
/-- The query for the field of the query type with the given name. -/
def Schema.synthesize (s : Schema) (config : Config) (name : String) :
    Except SynthesisError SynthesizedQuery :=
  match s.rootFields with
  | .error e => .error (.schema e)
  | .ok fields =>
    match fields.find? (·.name == name) with
    | none => .error (.unknownRootField name (fields.map Field.name))
    | some field => (ofField s config field).mapError .schema

open Synthesis in
/-- The queries for all fields of the query type, with their names, in order. -/
def Schema.synthesizeAll (s : Schema) (config : Config) :
    Except SynthesisError (List (String × SynthesizedQuery)) := do
  let fields ← s.rootFields.mapError .schema
  fields.mapM fun field => do
    let query ← s.synthesize config field.name
    pure (field.name, query)

/-- A field with the JSON form of its children. -/
def TreeHead.toJson (h : TreeHead) (children : Json) (truncated : Bool) : Json :=
  .object [("arguments", .array (h.arguments.map Argument.toJson)), ("children", children),
    ("name", .string h.name), ("truncated", .bool truncated)]

mutual

def SelectionTree.toJson : SelectionTree → Json
  | .leaf h => h.toJson .null false
  | .truncated h => h.toJson .null true
  | .node h children => h.toJson (.array (SelectionTree.listToJson children)) false

def SelectionTree.listToJson : List SelectionTree → List Json
  | [] => []
  | t :: ts => SelectionTree.toJson t :: SelectionTree.listToJson ts

end

def SynthesizedQuery.toJson (q : SynthesizedQuery) : Json :=
  .object [("indent", .nat q.indent), ("operation_name", .ofOption .string q.operationName),
    ("root", q.root.toJson), ("variables", .array (q.definitions.map VariableDefinition.toJson))]

end QueryCraft
