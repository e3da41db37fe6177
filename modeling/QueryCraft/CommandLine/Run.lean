import QueryCraft.CommandLine.Command
import QueryCraft.Edit
import QueryCraft.Schema.Builder
import QueryCraft.Synthesis

/-!
Running a command on files, given what each path leads to.
-/

namespace QueryCraft.CommandLine

/-- What the paths of a command line lead to. -/
abbrev Files : Type := String → Lookup

/-- Why a command fails. -/
inductive Failure where
  | scan (path : String) (cause : PathError)
  | noSchemaFiles
  | build (cause : Schema.BuildError)
  | synthesis (cause : SynthesisError)
  | readQuery (path cause : String)
  | parseQuery (path : String) (cause : EditError)
  | assignment (cause : AssignmentError)
  | edit (cause : EditError)

/-- The message of an error in a document, and of what caused it. -/
def editMessages : EditError → List String
  | .invalidDocument cause => [(EditError.invalidDocument cause).message, cause.message]
  | e => [e.message]

/-- The message of a failure, then those of its causes. -/
def Failure.messages : Failure → List String
  | .scan path cause =>
    ["Failed to scan schema files at/under " ++ path,
      "IO error for operation on " ++ path ++ ": " ++ cause.message, cause.message]
  | .noSchemaFiles => ["No GraphQL schema files found"]
  | .build cause => [cause.message]
  | .synthesis cause => [cause.message]
  | .readQuery path cause => ["Failed to read " ++ path, cause]
  | .parseQuery path cause => ("Failed to parse " ++ path) :: editMessages cause
  | .assignment cause => [cause.message]
  | .edit cause => editMessages cause

/-- A cross and the message, and a line for each cause. -/
def Failure.text (f : Failure) : String :=
  "\n  caused by: ".intercalate <|
    match f.messages with
    | [] => ["✘ "]
    | message :: causes => ("✘ " ++ message) :: causes

/-- The extensions to look for, without points in front. -/
def SchemaOptions.wantedExtensions (o : SchemaOptions) : List String :=
  o.extensions.map fun e => String.ofList (e.toList.dropWhile (· == '.'))

def hasExtension (wanted : List String) (path : String) : Bool :=
  (fileExtension? path).any wanted.contains

/-- The files at or below a path that have one of the wanted extensions. -/
def filesAt (files : Files) (wanted : List String) (path : String) :
    Except Failure (List (String × ByteArray)) :=
  match files path with
  | .error cause => .error (.scan path cause)
  | .ok tree => .ok ((tree.files path).filter fun f => hasExtension wanted f.1)

/-- The schema files in order. A file that is the only path is taken whatever its extension. -/
def schemaFiles (files : Files) (o : SchemaOptions) : Except Failure (List (String × ByteArray)) := do
  let found ← o.paths.mapM (filesAt files o.wantedExtensions)
  match found.flatten, o.paths with
  | [], [path] =>
    match files path with
    | .ok (.file content) => .ok [(path, content)]
    | _ => .error .noSchemaFiles
  | [], _ => .error .noSchemaFiles
  | fs, _ => .ok fs

def loadSchema (files : Files) (o : SchemaOptions) : Except Failure Schema := do
  let found ← schemaFiles files o
  let builder ← (found.foldlM (fun (b : Schema.Builder) (path, content) =>
    b.loadFile path (.ok (.file content))) .initial).mapError .build
  builder.build.mapError .build

/-- A field with its parameters and its type. -/
def signature (f : Schema.Field) : String :=
  let parameter (p : Schema.Parameter) : List Char :=
    p.name.toList ++ ':' :: ' ' :: (p.type.chars ++ match p.default with
      | none => []
      | some v => ' ' :: '=' :: ' ' :: v.chars)
  let parameters := match f.parameters with
    | [] => []
    | ps => '(' :: (Text.join [',', ' '] (ps.map parameter) ++ [')'])
  String.ofList (f.name.toList ++ (parameters ++ ':' :: ' ' :: f.type.chars))

def listFields (files : Files) (o : SchemaOptions) : Except Failure String := do
  let schema ← loadSchema files o
  let fields ← schema.rootFields.mapError fun e => .synthesis (.schema e)
  .ok ("\n".intercalate (fields.map signature))

/-- The edit that an assignment stands for. -/
def assign (policy : EmptyPolicy) (d : Document) (assignment : String) : Except Failure Document := do
  let (name, raw) ← (parseAssignment assignment).mapError .assignment
  ((Edit.argumentText name raw).apply policy d).mapError .edit

def EditOptions.selection (o : EditOptions) : Option Edit :=
  match o.selected, o.path with
  | none, _ => none
  | some names, none => some (.select names)
  | some names, some path => some (.selectAt path names)

def EditOptions.apply (o : EditOptions) (d : Document) : Except Failure Document := do
  let d ← match o.selection with
    | none => .ok d
    | some edit => (edit.apply o.policy d).mapError .edit
  o.assignments.foldlM (assign o.policy) d

def trimEnd (text : String) : String :=
  String.ofList (Text.trimEnd text.toList)

/-- What a command comes to; one that would print too wide a margin is broken off. -/
abbrev Run : Type → Type := ExceptT Failure Option

/-- A query with its text after the edits. -/
def queryJson (field : String) (query : SynthesizedQuery) (text : String) : Json :=
  .object [("field", .string field), ("query", .string text), ("synthesized", query.toJson)]

def synthesizeQueries (schema : Schema) (field : Option String) (config : Synthesis.Config) :
    Except SynthesisError (List (String × SynthesizedQuery)) :=
  match field with
  | some name => do
    let query ← schema.synthesize config name
    pure [(name, query)]
  | none => schema.synthesizeAll config

def loadQueries (files : Files) (o : SchemaOptions) (field : Option String)
    (config : Synthesis.Config) : Except Failure (List (String × SynthesizedQuery)) := do
  let schema ← loadSchema files o
  (synthesizeQueries schema field config).mapError .synthesis

def printQueries (files : Files) (o : SchemaOptions) (field : Option String) (config : Synthesis.Config)
    (edits : EditOptions) (json : Bool) : Run String := do
  let queries ← loadQueries files o field config
  let outputs ← queries.mapM fun (name, query) => do
    let d ← edits.apply query.toDocument
    let text ← d.print? config.indent
    pure (name, query, text)
  if json then
    match outputs with
    | [(name, query, text)] => pure (queryJson name query text).pretty
    | _ => pure (Json.array (outputs.map fun (name, query, text) => queryJson name query text)).pretty
  else
    pure ("\n\n".intercalate (outputs.map fun (_, _, text) => trimEnd text))

/-- The text of the file that holds a query. -/
def readQuery (files : Files) (path : String) : Except Failure String :=
  match files path with
  | .error cause => .error (.readQuery path cause.message)
  | .ok (.directory _) => .error (.readQuery path "Is a directory (os error 21)")
  | .ok (.file content) =>
    match String.fromUTF8? content with
    | some text => .ok text
    | none => .error (.readQuery path "stream did not contain valid UTF-8")

/-- The edit that sets the name of an operation; an empty name removes it. -/
def renameTo (name : String) : Edit :=
  let trimmed := Text.trim name.toList
  .rename (if trimmed.isEmpty then none else some (String.ofList trimmed))

def editedQuery (files : Files) (path : String) (edits : EditOptions)
    (operationName : Option String) : Except Failure Document := do
  let text ← readQuery files path
  let d ← (Document.parseToEdit text).mapError (.parseQuery path)
  let d ← edits.apply d
  match operationName with
  | none => .ok d
  | some name => ((renameTo name).apply edits.policy d).mapError .edit

def editQuery (files : Files) (path : String) (edits : EditOptions) (indent : Nat)
    (operationName : Option String) : Run String := do
  let d ← editedQuery files path edits operationName
  let text ← d.print? indent
  pure (trimEnd text)

def Command.run (files : Files) : Command → Run String
  | .fields schema => listFields files schema
  | .synthesize schema field config edits json => printQueries files schema field config edits json
  | .transform file edits indent operationName => editQuery files file edits indent operationName

/-- The paths that a command looks at. -/
def Command.paths : Command → List String
  | .fields schema | .synthesize schema .. => schema.paths
  | .transform file .. => [file]

end QueryCraft.CommandLine
