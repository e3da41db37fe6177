import QueryCraft.CommandLine.Options
import QueryCraft.Document.Printer
import QueryCraft.Edit.Selecting
import QueryCraft.Synthesis.Arena
import QueryCraft.Text.Blank

/-!
The commands: listing the fields that queries can start from, synthesizing queries, and editing a
query that is given.
-/

namespace QueryCraft.CommandLine

/-- Where the schema is: files, and directories of files with certain extensions. -/
structure SchemaOptions where
  extensions : List String
  paths : List String

/-- The edits to apply: a selection, then the assignments in order. -/
structure EditOptions where
  path : Option (List String)
  assignments : List String
  policy : EmptyPolicy
  selected : Option (List String)

inductive Command where
  | fields (schema : SchemaOptions)
  | synthesize (schema : SchemaOptions) (field : Option String) (config : Synthesis.Config)
      (edits : EditOptions) (json : Bool)
  | transform (file : String) (edits : EditOptions) (indent : Nat) (operationName : Option String)

/-- The response names of a path, separated by points. Blanks around them and empty ones do not
count. -/
def parsePath (text : String) : List String :=
  (((Text.splitOn '.' text.toList).map Text.trim).filter (!·.isEmpty)).map String.ofList

inductive AssignmentError where
  | noEquals (text : String)
  | noName (text : String)
  deriving DecidableEq, Repr

def AssignmentError.message : AssignmentError → String
  | .noEquals text => "Expected `NAME=VALUE`, found `" ++ text ++ "`"
  | .noName text => "Missing argument name in `" ++ text ++ "`"

/-- The name and the value of an assignment, which may hold further equals signs. -/
def parseAssignment (text : String) : Except AssignmentError (String × String) :=
  let cs := text.toList
  match cs.dropWhile (· != '=') with
  | [] => .error (.noEquals text)
  | _ :: value =>
    let name := Text.trim (cs.takeWhile (· != '='))
    if name.isEmpty then .error (.noName text)
    else .ok (String.ofList name, String.ofList value)

def flag (name : String) : OptionSpec :=
  ⟨name, .none, .text, false⟩

def single (name : String) (values : ValueKind) : OptionSpec :=
  ⟨name, .one, values, false⟩

def schemaSpecs : List OptionSpec :=
  [⟨"graphql-file-exts", .one, .list, true⟩]

def editSpecs : List OptionSpec :=
  [single "at" .text, ⟨"arg", .one, .text, true⟩, flag "retain-first-child",
    ⟨"select", .any, .list, true⟩]

def fieldsUsage : Usage :=
  ⟨schemaSpecs, none⟩

def synthesizeUsage : Usage :=
  ⟨schemaSpecs ++ editSpecs ++ [flag "all", single "field" .text, single "indent" .number,
    flag "json", single "max-depth" .number, flag "nested-args", single "operation-name" .text], none⟩

def transformUsage : Usage :=
  ⟨editSpecs ++ [single "indent" .number, single "operation-name" .text], some 1⟩

def SchemaOptions.ofGiven (g : Given) : SchemaOptions where
  extensions :=
    if g.has "graphql-file-exts" then g.values "graphql-file-exts" else ["graphql", "graphqls"]
  paths := g.positionals

def EditOptions.ofGiven (g : Given) : EditOptions where
  path := (g.value? "at").map parsePath
  assignments := g.values "arg"
  policy := if g.has "retain-first-child" then .retainFirst else .cascade
  selected := if g.has "select" then some (g.values "select") else none

def indentOf (g : Given) : Nat :=
  (g.number? "indent").getD defaultIndent

/-- Whether what is given together fits: a path needs a selection. -/
def editsFit (g : Given) : Bool :=
  !g.has "at" || g.has "select"

def require (fits : Bool) : Except Stop Unit :=
  if fits then .ok () else .error .invalid

def readFields (arguments : List String) : Except Stop Command := do
  let g ← fieldsUsage.read arguments
  require !g.positionals.isEmpty
  .ok (.fields (.ofGiven g))

def readSynthesize (arguments : List String) : Except Stop Command := do
  let g ← synthesizeUsage.read arguments
  require (!g.positionals.isEmpty && editsFit g && g.has "all" != g.has "field")
  let config : Synthesis.Config :=
    ⟨g.has "nested-args", g.number? "max-depth", g.value? "operation-name", indentOf g⟩
  .ok (.synthesize (.ofGiven g) (g.value? "field") config (.ofGiven g) (g.has "json"))

def readTransform (arguments : List String) : Except Stop Command := do
  let g ← transformUsage.read arguments
  require (editsFit g)
  match g.positionals with
  | [file] => .ok (.transform file (.ofGiven g) (indentOf g) (g.value? "operation-name"))
  | _ => .error .invalid

/-- The command with the given name, if there is one. -/
def commandReader? (name : String) : Option (List String → Except Stop Command) :=
  if name = "fields" then some readFields
  else if name = "synthesize" then some readSynthesize
  else if name = "transform" then some readTransform
  else none

/-- A request for help on a command, or on the request itself. -/
def readHelp : List String → Stop
  | [] => .help
  | [name] => if (commandReader? name).isSome || name = "help" then .help else .invalid
  | _ => .invalid

/-- The short options in front of a command; `v` may come once. -/
def readShort : Bool → List Char → Except Stop Bool
  | verbose, [] => .ok verbose
  | verbose, 'v' :: cs => if verbose then .error .invalid else readShort true cs
  | _, 'h' :: _ | _, 'V' :: _ => .error .help
  | _, _ :: _ => .error .invalid

/-- The command of a whole command line; without one, help is asked for. The flag says whether the
output was asked to be verbose. -/
def readCommand (verbose : Bool) : List String → Except Stop Command
  | [] => .error .help
  | text :: texts =>
    match text.toList with
    | ['-', '-'] => .error (if texts.isEmpty then .help else .invalid)
    | '-' :: '-' :: _ =>
      if text = "--verbose" then
        if verbose then .error .invalid else readCommand true texts
      else .error (if text = "--help" ∨ text = "--version" then .help else .invalid)
    | '-' :: c :: cs => do
      let verbose ← readShort verbose (c :: cs)
      readCommand verbose texts
    | _ =>
      match commandReader? text with
      | some read => read texts
      | none => .error (if text = "help" then readHelp texts else .invalid)

end QueryCraft.CommandLine
