import QueryCraft.Executable.Parser
import QueryCraft.Schema.Definition

/-!
Parsing tokens into schema definitions. The position of a definition is looked up by the tokens that
are left where it starts.
-/

namespace QueryCraft.Schema

/-- The position of the first of the tokens that are left. -/
abbrev Locator : Type := List Token → Position

def parseDescription : List Token → Option String × List Token
  | .string text :: ts => (some text, ts)
  | ts => (none, ts)

/-- A field of an input object, or an argument of a field. -/
def InputField.parse (locate : Locator) (steps : Nat) (start : List Token) :
    Option (InputField × List Token) :=
  match parseDescription start with
  | (_, .name name :: .colon :: ts) => do
    let (type, ts) ← TypeRef.parse steps ts
    let (default, ts) ← Value.parseDefault steps ts
    let (_, ts) ← Directive.parseList false steps ts
    some (⟨locate start, name, type, default⟩, ts)
  | _ => none

/-- One or more input fields, with the token that closes them. -/
def InputField.parseList (locate : Locator) (isEnd : Token → Bool) :
    Nat → List Token → Parsed (List InputField)
  | 0, _ => none
  | steps + 1, ts =>
    match InputField.parse locate steps ts with
    | none => none
    | some (_, []) => none
    | some (f, t :: ts) =>
      if isEnd t then some ([f], ts)
      else (parseList locate isEnd steps (t :: ts)).map fun (fs, ts) => (f :: fs, ts)

def isParenR : Token → Bool
  | .parenR => true
  | _ => false

def isBraceR : Token → Bool
  | .braceR => true
  | _ => false

/-- Parameters in parentheses, or nothing. -/
def parseParameters (locate : Locator) (steps : Nat) : List Token → Parsed (List InputField)
  | .parenL :: ts => InputField.parseList locate isParenR steps ts
  | ts => some ([], ts)

/-- A field with its type. -/
def FieldDefinition.parse (locate : Locator) (steps : Nat) (start : List Token) :
    Option (FieldDefinition × List Token) :=
  match parseDescription start with
  | (_, .name name :: ts) =>
    match parseParameters locate steps ts with
    | some (parameters, .colon :: ts) => do
      let (type, ts) ← TypeRef.parse steps ts
      let (_, ts) ← Directive.parseList false steps ts
      some (⟨locate start, name, parameters.map InputField.parameter, type⟩, ts)
    | _ => none
  | _ => none

/-- One or more fields, with the brace that closes them. -/
def FieldDefinition.parseList (locate : Locator) : Nat → List Token → Parsed (List FieldDefinition)
  | 0, _ => none
  | steps + 1, ts =>
    match FieldDefinition.parse locate steps ts with
    | none => none
    | some (f, .braceR :: ts) => some ([f], ts)
    | some (f, ts) => (parseList locate steps ts).map fun (fs, ts) => (f :: fs, ts)

/-- Fields in braces, or nothing. -/
def FieldDefinition.parseBlock (locate : Locator) (steps : Nat) :
    List Token → Parsed (List FieldDefinition)
  | .braceL :: ts => parseList locate steps ts
  | ts => some ([], ts)

/-- One or more names with a separator between them. -/
def parseNames (isSeparator : Token → Bool) : Nat → List Token → Parsed (List String)
  | steps + 1, .name s :: t :: ts =>
    if isSeparator t then (parseNames isSeparator steps ts).map fun (ss, ts) => (s :: ss, ts)
    else some ([s], t :: ts)
  | _ + 1, [.name s] => some ([s], [])
  | _, _ => none

def isAmp : Token → Bool
  | .amp => true
  | _ => false

def isPipe : Token → Bool
  | .pipe => true
  | _ => false

/-- The tokens without a separator in front. -/
def skipLeading (isSeparator : Token → Bool) : List Token → List Token
  | t :: ts => if isSeparator t then ts else t :: ts
  | [] => []

/-- The interfaces behind the word `implements`, or nothing. -/
def parseInterfaces (steps : Nat) : List Token → Parsed (List String)
  | .name word :: ts =>
    if word = "implements" then parseNames isAmp steps (skipLeading isAmp ts)
    else some ([], .name word :: ts)
  | ts => some ([], ts)

/-- The values of an enum, with the brace that closes them. -/
def parseEnumValues : Nat → List Token → Parsed (List String)
  | 0, _ => none
  | steps + 1, ts =>
    match parseDescription ts with
    | (_, .name s :: ts) =>
      match Directive.parseList false steps ts with
      | none => none
      | some (_, .braceR :: ts) => some ([s], ts)
      | some (_, ts) => (parseEnumValues steps ts).map fun (ss, ts) => (s :: ss, ts)
    | _ => none

/-- The kinds of types that can be defined. -/
inductive Keyword where
  | scalar
  | object
  | interface
  | union
  | enum
  | input
  deriving DecidableEq, Repr

def Keyword.ofWord? (word : String) : Option Keyword :=
  if word = "scalar" then some .scalar
  else if word = "type" then some .object
  else if word = "interface" then some .interface
  else if word = "union" then some .union
  else if word = "enum" then some .enum
  else if word = "input" then some .input
  else none

/-- The members of a union behind an equals sign, or nothing. -/
def parseMembers (steps : Nat) : List Token → Parsed (List String)
  | .equals :: ts => parseNames isPipe steps (skipLeading isPipe ts)
  | ts => some ([], ts)

/-- A type from behind its name. The flag says whether it carries a directive. -/
def Body.parse (locate : Locator) (steps : Nat) (keyword : Keyword) (ts : List Token) :
    Option ((Body × Bool) × List Token) := do
  let (interfaces, ts) ← match keyword with
    | .object | .interface => parseInterfaces steps ts
    | _ => some ([], ts)
  let (directives, ts) ← Directive.parseList false steps ts
  let hasDirective := !directives.isEmpty
  match keyword with
  | .scalar => some ((.scalar, hasDirective), ts)
  | .object =>
    let (fields, ts) ← FieldDefinition.parseBlock locate steps ts
    some ((.object interfaces fields, hasDirective), ts)
  | .interface =>
    let (fields, ts) ← FieldDefinition.parseBlock locate steps ts
    some ((.interface interfaces fields, hasDirective), ts)
  | .union =>
    let (members, ts) ← parseMembers steps ts
    some ((.union members, hasDirective), ts)
  | .enum =>
    let (values, ts) ← match ts with
      | .braceL :: ts => parseEnumValues steps ts
      | ts => some ([], ts)
    some ((.enum values, hasDirective), ts)
  | .input =>
    let (fields, ts) ← match ts with
      | .braceL :: ts => InputField.parseList locate isBraceR steps ts
      | ts => some ([], ts)
    some ((.input fields, hasDirective), ts)

/-- Whether an extension adds something besides directives. That an interface implements another
does not count. -/
def Body.adds : Body → Bool
  | .scalar => false
  | .object interfaces fields => !interfaces.isEmpty || !fields.isEmpty
  | .interface _ fields => !fields.isEmpty
  | .union members => !members.isEmpty
  | .enum values => !values.isEmpty
  | .input fields => !fields.isEmpty

/-- A type from its keyword on. -/
def TypeDefinition.parse (locate : Locator) (steps : Nat) (description : Option String)
    (start : List Token) : Option (TypeDefinition × List Token) :=
  match start with
  | .name word :: .name name :: ts => do
    let keyword ← Keyword.ofWord? word
    let ((body, _), ts) ← Body.parse locate steps keyword ts
    some (⟨locate start, description, name, body⟩, ts)
  | _ => none

/-- An extension from its keyword on. -/
def TypeExtension.parse (locate : Locator) (steps : Nat) (start : List Token) :
    Option (TypeExtension × List Token) :=
  match start with
  | .name word :: .name name :: ts => do
    let keyword ← Keyword.ofWord? word
    let ((body, hasDirective), ts) ← Body.parse locate steps keyword ts
    if hasDirective || body.adds then some (⟨locate start, name, body⟩, ts) else none
  | _ => none

/-- The operations of a schema block up to its closing brace, each at most once; the query type is
the result. -/
def parseOperations : List String → Option String → List Token → Parsed (Option String)
  | _, query, .braceR :: ts => some (query, ts)
  | seen, query, .name operation :: .colon :: .name type :: ts =>
    if seen.contains operation then none
    else if operation = "query" then parseOperations (operation :: seen) (some type) ts
    else if operation = "mutation" ∨ operation = "subscription" then
      parseOperations (operation :: seen) query ts
    else none
  | _, _, _ => none

def isLocation (s : String) : Bool :=
  ["QUERY", "MUTATION", "SUBSCRIPTION", "FIELD", "FRAGMENT_DEFINITION", "FRAGMENT_SPREAD",
    "INLINE_FRAGMENT", "SCHEMA", "SCALAR", "OBJECT", "FIELD_DEFINITION", "ARGUMENT_DEFINITION",
    "INTERFACE", "UNION", "ENUM", "ENUM_VALUE", "INPUT_OBJECT", "INPUT_FIELD_DEFINITION",
    "VARIABLE_DEFINITION"].contains s

/-- The locations of a directive behind the word `on`; there may be none. -/
def parseLocations (steps : Nat) (ts : List Token) : Option (List Token) :=
  match ts with
  | .pipe :: _ | .name _ :: _ => do
    let (locations, ts) ← parseNames isPipe steps (skipLeading isPipe ts)
    if locations.all isLocation then some ts else none
  | ts => some ts

/-- The definition of a directive from behind its keyword. -/
def parseDirectiveDefinition (locate : Locator) (steps : Nat) : List Token → Option (List Token)
  | .atSign :: .name _ :: ts => do
    let (_, ts) ← parseParameters locate steps ts
    match ts with
    | .name word :: .name on :: ts =>
      if word = "repeatable" ∧ on = "on" then parseLocations steps ts
      else if word = "on" then parseLocations steps (.name on :: ts)
      else none
    | .name word :: ts => if word = "on" then parseLocations steps ts else none
    | _ => none
  | _ => none

/-- What may follow a description, or stand without one. -/
def Definition.parseDescribed (locate : Locator) (steps : Nat) (description : Option String) :
    List Token → Parsed Definition
  | .name word :: ts =>
    if word = "directive" then
      (parseDirectiveDefinition locate steps ts).map fun ts => (.directive, ts)
    else
      (TypeDefinition.parse locate steps description (.name word :: ts)).map fun (d, ts) =>
        (.type d, ts)
  | _ => none

def Definition.parse (locate : Locator) (steps : Nat) (start : List Token) : Parsed Definition :=
  match start with
  | .string text :: ts => parseDescribed locate steps (some text) ts
  | .name word :: ts =>
    if word = "schema" then
      match Directive.parseList false steps ts with
      | some (_, .braceL :: ts) =>
        (parseOperations [] none ts).map fun (query, ts) => (.schema (locate start) query, ts)
      | _ => none
    else if word = "extend" then
      (TypeExtension.parse locate steps ts).map fun (e, ts) => (.extension e, ts)
    else parseDescribed locate steps none start
  | _ => none

/-- One or more definitions up to the end of the tokens. -/
def Definition.parseAll (locate : Locator) : Nat → List Token → Option (List Definition)
  | 0, _ => none
  | steps + 1, ts =>
    match Definition.parse locate steps ts with
    | none => none
    | some (d, []) => some [d]
    | some (d, ts) => (parseAll locate steps ts).map (d :: ·)

/-- The definitions that a text consists of. -/
def definitions? (text : String) : Option (List Definition) := do
  let lexemes ← Lexeme.ofText? text.toList
  let tokens := lexemes.map Lexeme.token
  if Token.nestWithin Token.maxNesting tokens then
    let positions := (Lexeme.positions Position.start lexemes).toArray
    let locate (rest : List Token) : Position :=
      positions.getD (positions.size - rest.length) Position.start
    Definition.parseAll locate (Executable.stepsFor tokens) tokens
  else
    none

end QueryCraft.Schema
