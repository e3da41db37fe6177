import QueryCraft.Executable
import QueryCraft.Token.Lexer

/-!
Parsing tokens into executable definitions. Each parser takes what it reads from the front of the
tokens and returns the rest; the first number bounds the steps, and a bound computed from the number
of tokens is never reached.
-/

namespace QueryCraft

/-- The result of reading an `α` from the front of some tokens, with the tokens behind it. -/
abbrev Parsed (α : Type) : Type := Option (α × List Token)

mutual

/-- A value; references to variables are refused if it has to be a constant. -/
def Value.parse (constant : Bool) : Nat → List Token → Parsed Value
  | _, .int n :: ts => some (.int n, ts)
  | _, .float x :: ts => some (.float x, ts)
  | _, .string text :: ts => some (.string text, ts)
  | _, .name s :: ts => some (Value.ofName s, ts)
  | _, .dollar :: .name s :: ts => if constant then none else some (.var s, ts)
  | steps + 1, .bracketL :: ts =>
    match parseItems constant steps ts with
    | some (items, ts) => some (.list items, ts)
    | none => none
  | steps + 1, .braceL :: ts =>
    match parseEntries constant steps ts with
    | some (entries, ts) => some (Value.sortedObject entries, ts)
    | none => none
  | _, _ => none

/-- The items of a list, with the bracket that closes it. -/
def Value.parseItems (constant : Bool) : Nat → List Token → Parsed (List Value)
  | _, .bracketR :: ts => some ([], ts)
  | 0, _ => none
  | steps + 1, ts =>
    match Value.parse constant steps ts with
    | none => none
    | some (v, ts) =>
      match parseItems constant steps ts with
      | none => none
      | some (vs, ts) => some (v :: vs, ts)

/-- The entries of an object, with the brace that closes it. -/
def Value.parseEntries (constant : Bool) : Nat → List Token → Parsed (List (String × Value))
  | _, .braceR :: ts => some ([], ts)
  | steps + 1, .name key :: .colon :: ts =>
    match Value.parse constant steps ts with
    | none => none
    | some (v, ts) =>
      match parseEntries constant steps ts with
      | none => none
      | some (es, ts) => some ((key, v) :: es, ts)
  | _, _ => none

end

/-- An exclamation mark, if there is one, makes a type not nullable. -/
def TypeRef.parseBang (type : Bool → TypeRef) : List Token → Parsed TypeRef
  | .bang :: ts => some (type false, ts)
  | ts => some (type true, ts)

def TypeRef.parse : Nat → List Token → Parsed TypeRef
  | _, .name s :: ts => parseBang (.named s) ts
  | steps + 1, .bracketL :: ts =>
    match TypeRef.parse steps ts with
    | some (inner, .bracketR :: ts) => parseBang (.list inner) ts
    | _ => none
  | _, _ => none

/-- One or more arguments, with the parenthesis that closes them. -/
def Argument.parseList (constant : Bool) : Nat → List Token → Parsed (List Argument)
  | steps + 1, .name name :: .colon :: ts =>
    match Value.parse constant steps ts with
    | none => none
    | some (value, .parenR :: ts) => some ([⟨name, value⟩], ts)
    | some (value, ts) =>
      match parseList constant steps ts with
      | none => none
      | some (as, ts) => some (⟨name, value⟩ :: as, ts)
  | _, _ => none

/-- Arguments in parentheses, or nothing. -/
def Argument.parseGroup (constant : Bool) (steps : Nat) : List Token → Parsed (List Argument)
  | .parenL :: ts => parseList constant steps ts
  | ts => some ([], ts)

/-- All directives that come next. -/
def Directive.parseList (constant : Bool) : Nat → List Token → Parsed (List Directive)
  | steps + 1, .atSign :: .name name :: ts =>
    match Argument.parseGroup constant steps ts with
    | none => none
    | some (arguments, ts) =>
      match parseList constant steps ts with
      | none => none
      | some (ds, ts) => some (⟨name, arguments⟩ :: ds, ts)
  | _, .atSign :: _ => none
  | _, ts => some ([], ts)

/-- A default behind an equals sign, or nothing. -/
def Value.parseDefault (steps : Nat) : List Token → Parsed (Option Value)
  | .equals :: ts =>
    match Value.parse true steps ts with
    | none => none
    | some (v, ts) => some (some v, ts)
  | ts => some (none, ts)

/-- One or more variable definitions, with the parenthesis that closes them. -/
def VariableDefinition.parseList : Nat → List Token → Parsed (List VariableDefinition)
  | steps + 1, .dollar :: .name name :: .colon :: ts =>
    match TypeRef.parse steps ts with
    | none => none
    | some (type, ts) =>
      match Value.parseDefault steps ts with
      | none => none
      | some (default, .parenR :: ts) => some ([⟨name, type, default⟩], ts)
      | some (default, ts) =>
        match parseList steps ts with
        | none => none
        | some (ds, ts) => some (⟨name, type, default⟩ :: ds, ts)
  | _, _ => none

/-- Variable definitions in parentheses, or nothing. -/
def VariableDefinition.parseGroup (steps : Nat) : List Token → Parsed (List VariableDefinition)
  | .parenL :: ts => parseList steps ts
  | ts => some ([], ts)

namespace Executable

/-- A field from its name to its directives; what the first name is, the next token decides. -/
def parseField (steps : Nat) (first : String) : List Token → Parsed Field
  | .colon :: .name name :: ts =>
    match Argument.parseGroup false steps ts with
    | none => none
    | some (arguments, ts) =>
      match Directive.parseList false steps ts with
      | none => none
      | some (directives, ts) => some (⟨some first, name, arguments, directives⟩, ts)
  | .colon :: _ => none
  | ts =>
    match Argument.parseGroup false steps ts with
    | none => none
    | some (arguments, ts) =>
      match Directive.parseList false steps ts with
      | none => none
      | some (directives, ts) => some (⟨none, first, arguments, directives⟩, ts)

mutual

def Selection.parse : Nat → List Token → Parsed Selection
  | steps + 1, .name first :: ts =>
    match parseField steps first ts with
    | none => none
    | some (f, .braceL :: ts) =>
      match Selection.parseList steps ts with
      | none => none
      | some (ss, ts) => some (.field f ss, ts)
    | some (f, ts) => some (.field f [], ts)
  | steps + 1, .spread :: .name name :: ts =>
    if name = "on" then
      match ts with
      | .name condition :: ts => parseInline (some condition) steps ts
      | _ => none
    else
      match Directive.parseList false steps ts with
      | none => none
      | some (directives, ts) => some (.spread name directives, ts)
  | steps + 1, .spread :: ts => parseInline none steps ts
  | _, _ => none

/-- An inline fragment from behind its type condition. -/
def Selection.parseInline (condition : Option String) : Nat → List Token → Parsed Selection
  | steps + 1, ts =>
    match Directive.parseList false steps ts with
    | some (directives, .braceL :: ts) =>
      match Selection.parseList steps ts with
      | none => none
      | some (ss, ts) => some (.inline condition directives ss, ts)
    | _ => none
  | 0, _ => none

/-- One or more selections, with the brace that closes them. -/
def Selection.parseList : Nat → List Token → Parsed (List Selection)
  | steps + 1, ts =>
    match Selection.parse steps ts with
    | none => none
    | some (s, .braceR :: ts) => some ([s], ts)
    | some (s, ts) =>
      match Selection.parseList steps ts with
      | none => none
      | some (ss, ts) => some (s :: ss, ts)
  | 0, _ => none

end

/-- Selections in braces. -/
def Selection.parseSet (steps : Nat) : List Token → Parsed (List Selection)
  | .braceL :: ts => parseList steps ts
  | _ => none

def OperationKind.ofName? (name : String) : Option OperationKind :=
  if name = "query" then some .query
  else if name = "mutation" then some .mutation
  else if name = "subscription" then some .subscription
  else none

/-- An operation from behind its name. -/
def Definition.parseOperation (steps : Nat) (kind : OperationKind) (name : Option String)
    (ts : List Token) : Parsed Definition :=
  match VariableDefinition.parseGroup steps ts with
  | none => none
  | some (definitions, ts) =>
    match Directive.parseList false steps ts with
    | none => none
    | some (directives, ts) =>
      match Selection.parseSet steps ts with
      | none => none
      | some (ss, ts) => some (.operation kind name definitions directives ss, ts)

def Definition.parse (steps : Nat) : List Token → Parsed Definition
  | .braceL :: ts =>
    match Selection.parseList steps ts with
    | none => none
    | some (ss, ts) => some (.shorthand ss, ts)
  | .name word :: ts =>
    match OperationKind.ofName? word with
    | some kind =>
      match ts with
      | .name name :: ts => parseOperation steps kind (some name) ts
      | ts => parseOperation steps kind none ts
    | none =>
      match ts with
      | .name name :: .name on :: .name condition :: ts =>
        if word = "fragment" ∧ on = "on" then
          match Directive.parseList false steps ts with
          | none => none
          | some (directives, ts) =>
            match Selection.parseSet steps ts with
            | none => none
            | some (ss, ts) => some (.fragment name condition directives ss, ts)
        else none
      | _ => none
  | _ => none

/-- One or more definitions up to the end of the tokens. -/
def Definition.parseAll : Nat → List Token → Option (List Definition)
  | steps + 1, ts =>
    match Definition.parse steps ts with
    | none => none
    | some (d, []) => some [d]
    | some (d, ts) => (parseAll steps ts).map (d :: ·)
  | 0, _ => none

/-- More steps than the parsers take to read so many tokens: between two tokens they nest at most
three deep. -/
def stepsFor (ts : List Token) : Nat :=
  4 * ts.length + 4

/-- The definitions that a text consists of. -/
def ofText? (cs : List Char) : Option (List Definition) := do
  let ts ← Token.ofText? cs
  Definition.parseAll (stepsFor ts) ts

end Executable

end QueryCraft
