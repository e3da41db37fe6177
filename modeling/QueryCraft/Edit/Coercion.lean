import QueryCraft.Edit.Error
import QueryCraft.Executable.Parser
import QueryCraft.Text.Blank

/-!
Values from the text a user gives: by a declared type, or by the kind of the value to replace.
-/

namespace QueryCraft

namespace Value

/-- The value of a complete literal without variables, read where an argument of a field stands. -/
def literal? (raw : List Char) : Option Value :=
  match Executable.ofText? ("\x7b f(v: ".toList ++ raw ++ ") \x7d".toList) with
  | some [.shorthand [.field ⟨_, _, [a], _⟩ _]] =>
    if a.value.isConstant then some a.value else none
  | _ => none

def boolean? (raw : List Char) : Option Value :=
  if raw = "true".toList then some (.boolean true)
  else if raw = "false".toList then some (.boolean false)
  else none

def int? (raw : List Char) : Option Value :=
  (Number.int64? raw).map .int

/-- A finite number. -/
def float? (raw : List Char) : Option Value :=
  match Number.float? raw with
  | some x => if x.isFinite then some (.float x) else none
  | none => none

/-- A bare name stands for an enum value. -/
def enum? (raw : List Char) : Option Value :=
  let name := String.ofList raw
  if Text.isEnumName name then some (.enum name) else none

def ifOfKind (kind : Kind) (v? : Option Value) : Option Value :=
  v?.filter fun v => v.kind == kind

def orExpected (expected : Expectation) : Option Value → Except Expectation Value
  | some v => .ok v
  | none => .error expected

/-- A value of a named type other than the built-in ones: an object literal, the name of an enum
value, or else a string. -/
def ofCustomText (raw : String) (type : String) : Except Expectation Value :=
  let trimmed := Text.trim raw.toList
  if trimmed.head? = some '\x7b' then
    orExpected (.inputObject type) (ifOfKind .object (literal? trimmed))
  else
    .ok ((enum? trimmed).getD (.string raw))

def ofNamedText (raw : String) (type : String) : Except Expectation Value :=
  let trimmed := Text.trim raw.toList
  if type = "ID" ∨ type = "String" then .ok (.string raw)
  else if type = "Int" then orExpected .int (int? trimmed)
  else if type = "Float" then orExpected .float (float? trimmed)
  else if type = "Boolean" then orExpected .boolean (boolean? trimmed)
  else ofCustomText raw type

/-- The value of the declared type that a text stands for. Where a list is expected, anything else
than a list literal stands for its only item. -/
def ofText (raw : String) : TypeRef → Except Expectation Value
  | .named name nullable =>
    if Text.trim raw.toList = "null".toList then
      if nullable then .ok .null else .error (.nonNull (.named name nullable))
    else
      ofNamedText raw name
  | .list inner nullable =>
    let trimmed := Text.trim raw.toList
    if trimmed = "null".toList then
      if nullable then .ok .null else .error (.nonNull (.list inner nullable))
    else if trimmed.head? = some '[' then
      orExpected (.listLiteral (.list inner nullable)) (ifOfKind .list (literal? trimmed))
    else do
      let item ← ofText raw inner
      pure (.list [item])

/-- The value that a text stands for where `existing` stood. A kind that says nothing about a single
scalar takes any complete literal. -/
def ofTextLike (raw : String) (existing : Value) : Except Expectation Value :=
  let trimmed := Text.trim raw.toList
  orExpected (.like existing.kind) <|
    match existing.kind with
    | .boolean => boolean? trimmed
    | .float => float? trimmed
    | .int => int? trimmed
    | .string => some (.string raw)
    | .enum => (enum? trimmed).or (literal? trimmed)
    | .list | .null | .object | .var => literal? trimmed

/-- The text by which a value is converted to another kind. -/
def rawText : Value → String
  | .string text => text
  | v => v.text

/-- `new` in the kind of the literal `existing`: unchanged if the kinds agree or one of the two is
null, and read from its text otherwise. -/
def conform (new existing : Value) : Except Expectation Value :=
  if new.kind = existing.kind ∨ existing.kind = .null ∨ new.kind = .null then .ok new
  else
    match ofTextLike new.rawText existing with
    | .error expected => .error expected
    | .ok v => orExpected (.like existing.kind) (ifOfKind existing.kind (some v))

end Value

end QueryCraft
