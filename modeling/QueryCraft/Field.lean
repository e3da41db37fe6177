import QueryCraft.TypeRef
import QueryCraft.Value.Printer

/-!
Arguments, directives, fields without their selections, and variable definitions, with the text that
documents carry for them.
-/

namespace QueryCraft

structure Argument where
  name : String
  value : Value

/-- An annotation such as `@include(if: $x)`. -/
structure Directive where
  name : String
  arguments : List Argument

/-- A field as it is selected, without the selections below it. -/
structure Field where
  aliasName : Option String
  name : String
  arguments : List Argument
  directives : List Directive

structure VariableDefinition where
  name : String
  type : TypeRef
  default : Option Value

/-- The key of the field in a response: its alias, or else its name. -/
def Field.responseName (f : Field) : String :=
  f.aliasName.getD f.name

def Argument.chars (a : Argument) : List Char :=
  a.name.toList ++ ':' :: ' ' :: a.value.chars

/-- Arguments separated by commas. -/
def Argument.listChars : List Argument → List Char
  | [] => []
  | [a] => a.chars
  | a :: b :: as => a.chars ++ ',' :: ' ' :: listChars (b :: as)

/-- Arguments in parentheses, or nothing. -/
def Argument.groupChars : List Argument → List Char
  | [] => []
  | as => '(' :: (listChars as ++ [')'])

def Directive.chars (d : Directive) : List Char :=
  '@' :: (d.name.toList ++ Argument.groupChars d.arguments)

/-- Directives with a space in front of each. -/
def Directive.listChars : List Directive → List Char
  | [] => []
  | d :: ds => ' ' :: (d.chars ++ listChars ds)

def Field.aliasChars (f : Field) : List Char :=
  match f.aliasName with
  | none => []
  | some a => a.toList ++ [':', ' ']

def Field.chars (f : Field) : List Char :=
  f.aliasChars ++ (f.name.toList ++
    (Argument.groupChars f.arguments ++ Directive.listChars f.directives))

def VariableDefinition.defaultChars (d : VariableDefinition) : List Char :=
  match d.default with
  | none => []
  | some v => ' ' :: '=' :: ' ' :: v.chars

def VariableDefinition.chars (d : VariableDefinition) : List Char :=
  '$' :: (d.name.toList ++ ':' :: ' ' :: (d.type.chars ++ d.defaultChars))

/-- Definitions separated by commas. -/
def VariableDefinition.listChars : List VariableDefinition → List Char
  | [] => []
  | [d] => d.chars
  | d :: e :: ds => d.chars ++ ',' :: ' ' :: listChars (e :: ds)

/-- Definitions in parentheses, or nothing. -/
def VariableDefinition.groupChars : List VariableDefinition → List Char
  | [] => []
  | ds => '(' :: (listChars ds ++ [')'])

def Argument.same (a b : Argument) : Bool :=
  a.name == b.name && a.value.same b.value

/-- Whether two lists agree element by element. -/
def sameLists {α : Type} (same : α → α → Bool) : List α → List α → Bool
  | [], [] => true
  | a :: as, b :: bs => same a b && sameLists same as bs
  | _, _ => false

def Directive.same (d e : Directive) : Bool :=
  d.name == e.name && sameLists Argument.same d.arguments e.arguments

def Field.same (f g : Field) : Bool :=
  f.aliasName == g.aliasName && f.name == g.name &&
    sameLists Argument.same f.arguments g.arguments &&
    sameLists Directive.same f.directives g.directives

def VariableDefinition.same (d e : VariableDefinition) : Bool :=
  d.name == e.name && d.type == e.type &&
    (match d.default, e.default with
      | none, none => true
      | some v, some w => v.same w
      | _, _ => false)

end QueryCraft
