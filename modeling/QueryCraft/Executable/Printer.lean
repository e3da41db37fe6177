import QueryCraft.Executable
import QueryCraft.Text.Block

/-!
The text of executable definitions that are kept verbatim. It differs from the text of a document:
floats never have an exponent, a string of several lines is written as a block, and only
subscriptions with a name show their variables, one behind the other.
-/

namespace QueryCraft.Executable

/-- How far one level is indented. -/
def indentStep : Nat := 2

def spaces (n : Nat) : List Char :=
  List.replicate n ' '

/-- Neither a line feed, carriage return or tab nor from U+0020 to U+FFFF. -/
def isOdd (c : Char) : Bool :=
  !(c == '\n' || c == '\r' || c == '\t' || (0x20 ≤ c.toNat && c.toNat ≤ 0xFFFF))

/-- The decimal digits of a code, with zeros in front up to four of them. -/
def fourDigits (n : Nat) : List Char :=
  let ds := Number.natDigits n
  List.replicate (4 - ds.length) '0' ++ ds

def escape (c : Char) : List Char :=
  if c = '\r' then ['\\', 'r']
  else if c = '\n' then ['\\', 'n']
  else if c = '\t' then ['\\', 't']
  else if c = '"' then ['\\', '"']
  else if c = '\\' then ['\\', '\\']
  else if isOdd c then '\\' :: 'u' :: fourDigits c.toNat
  else [c]

/-- One line of a block string; a blank line is left empty. -/
def blockLine (indent : Nat) (line : List Char) : List Char :=
  if Text.Block.isBlankLine line then ['\n']
  else spaces indent ++ (Text.replace Text.Block.quotes Text.Block.escapedQuotes line ++ ['\n'])

/-- A string at the given indent: a block if it has several lines and no odd character. -/
def stringChars (indent : Nat) (text : List Char) : List Char :=
  if text.contains '\n' && !text.any isOdd then
    Text.Block.quotes ++ '\n' :: ((Text.lines text).flatMap (blockLine (indent + indentStep)) ++
      (spaces indent ++ Text.Block.quotes))
  else
    '"' :: (text.flatMap escape ++ ['"'])

mutual

def valueChars (indent : Nat) : Value → List Char
  | .null => ['n', 'u', 'l', 'l']
  | .boolean true => ['t', 'r', 'u', 'e']
  | .boolean false => ['f', 'a', 'l', 's', 'e']
  | .int n => Number.intDigits n.toInt
  | .float x => Number.FloatStyle.plain.write x
  | .string text => stringChars indent text.toList
  | .enum name => name.toList
  | .var name => '$' :: name.toList
  | .list items => '[' :: (itemChars indent items ++ [']'])
  | .object entries => '\x7b' :: (entryChars indent entries ++ ['\x7d'])

/-- Items separated by commas. -/
def itemChars (indent : Nat) : List Value → List Char
  | [] => []
  | [v] => valueChars indent v
  | v :: w :: vs => valueChars indent v ++ ',' :: ' ' :: itemChars indent (w :: vs)

/-- Entries separated by commas. -/
def entryChars (indent : Nat) : List (String × Value) → List Char
  | [] => []
  | [(k, v)] => k.toList ++ ':' :: ' ' :: valueChars indent v
  | (k, v) :: e :: es =>
    k.toList ++ ':' :: ' ' :: (valueChars indent v ++ ',' :: ' ' :: entryChars indent (e :: es))

end

def argumentChars (indent : Nat) (a : Argument) : List Char :=
  a.name.toList ++ ':' :: ' ' :: valueChars indent a.value

/-- Arguments in parentheses, or nothing. -/
def argumentsChars (indent : Nat) : List Argument → List Char
  | [] => []
  | as => '(' :: (Text.join [',', ' '] (as.map (argumentChars indent)) ++ [')'])

/-- Directives with a space in front of each. -/
def directivesChars (indent : Nat) (ds : List Directive) : List Char :=
  ds.flatMap fun d => ' ' :: '@' :: (d.name.toList ++ argumentsChars indent d.arguments)

def variableChars (d : VariableDefinition) : List Char :=
  '$' :: (d.name.toList ++ ':' :: ' ' :: (d.type.chars ++
    match d.default with
    | none => []
    | some v => ' ' :: '=' :: ' ' :: valueChars 0 v))

def fieldChars (indent : Nat) (f : Field) : List Char :=
  f.aliasChars ++ (f.name.toList ++
    (argumentsChars indent f.arguments ++ directivesChars indent f.directives))

def conditionChars : Option String → List Char
  | none => []
  | some type => ' ' :: 'o' :: 'n' :: ' ' :: type.toList

mutual

/-- A selection with its indent and its line end. -/
def Selection.chars (indent : Nat) : Selection → List Char
  | .field f [] => spaces indent ++ (fieldChars indent f ++ ['\n'])
  | .field f (s :: ss) =>
    spaces indent ++ (fieldChars indent f ++ ' ' :: '\x7b' :: '\n' ::
      (Selection.listChars (indent + indentStep) (s :: ss) ++ (spaces indent ++ ['\x7d', '\n'])))
  | .spread fragment directives =>
    spaces indent ++ '.' :: '.' :: '.' ::
      (fragment.toList ++ (directivesChars indent directives ++ ['\n']))
  | .inline condition directives ss =>
    spaces indent ++ '.' :: '.' :: '.' ::
      (conditionChars condition ++ (directivesChars indent directives ++ ' ' :: '\x7b' :: '\n' ::
        (Selection.listChars (indent + indentStep) ss ++ (spaces indent ++ ['\x7d', '\n']))))

def Selection.listChars (indent : Nat) : List Selection → List Char
  | [] => []
  | s :: ss => Selection.chars indent s ++ Selection.listChars indent ss

end

/-- Selections in braces that start a line at no indent. -/
def setChars (ss : List Selection) : List Char :=
  '\x7b' :: '\n' :: (Selection.listChars indentStep ss ++ ['\x7d', '\n'])

def OperationKind.word : OperationKind → String
  | .query => "query"
  | .mutation => "mutation"
  | .subscription => "subscription"

/-- The name and variables of an operation. A subscription shows its variables only behind a name
and without separators. -/
def headChars (kind : OperationKind) (name : Option String) (vs : List VariableDefinition) :
    List Char :=
  let named := match name with
    | none => []
    | some n => ' ' :: n.toList
  let definitions := match kind, name, vs with
    | _, _, [] => []
    | .subscription, none, _ => []
    | .subscription, some _, vs => '(' :: (vs.flatMap variableChars ++ [')'])
    | _, _, vs => '(' :: (Text.join [',', ' '] (vs.map variableChars) ++ [')'])
  kind.word.toList ++ (named ++ definitions)

def Definition.chars : Definition → List Char
  | .shorthand ss => setChars ss
  | .operation kind name vs ds ss =>
    headChars kind name vs ++ (directivesChars 0 ds ++ ' ' :: setChars ss)
  | .fragment name condition ds ss =>
    "fragment ".toList ++ (name.toList ++ (conditionChars (some condition) ++
      (directivesChars 0 ds ++ ' ' :: setChars ss)))

end QueryCraft.Executable
