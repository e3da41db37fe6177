import QueryCraft.Number.Digits

/-!
JSON values and their text. Objects keep the order of their entries, and numbers their text. What a
text holds without standing for a value is kept as `unusable`; it may only be passed over.
-/

namespace QueryCraft

inductive Json where
  | null
  | bool (b : Bool)
  | number (text : String)
  | string (text : String)
  | array (items : List Json)
  | object (entries : List (String × Json))
  | unusable
  deriving Inhabited

namespace Json

def nat (n : Nat) : Json :=
  .number (String.ofList (Number.natDigits n))

def ofOption {α : Type} (encode : α → Json) : Option α → Json
  | none => .null
  | some a => encode a

def lowerHexDigit (n : Nat) : Char :=
  if n < 10 then Char.ofNat ('0'.toNat + n) else Char.ofNat ('a'.toNat + (n - 10))

/-- The written form of one character inside quotes: only quotes, backslashes and the characters
below U+0020 are escaped. -/
def escape (c : Char) : List Char :=
  if c = '"' then ['\\', '"']
  else if c = '\\' then ['\\', '\\']
  else if c = '\x08' then ['\\', 'b']
  else if c = '\t' then ['\\', 't']
  else if c = '\n' then ['\\', 'n']
  else if c = '\x0C' then ['\\', 'f']
  else if c = '\r' then ['\\', 'r']
  else if c.toNat < 0x20 then
    ['\\', 'u', '0', '0', lowerHexDigit (c.toNat / 16), lowerHexDigit (c.toNat % 16)]
  else [c]

def quote (text : String) : List Char :=
  '"' :: (text.toList.flatMap escape ++ ['"'])

mutual

/-- The text without any blanks. -/
def compactChars : Json → List Char
  | .null | .unusable => "null".toList
  | .bool true => "true".toList
  | .bool false => "false".toList
  | .number text => text.toList
  | .string text => quote text
  | .array items => '[' :: (compactItems items ++ [']'])
  | .object entries => '\x7b' :: (compactEntries entries ++ ['\x7d'])

def compactItems : List Json → List Char
  | [] => []
  | [j] => compactChars j
  | j :: k :: js => compactChars j ++ ',' :: compactItems (k :: js)

def compactEntries : List (String × Json) → List Char
  | [] => []
  | [(key, j)] => quote key ++ ':' :: compactChars j
  | (key, j) :: e :: es => quote key ++ ':' :: (compactChars j ++ ',' :: compactEntries (e :: es))

end

def compact (j : Json) : String :=
  String.ofList j.compactChars

/-- A new line at the given level. -/
def newLine (level : Nat) : List Char :=
  '\n' :: List.replicate (2 * level) ' '

mutual

/-- The text with one item or entry a line, each level indented by two spaces. -/
def prettyChars (level : Nat) : Json → List Char
  | .null | .unusable => "null".toList
  | .bool true => "true".toList
  | .bool false => "false".toList
  | .number text => text.toList
  | .string text => quote text
  | .array [] => ['[', ']']
  | .array (j :: js) => '[' :: (prettyItems (level + 1) (j :: js) ++ (newLine level ++ [']']))
  | .object [] => ['\x7b', '\x7d']
  | .object (e :: es) =>
    '\x7b' :: (prettyEntries (level + 1) (e :: es) ++ (newLine level ++ ['\x7d']))

def prettyItems (level : Nat) : List Json → List Char
  | [] => []
  | [j] => newLine level ++ prettyChars level j
  | j :: k :: js => newLine level ++ (prettyChars level j ++ ',' :: prettyItems level (k :: js))

def prettyEntries (level : Nat) : List (String × Json) → List Char
  | [] => []
  | [(key, j)] => newLine level ++ (quote key ++ ':' :: ' ' :: prettyChars level j)
  | (key, j) :: e :: es =>
    newLine level ++ (quote key ++ ':' :: ' ' ::
      (prettyChars level j ++ ',' :: prettyEntries level (e :: es)))

end

def pretty (j : Json) : String :=
  String.ofList (j.prettyChars 0)

end Json

end QueryCraft
