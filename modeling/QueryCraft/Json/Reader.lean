import QueryCraft.Json

/-!
JSON from text. A string in which a surrogate stands outside a pair has no text, and an array or
object within 127 others lies too deep; both are read, but are of no use.
-/

namespace QueryCraft.Json

def maxDepth : Nat := 127

def isBlank (c : Char) : Bool :=
  c == ' ' || c == '\n' || c == '\t' || c == '\r'

def skipBlank (cs : List Char) : List Char :=
  cs.dropWhile isBlank

/-- The code unit that four hexadecimal digits stand for. -/
def codeUnit? (a b c d : Char) : Option Nat :=
  Number.hexValue? [a, b, c, d]

def simpleEscape? (c : Char) : Option Char :=
  if c = '"' then some '"'
  else if c = '\\' then some '\\'
  else if c = '/' then some '/'
  else if c = 'b' then some '\x08'
  else if c = 'f' then some '\x0C'
  else if c = 'n' then some '\n'
  else if c = 'r' then some '\r'
  else if c = 't' then some '\t'
  else none

/-- The character that a pair of surrogates stands for. -/
def pair? (high low : Nat) : Option Char :=
  if 0xD800 ≤ high ∧ high ≤ 0xDBFF ∧ 0xDC00 ≤ low ∧ low ≤ 0xDFFF then
    some (Char.ofNat (0x10000 + (high - 0xD800) * 0x400 + (low - 0xDC00)))
  else
    none

/-- What one character or one escape of a string stands for. -/
inductive StringPart where
  | char (c : Char)
  | surrogate (unit : Nat)

def StringPart.ofUnit (unit : Nat) : StringPart :=
  if unit.isValidChar then .char (Char.ofNat unit) else .surrogate unit

/-- The text of a string; none if one of its surrogates has no partner. -/
def joinParts : List StringPart → Option (List Char)
  | [] => some []
  | .char c :: parts => (joinParts parts).map (c :: ·)
  | .surrogate high :: .surrogate low :: parts =>
    match pair? high low with
    | some c => (joinParts parts).map (c :: ·)
    | none => none
  | .surrogate _ :: _ => none

/-- The parts of a string from behind its opening quote, and what follows the closing one. -/
def readParts : List Char → Option (List StringPart × List Char)
  | [] => none
  | '"' :: rest => some ([], rest)
  | '\\' :: 'u' :: a :: b :: c :: d :: cs =>
    match codeUnit? a b c d with
    | none => none
    | some unit => (readParts cs).map fun (parts, rest) => (.ofUnit unit :: parts, rest)
  | '\\' :: e :: cs =>
    match simpleEscape? e with
    | none => none
    | some c => (readParts cs).map fun (parts, rest) => (.char c :: parts, rest)
  | c :: cs =>
    if c.toNat < 0x20 then none
    else (readParts cs).map fun (parts, rest) => (.char c :: parts, rest)

/-- The text of a string, if it has one, and what follows the string. -/
def readString (cs : List Char) : Option (Option String × List Char) :=
  (readParts cs).map fun (parts, rest) => ((joinParts parts).map String.ofList, rest)

/-- One or more digits at the front of a text, and the rest. -/
def readDigits (cs : List Char) : Option (List Char × List Char) :=
  match cs.takeWhile Char.isDigit with
  | [] => none
  | ds => some (ds, cs.dropWhile Char.isDigit)

/-- A whole number without a sign and without a zero in front of other digits. -/
def readWhole : List Char → Option (List Char × List Char)
  | '0' :: cs => some (['0'], cs)
  | cs => readDigits cs

def readFraction : List Char → Option (List Char × List Char)
  | '.' :: cs => (readDigits cs).map fun (ds, rest) => ('.' :: ds, rest)
  | cs => some ([], cs)

def readExponent : List Char → Option (List Char × List Char)
  | c :: cs =>
    if c = 'e' ∨ c = 'E' then
      match cs with
      | '+' :: ds => (readDigits ds).map fun (ds, rest) => (c :: '+' :: ds, rest)
      | '-' :: ds => (readDigits ds).map fun (ds, rest) => (c :: '-' :: ds, rest)
      | ds => (readDigits ds).map fun (ds, rest) => (c :: ds, rest)
    else
      some ([], c :: cs)
  | [] => some ([], [])

/-- The text of a number, and what follows it. -/
def readNumber (cs : List Char) : Option (List Char × List Char) := do
  let (sign, cs) := match cs with
    | '-' :: cs => (['-'], cs)
    | cs => ([], cs)
  let (whole, cs) ← readWhole cs
  let (fraction, cs) ← readFraction cs
  let (exponent, cs) ← readExponent cs
  some (sign ++ whole ++ fraction ++ exponent, cs)

def ofText? : Option String → Json
  | some text => .string text
  | none => .unusable

/-- The object with the given entries; one of its keys may have no text. -/
def ofEntries? (entries : List (Option String × Json)) : Json :=
  match entries.mapM (fun (key, j) => key.map fun key => (key, j)) with
  | some es => .object es
  | none => .unusable

/-- An array or object, if another may open at its place. -/
def atDepth : Nat → Json → Json
  | 0, _ => .unusable
  | _ + 1, j => j

mutual

/-- A value at the front of a text, and what follows it. `steps` bounds the values read one within
or behind another, `depth` the arrays and objects that may open one within another. -/
def read : Nat → Nat → List Char → Option (Json × List Char)
  | 0, _, _ => none
  | steps + 1, depth, cs =>
    match skipBlank cs with
    | 'n' :: 'u' :: 'l' :: 'l' :: rest => some (.null, rest)
    | 't' :: 'r' :: 'u' :: 'e' :: rest => some (.bool true, rest)
    | 'f' :: 'a' :: 'l' :: 's' :: 'e' :: rest => some (.bool false, rest)
    | '"' :: rest => (readString rest).map fun (text, rest) => (ofText? text, rest)
    | '[' :: rest =>
      match skipBlank rest with
      | ']' :: rest => some (atDepth depth (.array []), rest)
      | rest =>
        (readItems steps (depth - 1) rest).map fun (items, rest) =>
          (atDepth depth (.array items), rest)
    | '\x7b' :: rest =>
      match skipBlank rest with
      | '\x7d' :: rest => some (atDepth depth (.object []), rest)
      | rest =>
        (readEntries steps (depth - 1) rest).map fun (entries, rest) =>
          (atDepth depth (ofEntries? entries), rest)
    | cs => (readNumber cs).map fun (text, rest) => (.number (String.ofList text), rest)

/-- One or more items, with the bracket that closes them. -/
def readItems : Nat → Nat → List Char → Option (List Json × List Char)
  | 0, _, _ => none
  | steps + 1, depth, cs =>
    match read steps depth cs with
    | none => none
    | some (j, rest) =>
      match skipBlank rest with
      | ']' :: rest => some ([j], rest)
      | ',' :: rest => (readItems steps depth rest).map fun (js, rest) => (j :: js, rest)
      | _ => none

/-- One or more entries, with the brace that closes them. -/
def readEntries : Nat → Nat → List Char → Option (List (Option String × Json) × List Char)
  | 0, _, _ => none
  | steps + 1, depth, cs =>
    match skipBlank cs with
    | '"' :: cs =>
      match readString cs with
      | none => none
      | some (key, rest) =>
        match skipBlank rest with
        | ':' :: rest =>
          match read steps depth rest with
          | none => none
          | some (j, rest) =>
            match skipBlank rest with
            | '\x7d' :: rest => some ([(key, j)], rest)
            | ',' :: rest =>
              (readEntries steps depth rest).map fun (entries, rest) => ((key, j) :: entries, rest)
            | _ => none
        | _ => none
    | _ => none

end

/-- The value that a whole text stands for. -/
def parse (text : String) : Option Json :=
  let cs := text.toList
  match read (2 * cs.length + 2) maxDepth cs with
  | some (j, rest) => if (skipBlank rest).isEmpty then some j else none
  | none => none

end QueryCraft.Json
