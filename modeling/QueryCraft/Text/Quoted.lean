import QueryCraft.Number.Digits

/-!
Quoted strings of a document. Writing escapes quotes, backslashes and control characters; reading
knows more escapes, and reads `\b` as U+0010.
-/

namespace QueryCraft.Text.Quoted

/-- Holds of the control characters (the general category `Cc`). -/
def isControl (c : Char) : Bool :=
  c.toNat < 0x20 || (0x7F ≤ c.toNat && c.toNat ≤ 0x9F)

/-- The written form of one character inside quotes. -/
def escape (c : Char) : List Char :=
  if c = '"' then ['\\', '"']
  else if c = '\\' then ['\\', '\\']
  else if c = '\n' then ['\\', 'n']
  else if c = '\r' then ['\\', 'r']
  else if c = '\t' then ['\\', 't']
  else if c = '\x08' then ['\\', 'b']
  else if c = '\x0C' then ['\\', 'f']
  else if isControl c then '\\' :: 'u' :: Number.hexQuad c.toNat
  else [c]

def write (text : List Char) : List Char :=
  '"' :: (text.flatMap escape ++ ['"'])

/-- The value of four characters after `\u`: hexadecimal digits, of which the first may be a plus
sign instead. -/
def codeOf? : List Char → Option Nat
  | '+' :: ds => Number.hexValue? ds
  | ds => Number.hexValue? ds

/-- What a backslash and the given character stand for. -/
def simpleEscape? (c : Char) : Option Char :=
  if c = '"' then some '"'
  else if c = '\\' then some '\\'
  else if c = '/' then some '/'
  else if c = 'n' then some '\n'
  else if c = 'r' then some '\r'
  else if c = 't' then some '\t'
  else if c = 'b' then some '\x10'
  else if c = 'f' then some '\x0C'
  else none

/-- The text that stands between quotes as `body`; none if an escape in it is unknown. -/
def read? : List Char → Option (List Char)
  | [] => some []
  | '\\' :: 'u' :: a :: b :: c :: d :: rest => do
    let code ← codeOf? [a, b, c, d]
    if code.isValidChar then
      let text ← read? rest
      some (Char.ofNat code :: text)
    else
      none
  | '\\' :: e :: rest => do
    let c ← simpleEscape? e
    let text ← read? rest
    some (c :: text)
  | ['\\'] => none
  | c :: rest => do
    let text ← read? rest
    some (c :: text)

end QueryCraft.Text.Quoted
