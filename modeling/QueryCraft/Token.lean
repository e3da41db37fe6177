import QueryCraft.Value

/-!
Tokens of documents and schemas, and the bound on how deep their brackets nest.
-/

namespace QueryCraft

inductive Token where
  | parenL
  | parenR
  | bracketL
  | bracketR
  | braceL
  | braceR
  | bang
  | dollar
  | colon
  | equals
  | atSign
  | pipe
  | amp
  | spread
  | name (s : String)
  | int (n : Int64)
  | float (x : Float)
  | string (text : String)

namespace Token

def punctuator? (c : Char) : Option Token :=
  if c = '(' then some .parenL
  else if c = ')' then some .parenR
  else if c = '[' then some .bracketL
  else if c = ']' then some .bracketR
  else if c = '\x7b' then some .braceL
  else if c = '\x7d' then some .braceR
  else if c = '!' then some .bang
  else if c = '$' then some .dollar
  else if c = ':' then some .colon
  else if c = '=' then some .equals
  else if c = '@' then some .atSign
  else if c = '|' then some .pipe
  else if c = '&' then some .amp
  else none

/-- Holds if no opening bracket comes when `budget` of them are open already. -/
def nestWithin : Nat → List Token → Bool
  | _, [] => true
  | budget, .parenL :: ts | budget, .bracketL :: ts | budget, .braceL :: ts =>
    match budget with
    | 0 => false
    | n + 1 => nestWithin n ts
  | budget, .parenR :: ts | budget, .bracketR :: ts | budget, .braceR :: ts =>
    nestWithin (budget + 1) ts
  | budget, _ :: ts => nestWithin budget ts

/-- How many brackets may be open at once. -/
def maxNesting : Nat := 50

end Token

end QueryCraft
