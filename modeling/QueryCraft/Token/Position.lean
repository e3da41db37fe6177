import QueryCraft.Token.Lexer

/-!
Positions of tokens, counted from 1 on the gaps and texts of lexemes. A tab counts as eight
columns; a carriage return and U+FEFF count none, and neither does a comment. The end of a comment
starts a line, so a comment in front of a carriage return and a line feed is followed by two line
starts.
-/

namespace QueryCraft

structure Position where
  line : Nat
  column : Nat
  deriving DecidableEq, Repr, Inhabited

namespace Position

def start : Position := ⟨1, 1⟩

def nextLine (p : Position) : Position :=
  ⟨p.line + 1, 1⟩

def move (p : Position) (columns : Nat) : Position :=
  { p with column := p.column + columns }

/-- The position behind one ignored character outside comments. -/
def passIgnored (p : Position) (c : Char) : Position :=
  if c = '\n' then p.nextLine
  else if c = '\t' then p.move 8
  else if c = ' ' ∨ c = ',' then p.move 1
  else p

/-- The position behind a gap. The flag says whether it starts inside a comment. -/
def passGap : Bool → Position → List Char → Position
  | _, p, [] => p
  | true, p, c :: cs =>
    if Lexeme.endsComment c then passGap false p.nextLine cs else passGap true p cs
  | false, p, c :: cs => passGap (c == '#') (p.passIgnored c) cs

/-- The position behind the text of a token. -/
def passText : Position → List Char → Position
  | p, [] => p
  | p, c :: cs => passText (if c = '\n' then p.nextLine else p.move 1) cs

end Position

/-- The positions at which the tokens of some lexemes start. -/
def Lexeme.positions : Position → List Lexeme → List Position
  | _, [] => []
  | p, l :: ls =>
    let here := p.passGap false l.gap
    here :: positions (here.passText l.text) ls

end QueryCraft
