import QueryCraft.Token
import QueryCraft.Number.Read
import QueryCraft.Text.Block
import QueryCraft.Text.Quoted

/-!
Cutting a text into lexemes: a gap of ignored characters, the text of a token, and the token. The
gaps and texts together are the input, so positions are counted on them afterwards.
-/

namespace QueryCraft

structure Lexeme where
  gap : List Char
  text : List Char
  token : Token

namespace Lexeme

def isIgnored (c : Char) : Bool :=
  c == ' ' || c == '\t' || c == '\n' || c == '\r' || c == ',' || c == '\uFEFF'

def endsComment (c : Char) : Bool :=
  c == '\n' || c == '\r'

/-- The ignored characters in front of a text, with its comments, and the rest. The flag says
whether the text starts inside a comment. -/
def splitGap : Bool → List Char → List Char × List Char
  | _, [] => ([], [])
  | true, c :: cs =>
    let (gap, rest) := splitGap (!endsComment c) cs
    (c :: gap, rest)
  | false, c :: cs =>
    if c = '#' ∨ isIgnored c then
      let (gap, rest) := splitGap (c == '#') cs
      (c :: gap, rest)
    else
      ([], c :: cs)

/-- The body of a string and what follows its closing quote. -/
def splitQuoted : List Char → Option (List Char × List Char)
  | [] => none
  | '"' :: rest => some ([], rest)
  | '\\' :: c :: cs =>
    if c = '\n' then none
    else (splitQuoted cs).map fun (body, rest) => ('\\' :: c :: body, rest)
  | c :: cs =>
    if c = '\n' then none
    else (splitQuoted cs).map fun (body, rest) => (c :: body, rest)

/-- The body of a block string and what follows its closing quotes. -/
def splitBlock : List Char → Option (List Char × List Char)
  | [] => none
  | '\\' :: '"' :: '"' :: '"' :: cs =>
    (splitBlock cs).map fun (body, rest) => (Text.Block.escapedQuotes ++ body, rest)
  | '"' :: '"' :: '"' :: rest => some ([], rest)
  | c :: cs => (splitBlock cs).map fun (body, rest) => (c :: body, rest)

/-- Holds of the characters that end the text of a number. -/
def endsNumber (c : Char) : Bool :=
  c == ' ' || c == '\n' || c == '\r' || c == '\t' || c == ',' || c == '#' || c == '!' || c == '$' ||
    c == ':' || c == '=' || c == '@' || c == '|' || c == '&' || c == '(' || c == ')' ||
    c == '[' || c == ']' || c == '\x7b' || c == '\x7d'

def isWholeUnsigned : List Char → Bool
  | [] => false
  | ['0'] => true
  | c :: cs => '1' ≤ c && c ≤ '9' && cs.all Char.isDigit

/-- Digits without a zero in front, behind an optional minus. -/
def isWhole : List Char → Bool
  | '-' :: cs => isWholeUnsigned cs
  | cs => isWholeUnsigned cs

/-- What stands in front of and behind the last character with the property `p`. -/
def splitLast (p : Char → Bool) : List Char → Option (List Char × List Char)
  | [] => none
  | c :: cs =>
    match splitLast p cs with
    | some (front, back) => some (c :: front, back)
    | none => if p c then some ([], cs) else none

def isPoint (c : Char) : Bool :=
  c == '.'

def isExponentMark (c : Char) : Bool :=
  c == 'e' || c == 'E'

/-- A whole number, then perhaps a point and digits. -/
def isMantissa (cs : List Char) : Bool :=
  match splitLast isPoint cs with
  | some (whole, fraction) => isWhole whole && !fraction.isEmpty && fraction.all Char.isDigit
  | none => isWhole cs

/-- A sign or a digit from 1 to 8, then digits. -/
def isExponent : List Char → Bool
  | [] => false
  | c :: cs => (c == '+' || c == '-' || ('1' ≤ c && c ≤ '8')) && cs.all Char.isDigit

def isFloat (cs : List Char) : Bool :=
  match splitLast isExponentMark cs with
  | some (mantissa, exponent) => isMantissa mantissa && isExponent exponent
  | none => isMantissa cs

/-- The token that the text of a number stands for. -/
def numberToken? (cs : List Char) : Option Token :=
  if cs.any (fun c => isPoint c || isExponentMark c) then
    if isFloat cs then (Number.float? cs).map Token.float else none
  else
    if isWhole cs then (Number.int64? cs).map Token.int else none

/-- The token at the front of a text, its characters and the rest. -/
def cut? : List Char → Option (Token × List Char × List Char)
  | [] => none
  | '.' :: '.' :: '.' :: rest => some (.spread, ['.', '.', '.'], rest)
  | '"' :: '"' :: '"' :: cs =>
    (splitBlock cs).map fun (body, rest) =>
      (.string (String.ofList (Text.Block.read body)),
        Text.Block.quotes ++ body ++ Text.Block.quotes, rest)
  | '"' :: cs =>
    match splitQuoted cs with
    | none => none
    | some (body, rest) =>
      (Text.Quoted.read? body).map fun text =>
        (.string (String.ofList text), '"' :: (body ++ ['"']), rest)
  | c :: cs =>
    match Token.punctuator? c with
    | some token => some (token, [c], cs)
    | none =>
      if Text.isNameStart c then
        let text := c :: cs.takeWhile Text.isNamePart
        some (.name (String.ofList text), text, cs.dropWhile Text.isNamePart)
      else if c = '-' ∨ c.isDigit then
        let text := c :: cs.takeWhile (fun d => !endsNumber d)
        (numberToken? text).map fun token => (token, text, cs.dropWhile (fun d => !endsNumber d))
      else
        none

theorem splitGap_append (inComment : Bool) (cs : List Char) :
    (splitGap inComment cs).1 ++ (splitGap inComment cs).2 = cs := by
  induction cs generalizing inComment with
  | nil => cases inComment <;> rfl
  | cons c cs ih =>
    cases inComment with
    | true => simp [splitGap, ih]
    | false =>
      simp only [splitGap]
      split
      · simp [ih]
      · rfl

theorem splitQuoted_append {cs body rest : List Char} (h : splitQuoted cs = some (body, rest)) :
    body ++ '"' :: rest = cs := by
  fun_induction splitQuoted cs generalizing body with
  | case1 => simp at h
  | case2 => simp_all
  | case3 => simp at h
  | case4 c cs hc ih =>
    simp only [Option.map_eq_some_iff, Prod.mk.injEq, Prod.exists] at h
    obtain ⟨b, r, hb, rfl, rfl⟩ := h
    simp [ih hb]
  | case5 => simp at h
  | case6 c cs _ _ hc ih =>
    simp only [Option.map_eq_some_iff, Prod.mk.injEq, Prod.exists] at h
    obtain ⟨b, r, hb, rfl, rfl⟩ := h
    simp [ih hb]

theorem splitBlock_append {cs body rest : List Char} (h : splitBlock cs = some (body, rest)) :
    body ++ (Text.Block.quotes ++ rest) = cs := by
  fun_induction splitBlock cs generalizing body with
  | case1 => simp at h
  | case2 cs ih =>
    simp only [Option.map_eq_some_iff, Prod.mk.injEq, Prod.exists] at h
    obtain ⟨b, r, hb, rfl, rfl⟩ := h
    simp [Text.Block.escapedQuotes, ih hb]
  | case3 => simp_all [Text.Block.quotes]
  | case4 c cs _ _ ih =>
    simp only [Option.map_eq_some_iff, Prod.mk.injEq, Prod.exists] at h
    obtain ⟨b, r, hb, rfl, rfl⟩ := h
    simp [ih hb]

/-- A token's characters and the rest are the text it was cut from. -/
theorem cut?_append {cs text rest : List Char} {token : Token}
    (h : cut? cs = some (token, text, rest)) : text ++ rest = cs := by
  unfold cut? at h
  split at h
  · simp at h
  · simp only [Option.some.injEq, Prod.mk.injEq] at h
    obtain ⟨_, rfl, rfl⟩ := h
    rfl
  · simp only [Option.map_eq_some_iff, Prod.mk.injEq, Prod.exists] at h
    obtain ⟨b, r, hb, _, rfl, rfl⟩ := h
    simp [Text.Block.quotes, ← splitBlock_append hb]
  · split at h
    · simp at h
    · next hb =>
      simp only [Option.map_eq_some_iff, Prod.mk.injEq] at h
      obtain ⟨_, _, _, rfl, rfl⟩ := h
      simp [← splitQuoted_append hb]
  · split at h
    · simp only [Option.some.injEq, Prod.mk.injEq] at h
      obtain ⟨_, rfl, rfl⟩ := h
      rfl
    · split at h
      · simp only [Option.some.injEq, Prod.mk.injEq] at h
        obtain ⟨_, rfl, rfl⟩ := h
        simp
      · split at h
        · simp only [Option.map_eq_some_iff, Prod.mk.injEq] at h
          obtain ⟨_, _, _, rfl, rfl⟩ := h
          simp
        · simp at h

/-- A token has at least one character. -/
theorem cut?_ne_nil {cs text rest : List Char} {token : Token}
    (h : cut? cs = some (token, text, rest)) : text ≠ [] := by
  unfold cut? at h
  split at h
  · simp at h
  · simp only [Option.some.injEq, Prod.mk.injEq] at h
    obtain ⟨_, rfl, rfl⟩ := h
    simp
  · simp only [Option.map_eq_some_iff, Prod.mk.injEq, Prod.exists] at h
    obtain ⟨b, r, hb, _, rfl, rfl⟩ := h
    simp [Text.Block.quotes]
  · split at h
    · simp at h
    · simp only [Option.map_eq_some_iff, Prod.mk.injEq] at h
      obtain ⟨_, _, _, rfl, rfl⟩ := h
      simp
  · split at h
    · simp only [Option.some.injEq, Prod.mk.injEq] at h
      obtain ⟨_, rfl, rfl⟩ := h
      simp
    · split at h
      · simp only [Option.some.injEq, Prod.mk.injEq] at h
        obtain ⟨_, rfl, rfl⟩ := h
        simp
      · split at h
        · simp only [Option.map_eq_some_iff, Prod.mk.injEq] at h
          obtain ⟨_, _, _, rfl, rfl⟩ := h
          simp
        · simp at h

theorem length_rest_lt {cs text rest : List Char} {token : Token}
    (h : cut? cs = some (token, text, rest)) : rest.length < cs.length := by
  have happend := congrArg List.length (cut?_append h)
  have hpos := List.length_pos_iff.2 (cut?_ne_nil h)
  simp only [List.length_append] at happend
  omega

/-- What follows a token behind a gap is shorter than the text from the gap on. -/
theorem length_after_lt {cs text after : List Char} {token : Token}
    (h : cut? (splitGap false cs).2 = some (token, text, after)) : after.length < cs.length := by
  have hcs := congrArg List.length (splitGap_append false cs)
  have hlt := length_rest_lt h
  simp only [List.length_append] at hcs
  omega

/-- The lexemes of a text; none if some part of it is no token. Ignored characters at the end belong
to no lexeme. -/
def ofText? (cs : List Char) : Option (List Lexeme) :=
  let gap := (splitGap false cs).1
  let rest := (splitGap false cs).2
  if rest.isEmpty then some []
  else
    match h : cut? rest with
    | none => none
    | some (token, text, after) =>
      have := length_after_lt h
      (ofText? after).map (⟨gap, text, token⟩ :: ·)
termination_by cs.length

end Lexeme

/-- The tokens of a text; none if some part of it is no token or its brackets nest too deep. -/
def Token.ofText? (cs : List Char) : Option (List Token) := do
  let lexemes ← Lexeme.ofText? cs
  let tokens := lexemes.map Lexeme.token
  if nestWithin maxNesting tokens then some tokens else none

end QueryCraft
