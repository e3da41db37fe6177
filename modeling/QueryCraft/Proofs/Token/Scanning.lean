import QueryCraft.Proofs.Number.Decimal
import QueryCraft.Proofs.Text.Escaping

/-!
The tokens of a text, read off piece by piece: what an ignored character, a punctuator, a name, a
number or a string in front of a text contributes to the tokens of the whole.
-/

namespace QueryCraft

namespace Lexeme

/-- The tokens of a text, however deep its brackets nest. -/
def tokens? (cs : List Char) : Option (List Token) :=
  (ofText? cs).map (·.map token)

/-- Behind the gap stands a token, and the tokens of what follows it. Gaps leave no trace. -/
theorem tokens?_eq (cs : List Char) :
    tokens? cs =
      if (splitGap false cs).2.isEmpty then some []
      else (cut? (splitGap false cs).2).bind fun (t, _, after) => (tokens? after).map (t :: ·) := by
  unfold tokens?
  rw [ofText?]
  split
  · rfl
  · split
    · next h => rw [h]; rfl
    · next t text after h =>
      simp only [h, Option.bind_some, Option.map_map]
      rfl

/-- Holds of the texts in front of which every name and number ends. -/
def isBoundary : List Char → Bool
  | [] => true
  | c :: _ => endsNumber c

theorem tokens?_nil : tokens? [] = some [] := by
  rw [tokens?_eq]
  rfl

theorem tokens?_ignored {c : Char} (cs : List Char) (h : isIgnored c = true) (hc : c ≠ '#') :
    tokens? (c :: cs) = tokens? cs := by
  have hgap : (splitGap false (c :: cs)).2 = (splitGap false cs).2 := by
    have hcomment : (c == '#') = false := by simp [hc]
    simp [splitGap, h, hcomment]
  rw [tokens?_eq, tokens?_eq cs, hgap]

@[simp] theorem tokens?_space (cs : List Char) : tokens? (' ' :: cs) = tokens? cs :=
  tokens?_ignored cs (by decide) (by decide)

@[simp] theorem tokens?_comma (cs : List Char) : tokens? (',' :: cs) = tokens? cs :=
  tokens?_ignored cs (by decide) (by decide)

@[simp] theorem tokens?_newline (cs : List Char) : tokens? ('\n' :: cs) = tokens? cs :=
  tokens?_ignored cs (by decide) (by decide)

/-- Spaces in front of a text do not change its tokens. -/
theorem tokens?_spaces (n : Nat) (cs : List Char) :
    tokens? (List.replicate n ' ' ++ cs) = tokens? cs := by
  induction n with
  | zero => rfl
  | succ n ih => rw [List.replicate_succ, List.cons_append, tokens?_space, ih]

/-- A token that starts a text is the first of its tokens. -/
theorem tokens?_cut {c : Char} {cs rest : List Char} {t : Token} (text : List Char)
    (hc : isIgnored c = false) (hhash : c ≠ '#') (h : cut? (c :: cs) = some (t, text, rest)) :
    tokens? (c :: cs) = (tokens? rest).map (t :: ·) := by
  have hgap : (splitGap false (c :: cs)).2 = c :: cs := by
    simp [splitGap, hc, hhash]
  rw [tokens?_eq, hgap, h]
  rfl

theorem ne_of_class {p : Char → Bool} {c d : Char} (h : p c = true) (hd : p d = false) :
    c ≠ d := by
  rintro rfl
  rw [h] at hd
  contradiction

/-- A class without the ignored characters has none of them in it. -/
theorem isIgnored_of_class {p : Char → Bool} {c : Char} (h : p c = true)
    (hp : [' ', '\t', '\n', '\r', ',', '\uFEFF'].any p = false) : isIgnored c = false := by
  have hne : ∀ d ∈ [' ', '\t', '\n', '\r', ',', '\uFEFF'], c ≠ d := by
    intro d hd
    rw [List.any_eq_false] at hp
    exact ne_of_class h (by simpa using hp d hd)
  simp only [List.forall_mem_cons] at hne
  simp [isIgnored, hne]

/-- A punctuator stands for itself, whatever follows it. -/
theorem tokens?_punctuator {c : Char} {t : Token} (cs : List Char)
    (h : Token.punctuator? c = some t) : tokens? (c :: cs) = (tokens? cs).map (t :: ·) := by
  have hclass : (Token.punctuator? c).isSome = true := by rw [h]; rfl
  have hne (d : Char) (hd : (Token.punctuator? d).isSome = false) : c ≠ d :=
    ne_of_class (p := fun c => (Token.punctuator? c).isSome) hclass hd
  have hignored : isIgnored c = false :=
    isIgnored_of_class (p := fun c => (Token.punctuator? c).isSome) hclass rfl
  apply tokens?_cut [c] hignored (hne '#' rfl)
  rw [cut?]
  · simp only [h]
  · exact fun _ hdot _ => hne '.' rfl hdot
  · exact fun _ hquote _ => hne '"' rfl hquote
  · exact hne '"' rfl

/-- Names, numbers and strings start with no punctuator. -/
theorem punctuator?_eq_none {c : Char} (h : endsNumber c = false) : Token.punctuator? c = none := by
  simp only [endsNumber, Bool.or_eq_false_iff, beq_eq_false_iff_ne] at h
  simp [Token.punctuator?, h]

theorem endsNumber_of_isNamePart {c : Char} (h : Text.isNamePart c = true) :
    endsNumber c = false := by
  cases hc : endsNumber c with
  | false => rfl
  | true =>
    simp only [endsNumber, Bool.or_eq_true, beq_iff_eq] at hc
    rcases hc with (((((((((((((((((rfl | rfl) | rfl) | rfl) | rfl) | rfl) | rfl) | rfl) | rfl) |
      rfl) | rfl) | rfl) | rfl) | rfl) | rfl) | rfl) | rfl) | rfl) | rfl <;> revert h <;> decide

theorem isNamePart_of_endsNumber (c : Char) (h : endsNumber c = true) :
    Text.isNamePart c = false := by
  cases hname : Text.isNamePart c with
  | false => rfl
  | true =>
    rw [endsNumber_of_isNamePart hname] at h
    contradiction

/-- A run of characters in which nothing ends a number ends at a boundary, if not before. -/
theorem span_append_boundary {p : Char → Bool} (hp : ∀ c, endsNumber c = true → p c = false)
    (cs : List Char) {rest : List Char} (hrest : isBoundary rest = true) :
    (cs ++ rest).takeWhile p = cs.takeWhile p ∧
      (cs ++ rest).dropWhile p = cs.dropWhile p ++ rest := by
  induction cs with
  | nil =>
    cases rest with
    | nil => exact ⟨rfl, rfl⟩
    | cons c rest => simp [hp c hrest]
  | cons c cs ih =>
    by_cases hc : p c = true
    · simp [hc, ih]
    · simp [hc]

/-- A run of characters ends at a boundary and not before. -/
theorem span_boundary {p : Char → Bool} {cs rest : List Char} (hcs : ∀ c ∈ cs, p c = true)
    (hp : ∀ c, endsNumber c = true → p c = false) (hrest : isBoundary rest = true) :
    (cs ++ rest).takeWhile p = cs ∧ (cs ++ rest).dropWhile p = rest := by
  obtain ⟨htake, hdrop⟩ := span_append_boundary hp [] hrest
  rw [List.nil_append] at htake hdrop
  rw [List.takeWhile_append_of_pos hcs, List.dropWhile_append_of_pos hcs, htake, hdrop]
  exact ⟨List.append_nil cs, rfl⟩

/-- A name in front of a boundary is one token. -/
theorem tokens?_name {s : String} {rest : List Char} (hs : Text.isName s = true)
    (hrest : isBoundary rest = true) :
    tokens? (s.toList ++ rest) = (tokens? rest).map (Token.name s :: ·) := by
  unfold Text.isName at hs
  split at hs
  · simp at hs
  · next c cs hcs =>
    simp only [Bool.and_eq_true, List.all_eq_true] at hs
    obtain ⟨hstart, hpart⟩ := hs
    have hne (d : Char) (hd : Text.isNameStart d = false) : c ≠ d := ne_of_class hstart hd
    have hpunctuator : Token.punctuator? c = none :=
      punctuator?_eq_none (endsNumber_of_isNamePart (Text.isNamePart_of_isNameStart hstart))
    obtain ⟨htake, hdrop⟩ := span_boundary hpart isNamePart_of_endsNumber hrest
    have hname : String.ofList (c :: cs) = s := by rw [← hcs, String.ofList_toList]
    rw [hcs, List.cons_append]
    apply tokens?_cut (c :: cs) (isIgnored_of_class hstart rfl) (hne '#' rfl)
    rw [cut?]
    · simp only [hpunctuator, hstart, htake, hdrop, hname, if_true]
    · exact fun _ hdot _ => hne '.' rfl hdot
    · exact fun _ hquote _ => hne '"' rfl hquote
    · exact hne '"' rfl

theorem tokens?_name_alone {s : String} (hs : Text.isName s = true) :
    tokens? s.toList = some [.name s] := by
  have h : tokens? (s.toList ++ []) = (tokens? []).map (Token.name s :: ·) := tokens?_name hs rfl
  rwa [List.append_nil, tokens?_nil] at h

theorem isNameStart_of_isDigit {c : Char} (h : c.isDigit = true) : Text.isNameStart c = false := by
  rw [Char.isDigit_iff_toNat] at h
  have hunderscore : c ≠ '_' := by
    rintro rfl
    revert h
    decide
  rw [Text.isNameStart]
  delta Char.isAlpha Char.isUpper Char.isLower
  simp only [UInt32.le_iff_toNat_le, ge_iff_le, Bool.or_eq_false_iff, Bool.and_eq_false_iff,
    beq_eq_false_iff_ne, decide_eq_false_iff_not]
  simp only [Char.toNat] at h
  refine ⟨hunderscore, ?_⟩
  simp at h ⊢
  omega

theorem isNamePart_of_isDigit {c : Char} (h : c.isDigit = true) : Text.isNamePart c = true := by
  simp [Text.isNamePart, Char.isAlphanum, h]

/-- The text of a 64-bit number is the number's token. -/
theorem numberToken?_intDigits (n : Int64) :
    numberToken? (Number.intDigits n.toInt) = some (.int n) := by
  have hdigit (d : Char) (hd : d.isDigit = true) : (isPoint d || isExponentMark d) = false := by
    simp [isPoint, isExponentMark, ne_of_class (p := Char.isDigit) hd (d := '.') rfl,
      ne_of_class (p := Char.isDigit) hd (d := 'e') rfl,
      ne_of_class (p := Char.isDigit) hd (d := 'E') rfl]
  have hmark :
      ¬(Number.intDigits n.toInt).any (fun c => isPoint c || isExponentMark c) = true := by
    obtain ⟨c, cs, hcs, hc, hdigits⟩ := Number.intDigits_cons n.toInt
    intro hany
    obtain ⟨d, hd, hmark⟩ := List.any_eq_true.mp hany
    have hcases : d = '-' ∨ d.isDigit = true := by
      rw [hcs] at hd
      rcases List.mem_cons.mp hd with rfl | hd
      · exact hc
      · exact .inr (hdigits d hd)
    rcases hcases with rfl | hd
    · have hminus : (isPoint '-' || isExponentMark '-') = false := rfl
      rw [hminus] at hmark
      exact Bool.false_ne_true hmark
    · rw [hdigit d hd] at hmark
      exact Bool.false_ne_true hmark
  rw [numberToken?, if_neg hmark, if_pos (Number.isWhole_intDigits n.toInt),
    Number.int64?_intDigits]
  rfl

theorem numberToken?_cases {cs : List Char} {t : Token} (h : numberToken? cs = some t) :
    (∃ n, t = .int n) ∨ ∃ x, t = .float x := by
  unfold numberToken? at h
  split at h
  · split at h
    · obtain ⟨x, -, rfl⟩ := Option.map_eq_some_iff.mp h
      exact .inr ⟨x, rfl⟩
    · contradiction
  · split at h
    · obtain ⟨n, -, rfl⟩ := Option.map_eq_some_iff.mp h
      exact .inl ⟨n, rfl⟩
    · contradiction

/-- A minus or a digit, and behind it nothing that ends a number. -/
def IsNumeral (text : List Char) : Prop :=
  ∃ c cs, text = c :: cs ∧ (c = '-' ∨ c.isDigit = true) ∧ ∀ d ∈ cs, endsNumber d = false

/-- What starts like a number and does not end is read as one token or not at all. -/
theorem tokens?_numeral {text rest : List Char} (h : IsNumeral text)
    (hrest : isBoundary rest = true) :
    tokens? (text ++ rest) =
      (numberToken? text).bind fun t => (tokens? rest).map (t :: ·) := by
  obtain ⟨c, cs, rfl, hc, hcs⟩ := h
  have hstart : (c == '-' || c.isDigit) = true := by simpa using hc
  have hne (d : Char) (hd : (d == '-' || d.isDigit) = false) : c ≠ d :=
    ne_of_class (p := fun c => c == '-' || c.isDigit) hstart hd
  have hends : endsNumber c = false := by
    rcases hc with rfl | hc
    · decide
    · exact endsNumber_of_isNamePart (isNamePart_of_isDigit hc)
  have hnoname : Text.isNameStart c = false := by
    rcases hc with rfl | hc
    · decide
    · exact isNameStart_of_isDigit hc
  obtain ⟨htake, hdrop⟩ := span_boundary (p := fun d => !endsNumber d)
    (fun d (hd : d ∈ cs) => by simp [hcs d hd]) (fun d hd => by simp [hd]) hrest
  have hcut : cut? (c :: (cs ++ rest)) =
      (numberToken? (c :: cs)).map fun token => (token, c :: cs, rest) := by
    rw [cut?]
    · simp [punctuator?_eq_none hends, hnoname, hc, htake, hdrop]
    · exact fun _ hdot _ => hne '.' rfl hdot
    · exact fun _ hquote _ => hne '"' rfl hquote
    · exact hne '"' rfl
  have hgap : (splitGap false (c :: (cs ++ rest))).2 = c :: (cs ++ rest) := by
    have hignored : isIgnored c = false :=
      isIgnored_of_class (p := fun c => c == '-' || c.isDigit) hstart rfl
    simp [splitGap, hignored, hne '#' rfl]
  rw [List.cons_append, tokens?_eq, hgap, hcut]
  simp only [List.isEmpty_cons, Bool.false_eq_true, if_false, Option.bind_map]
  rfl

theorem tokens?_numeral_alone {text : List Char} (h : IsNumeral text) :
    tokens? text = (numberToken? text).map ([·]) := by
  have halone : tokens? (text ++ []) =
      (numberToken? text).bind fun t => (tokens? []).map (t :: ·) := tokens?_numeral h rfl
  rw [List.append_nil, tokens?_nil] at halone
  rw [halone]
  cases numberToken? text <;> rfl

/-- The text of a 64-bit number is one token in front of a boundary. -/
theorem tokens?_int (n : Int64) {rest : List Char} (hrest : isBoundary rest = true) :
    tokens? (Number.intDigits n.toInt ++ rest) = (tokens? rest).map (Token.int n :: ·) := by
  obtain ⟨c, cs, hcs, hc, hdigits⟩ := Number.intDigits_cons n.toInt
  have hnumeral : IsNumeral (Number.intDigits n.toInt) :=
    ⟨c, cs, hcs, hc, fun d hd => endsNumber_of_isNamePart (isNamePart_of_isDigit (hdigits d hd))⟩
  rw [tokens?_numeral hnumeral hrest, numberToken?_intDigits]
  rfl

/-- A quoted text is one token. The boundary keeps the two quotes of an empty text apart from a
third one. -/
theorem tokens?_string (s : String) {rest : List Char} (hrest : isBoundary rest = true) :
    tokens? (Text.Quoted.write s.toList ++ rest) =
      (tokens? rest).map (Token.string (String.ofList (s.toList.map Text.Quoted.reread)) :: ·) := by
  have hsplit := Text.Quoted.splitQuoted_write s.toList rest
  have hread := Text.Quoted.read?_write s.toList
  have htext : Text.Quoted.write s.toList ++ rest =
      '"' :: (s.toList.flatMap Text.Quoted.escape ++ '"' :: rest) := by
    simp [Text.Quoted.write]
  rw [htext]
  apply tokens?_cut (Text.Quoted.write s.toList) (by decide) (by decide)
  rw [cut?]
  · simp [hsplit, hread, Text.Quoted.write]
  · intro cs heq
    rw [heq, Lexeme.splitQuoted, Option.some.injEq, Prod.mk.injEq] at hsplit
    rw [← hsplit.2] at hrest
    revert hrest
    simp [isBoundary, endsNumber]

end Lexeme

/-- Whatever the text, its tokens are refused if their brackets nest too deep. -/
theorem Token.ofText?_eq_filter (cs : List Char) :
    ofText? cs = (Lexeme.tokens? cs).filter (nestWithin maxNesting) := by
  unfold ofText? Lexeme.tokens?
  cases Lexeme.ofText? cs with
  | none => rfl
  | some lexemes => rfl

theorem Token.ofText?_eq_some_iff {cs : List Char} {ts : List Token} :
    ofText? cs = some ts ↔ Lexeme.tokens? cs = some ts ∧ nestWithin maxNesting ts = true := by
  rw [ofText?_eq_filter, Option.filter_eq_some_iff]

end QueryCraft
