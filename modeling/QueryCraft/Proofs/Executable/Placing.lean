import QueryCraft.Proofs.Document.RoundTrip

/-!
The text of a value, placed where the value of an argument stands. Around it, a query with a single
field is spelled, so what is known of fields says how it is read.
-/

namespace QueryCraft

namespace Field

/-- The text of a query whose only selection is the field. -/
def queryChars (f : Field) : List Char :=
  '\x7b' :: ' ' :: (f.chars ++ [' ', '\x7d'])

def queryTokens (f : Field) : List Token :=
  .braceL :: (f.tokens ++ [.braceR])

/-- The definitions of a query whose only selection is the field. -/
def asQuery (f : Field) : List Executable.Definition :=
  [.shorthand [.field f []]]

variable {f : Field}

theorem tokens?_queryChars (h : f.isPrintable = true) :
    Lexeme.tokens? f.queryChars =
      if f.allArguments.all Argument.isLegible then some (f.map Argument.reread).queryTokens
      else none := by
  have hclose : Spells [' ', '\x7d'] true [.braceR] := .space (.punctuator rfl .nil)
  have hfield := (spells h).append hclose rfl
  have hquery := (hfield.space.punctuator (c := '\x7b') rfl) [] rfl
  rw [queryChars, ← List.append_nil (_ :: _), hquery, Lexeme.tokens?_nil, Bool.and_true]
  simp [queryTokens]

theorem nestWithin_queryTokens (f : Field) (budget : Nat) :
    Token.nestWithin budget f.queryTokens = decide (f.nesting + 1 ≤ budget) := by
  have hnests := (f.nests.bracketed (l := .braceL) (r := .braceR) rfl) budget []
  rwa [List.append_nil, Token.nestWithin, Bool.and_true] at hnests

theorem parseAll_queryTokens (h : f.isPrintable = true) :
    Executable.Definition.parseAll (Executable.stepsFor f.queryTokens) f.queryTokens =
      some (f.map Argument.sorted).asQuery := by
  obtain ⟨steps, hsteps⟩ : ∃ n, Executable.stepsFor f.queryTokens = n + 3 := ⟨_, rfl⟩
  have hends : Token.endsField [.braceR] = true := rfl
  have henough : f.tokens.length ≤ steps + 1 := by
    simp only [Executable.stepsFor, queryTokens, List.length_cons, List.length_append,
      List.length_nil] at hsteps
    omega
  obtain ⟨first, rest, htokens, hparse⟩ :=
    Executable.parseField_tokens (readBy h) steps hends henough
  have hselection : Executable.Selection.parse (steps + 1) (.name first :: rest) =
      some (.field (f.map Argument.sorted) [], [.braceR]) := by
    rw [Executable.Selection.parse, hparse]
  rw [hsteps, queryTokens, htokens, Executable.Definition.parseAll, Executable.Definition.parse,
    Executable.Selection.parseList, hselection]
  rfl

/-- What the text of a printable field is read as in a query of its own. -/
theorem ofText?_queryChars (h : f.isPrintable = true) :
    Executable.ofText? f.queryChars =
      if f.allArguments.all Argument.isLegible && decide (f.nesting + 1 ≤ Token.maxNesting) then
        some ((f.map Argument.reread).map Argument.sorted).asQuery
      else none := by
  have hnest := (f.map Argument.reread).nestWithin_queryTokens Token.maxNesting
  rw [nesting_reread] at hnest
  rw [Executable.ofText?, Token.ofText?_eq_filter, tokens?_queryChars h]
  cases f.allArguments.all Argument.isLegible with
  | false => rfl
  | true =>
    rw [if_pos rfl, Option.filter_some, hnest, Bool.true_and]
    cases decide (f.nesting + 1 ≤ Token.maxNesting) with
    | false => rfl
    | true =>
      have hreread : (f.map Argument.reread).isPrintable = true :=
        isPrintable_map h fun a ha => Argument.isPrintable_reread (isPrintable_of_mem h ha)
      exact parseAll_queryTokens hreread

end Field

namespace Value

/-- A query whose only field has one argument, and the text in the place of its value. -/
def argumentText (raw : List Char) : List Char :=
  "\x7b f(v: ".toList ++ raw ++ ") \x7d".toList

/-- The field with the value for its only argument. -/
def asField (v : Value) : Field :=
  ⟨none, "f", [⟨"v", v⟩], []⟩

variable {v : Value}

theorem argumentText_eq (raw : List Char) :
    argumentText raw =
      '\x7b' :: ' ' :: 'f' :: '(' :: 'v' :: ':' :: ' ' :: (raw ++ [')', ' ', '\x7d']) :=
  List.append_assoc _ raw _

theorem argumentText_chars (v : Value) : argumentText v.chars = v.asField.queryChars := by
  simp [argumentText_eq, Field.queryChars, asField, Field.chars, Field.aliasChars,
    Argument.groupChars, Argument.listChars, Argument.chars, Directive.listChars]

theorem isPrintable_asField (h : v.isPrintable = true) : v.asField.isPrintable = true := by
  have hfield : Text.isName "f" = true := by decide
  have hargument : Text.isName "v" = true := by decide
  simp [asField, Field.isPrintable, Argument.isPrintable, hfield, hargument, h]

theorem nesting_asField (v : Value) : v.asField.nesting = v.nesting + 1 := by
  simp [asField, Field.nesting, Argument.groupNesting, Directive.listNesting, deepest]

/-- What the text of a printable value is read as where the value of an argument stands. -/
theorem ofText?_argumentText_chars (h : v.isPrintable = true) :
    Executable.ofText? (argumentText v.chars) =
      if v.everywhere isLegible && decide (v.nesting + 2 ≤ Token.maxNesting) then
        some v.reread.sorted.asField.asQuery
      else none := by
  have hlegible : v.asField.allArguments.all Argument.isLegible = v.everywhere isLegible :=
    Bool.and_true _
  rw [argumentText_chars, Field.ofText?_queryChars (isPrintable_asField h), hlegible,
    nesting_asField]
  rfl

/-- The text of a printable value, in the place of an argument's value, is read as one argument with
the same value exactly if its brackets are within the bound and every scalar in it reads back. -/
theorem exists_ofText?_same_iff (hprintable : v.isPrintable = true)
    (hkeys : v.everywhere isKeyed = true) :
    (∃ w : Value, Executable.ofText? (argumentText v.chars) = some w.asField.asQuery ∧
        w.same v = true) ↔
      v.nesting + 2 ≤ Token.maxNesting ∧ v.everywhere readsBack = true := by
  have htext := ofText?_argumentText_chars hprintable
  constructor
  · rintro ⟨w, hread, hsame⟩
    rw [htext] at hread
    split at hread
    · next hreadable =>
      obtain rfl : v.reread.sorted = w := by simpa [Field.asQuery, asField] using hread
      rw [Bool.and_eq_true, decide_eq_true_eq] at hreadable
      exact ⟨hreadable.2, (same_sorted_reread_iff hkeys).mp hsame⟩
    · contradiction
  · rintro ⟨hnesting, hback⟩
    refine ⟨v.reread.sorted, ?_, (same_sorted_reread_iff hkeys).mpr hback⟩
    rw [htext, isLegible_of_readsBack hback, decide_eq_true hnesting]
    rfl

/-- A filter with a quote, a control character and a character beyond the basic plane in it. -/
private def filter : Value :=
  .object [("q", .string "a\"\\\u0001\n😀"), ("in", .list [.enum "OPEN", .null, .var "more"]),
    ("max", .int (-9223372036854775808))]

theorem exists_ofText?_same_filter :
    ∃ w : Value, Executable.ofText? (argumentText filter.chars) = some w.asField.asQuery ∧
      w.same filter = true :=
  (exists_ofText?_same_iff (v := filter) (by decide) (by decide)).mpr (by decide)

/-- A backspace is written as an escape that is read as another character. -/
theorem ofText?_differs_backspace :
    Executable.ofText? (argumentText (string "\x08").chars) =
        some (string "\x10").asField.asQuery ∧
      same (.string "\x10") (.string "\x08") = false := by
  constructor
  · rw [ofText?_argumentText_chars rfl]
    rfl
  · rfl

end Value

end QueryCraft
