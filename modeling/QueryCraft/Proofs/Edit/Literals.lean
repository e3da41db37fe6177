import QueryCraft.Edit.Coercion
import QueryCraft.Proofs.Document.Auxiliary
import QueryCraft.Proofs.Executable.Placing
import QueryCraft.Proofs.Token.Closing
import QueryCraft.Proofs.Value.Deriving

/-!
Which texts are taken for literals. The parser reads the tokens of a value from the front of the
text, and then it goes on with whatever can stand behind the value of an argument.
-/

namespace QueryCraft

namespace Executable

/-- Holds of the tokens that complete a field behind its arguments, and the query with it: directives
and perhaps a selection set. -/
def EndsField (ts : List Token) : Prop :=
  ∃ steps directives behind, Directive.parseList false steps ts = some (directives, behind) ∧
    (behind = [.braceR] ∨ ∃ es, Selection.parseSet steps behind = some (es, [.braceR]))

/-- Holds of the tokens that close the arguments of a field and complete it. -/
def EndsArgument (ts : List Token) : Prop :=
  ∃ more, ts = .parenR :: more ∧ EndsField more

theorem not_endsArgument_nil : ¬EndsArgument [] := by
  rintro ⟨more, h, -⟩
  contradiction

variable {steps : Nat} {ts rest : List Token}

theorem Selection.parseList_ne_nil : Selection.parseList steps ts ≠ some ([], rest) := by
  cases steps with
  | zero => simp [Selection.parseList]
  | succ steps =>
    unfold Selection.parseList
    split
    · simp
    · simp
    · split <;> simp

theorem argumentList_ne_nil {constant : Bool} :
    Argument.parseList constant steps ts ≠ some ([], rest) := by
  unfold Argument.parseList
  split
  · split
    · simp
    · simp
    · split <;> simp
  · simp

/-- A single argument is read from the tokens of a value in front of the closing parenthesis. -/
theorem parse_of_argumentList {name : String} {a : Argument}
    (h : Argument.parseList false steps (.name name :: .colon :: ts) = some ([a], rest)) :
    ∃ fewer, Value.parse false fewer ts = some (a.value, .parenR :: rest) := by
  cases steps with
  | zero => contradiction
  | succ fewer =>
    rw [Argument.parseList] at h
    split at h
    · contradiction
    · next value behind hparse =>
      obtain ⟨harguments, rfl⟩ := Prod.mk.inj (Option.some.inj h)
      obtain rfl := (List.cons.inj harguments).1
      exact ⟨fewer, hparse⟩
    · split at h
      · contradiction
      · next as behind' hparses =>
        obtain ⟨harguments, rfl⟩ := Prod.mk.inj (Option.some.inj h)
        obtain ⟨-, rfl⟩ := List.cons.inj harguments
        exact absurd hparses argumentList_ne_nil

theorem lists_of_parseField {first : String} {f : Field}
    (h : parseField steps first (.parenL :: ts) = some (f, rest)) :
    ∃ behind, Argument.parseList false steps ts = some (f.arguments, behind) ∧
      Directive.parseList false steps behind = some (f.directives, rest) := by
  rw [parseField] at h
  · rw [Argument.parseGroup] at h
    split at h
    · contradiction
    · next arguments behind hparse =>
      split at h
      · contradiction
      · next directives behind' hparses =>
        obtain ⟨rfl, rfl⟩ := Prod.mk.inj (Option.some.inj h)
        exact ⟨behind, hparse, hparses⟩
  · intro name ts' hcolon
    exact absurd (List.cons.inj hcolon).1 Token.noConfusion
  · intro ts' hcolon
    exact absurd (List.cons.inj hcolon).1 Token.noConfusion

theorem field_of_parse {first : String} {f : Field} {es : List Selection}
    (h : Selection.parse steps (.name first :: ts) = some (.field f es, rest)) :
    ∃ fewer behind, parseField fewer first ts = some (f, behind) ∧
      (behind = rest ∨ Selection.parseSet fewer behind = some (es, rest)) := by
  cases steps with
  | zero => contradiction
  | succ fewer =>
    rw [Selection.parse] at h
    split at h
    · contradiction
    · next g behind hparse =>
      split at h
      · contradiction
      · next es' behind' hparses =>
        obtain ⟨hfield, rfl⟩ := Prod.mk.inj (Option.some.inj h)
        obtain ⟨rfl, rfl⟩ := Selection.field.inj hfield
        exact ⟨fewer, .braceL :: behind, hparse, .inr hparses⟩
    · next g behind _ hparse =>
      obtain ⟨hfield, rfl⟩ := Prod.mk.inj (Option.some.inj h)
      obtain ⟨rfl, rfl⟩ := Selection.field.inj hfield
      exact ⟨fewer, behind, hparse, .inl rfl⟩

theorem parse_of_selectionList {e : Selection}
    (h : Selection.parseList steps ts = some ([e], rest)) :
    ∃ fewer, Selection.parse fewer ts = some (e, .braceR :: rest) := by
  cases steps with
  | zero => contradiction
  | succ fewer =>
    rw [Selection.parseList] at h
    split at h
    · contradiction
    · next e' behind hparse =>
      obtain ⟨hselections, rfl⟩ := Prod.mk.inj (Option.some.inj h)
      obtain rfl := (List.cons.inj hselections).1
      exact ⟨fewer, hparse⟩
    · split at h
      · contradiction
      · next es behind' hparses =>
        obtain ⟨hselections, rfl⟩ := Prod.mk.inj (Option.some.inj h)
        obtain ⟨-, rfl⟩ := List.cons.inj hselections
        exact absurd hparses Selection.parseList_ne_nil

theorem selections_of_parseAll {es : List Selection}
    (h : Definition.parseAll steps (.braceL :: ts) = some [.shorthand es]) :
    ∃ fewer, Selection.parseList fewer ts = some (es, []) := by
  cases steps with
  | zero => contradiction
  | succ fewer =>
    have hparse := Definition.parse_of_parseAll h
    rw [Definition.parse] at hparse
    split at hparse
    · contradiction
    · next es' behind hparses =>
      obtain ⟨hdefinition, rfl⟩ := Prod.mk.inj (Option.some.inj hparse)
      obtain rfl := Definition.shorthand.inj hdefinition
      exact ⟨fewer, hparses⟩

/-- A query whose only field has one argument is read from the tokens of a value, and of what
completes the field. -/
theorem value_of_parseAll {field argument : String} {f : Field} {a : Argument}
    {es : List Selection} (harguments : f.arguments = [a])
    (h : Definition.parseAll steps
      (.braceL :: .name field :: .parenL :: .name argument :: .colon :: ts) =
        some [.shorthand [.field f es]]) :
    ∃ fewer behind, Value.parse false fewer ts = some (a.value, behind) ∧ EndsArgument behind := by
  obtain ⟨n, hlist⟩ := selections_of_parseAll h
  obtain ⟨m, hselection⟩ := parse_of_selectionList hlist
  obtain ⟨k, behind, hfield, hset⟩ := field_of_parse hselection
  obtain ⟨more, hparse, hdirectives⟩ := lists_of_parseField hfield
  rw [harguments] at hparse
  obtain ⟨fewer, hvalue⟩ := parse_of_argumentList hparse
  have hends : behind = [.braceR] ∨ ∃ es, Selection.parseSet k behind = some (es, [.braceR]) :=
    hset.imp_right fun hset => ⟨es, hset⟩
  exact ⟨fewer, .parenR :: more, hvalue, more, rfl, k, f.directives, behind, hdirectives, hends⟩

end Executable

namespace Value

/-- The text consists of the tokens of the value and of nothing else, and neither variables nor
repeated keys are in it. The entries of objects are in the order in which they are written. -/
structure IsLiteral (raw : List Char) (v : Value) : Prop where
  printable : v.isPrintable = true
  keyed : v.everywhere isKeyed = true
  isConstant : v.isConstant = true
  tokens : Token.ofText? raw = some v.tokens

/-- Sorting the entries of objects with distinct keys neither hides a variable nor makes one up. -/
theorem isConstant_sorted_iff {v : Value} (hkeys : v.everywhere isKeyed = true) :
    v.sorted.isConstant = true ↔ v.isConstant = true := by
  induction v using inductOn with
  | list items ih =>
    have hitems := (everywhere_list.mp hkeys).2
    rw [sorted, sortedItems_eq_map, isConstant_list, isConstant_list, List.forall_mem_map]
    exact forall₂_congr fun v hv => ih v hv (hitems v hv)
  | object entries ih =>
    obtain ⟨hnodup, hentries⟩ := everywhere_object.mp hkeys
    simp only [isKeyed, decide_eq_true_eq] at hnodup
    have hperm := foldl_insertEntry_perm (entries.map fun e => (e.1, sorted e.2)) [] (by
      simpa [List.map_map, Function.comp_def] using hnodup)
    rw [sorted, sortedEntries_eq_map, sortedObject, isConstant_object, isConstant_object]
    simp only [hperm.mem_iff, List.nil_append, List.forall_mem_map]
    exact forall₂_congr fun e he => ih e he (hentries e he)
  | _ => rfl

theorem tokens?_argumentText (raw : List Char) :
    Lexeme.tokens? (argumentText raw) =
      (Lexeme.tokens? raw).map fun ts =>
        .braceL :: .name "f" :: .parenL :: .name "v" :: .colon :: (ts ++ Lexeme.closers raw) := by
  have hletter (s : String) (c : Char) (cs : List Char) (hc : s.toList = [c])
      (hs : Text.isName s = true) (hcs : Lexeme.isBoundary cs = true) :
      Lexeme.tokens? (c :: cs) = (Lexeme.tokens? cs).map (.name s :: ·) := by
    have htokens := Lexeme.tokens?_name hs hcs
    rwa [hc] at htokens
  have hclosing := Lexeme.tokens?_append_closing raw
  rw [Lexeme.closing] at hclosing
  rw [argumentText_eq, Lexeme.tokens?_punctuator _ rfl, Lexeme.tokens?_space,
    hletter "f" 'f' _ rfl (by decide) rfl, Lexeme.tokens?_punctuator _ rfl,
    hletter "v" 'v' _ rfl (by decide) rfl, Lexeme.tokens?_punctuator _ rfl, Lexeme.tokens?_space,
    hclosing]
  simp [Function.comp_def]

theorem literal?_eq_some_iff {raw : List Char} {v : Value} :
    literal? raw = some v ↔ v.isConstant = true ∧ ∃ f name es, f.arguments = [⟨name, v⟩] ∧
      Executable.ofText? (argumentText raw) = some [.shorthand [.field f es]] := by
  constructor
  · intro h
    unfold literal? at h
    split at h
    · next aliasName name a directives es hread =>
      split at h
      · next hconstant =>
        obtain rfl := Option.some.inj h
        exact ⟨hconstant, _, a.name, es, rfl, hread⟩
      · contradiction
    · contradiction
  · rintro ⟨hconstant, ⟨aliasName, name, arguments, directives⟩, key, es, rfl, hread⟩
    unfold literal?
    split
    · next heq =>
      cases hread.symm.trans heq
      exact if_pos hconstant
    · next hother => exact absurd hread (hother _ _ _ _ _)

/-- The text of a value without variables is a literal, of the value that it reads back as. -/
theorem literal?_chars {v : Value} (hprintable : v.isPrintable = true)
    (hlegible : v.everywhere isLegible = true) (hnesting : v.nesting + 2 ≤ Token.maxNesting)
    (hconstant : v.reread.sorted.isConstant = true) : literal? v.chars = some v.reread.sorted := by
  refine literal?_eq_some_iff.mpr ⟨hconstant, v.reread.sorted.asField, "v", [], rfl, ?_⟩
  rw [ofText?_argumentText_chars hprintable, hlegible, decide_eq_true hnesting]
  rfl

/-- The parenthesis behind the value stands in the text, or it is the one that closes the argument. -/
theorem exists_of_append_closers {raw : List Char} {ts front more : List Token}
    (h : ts ++ Lexeme.closers raw = front ++ .parenR :: more) :
    ∃ behind, ts = front ++ behind ∧ .parenR :: more = behind ++ Lexeme.closers raw := by
  rcases List.append_eq_append_iff.mp h with ⟨late, rfl, hclosers⟩ | ⟨behind, rfl, hmore⟩
  · cases late with
    | nil => exact ⟨[], by simp, hclosers.symm⟩
    | cons t late =>
      unfold Lexeme.closers at hclosers
      split at hclosers
      · contradiction
      · -- The brace would have to be a parenthesis.
        rcases late with _ | ⟨u, late⟩ <;> simp at hclosers
  · exact ⟨behind, rfl, hmore⟩

/-- What an accepted text consists of. -/
theorem exists_of_literal? {raw : List Char} {v : Value} (h : literal? raw = some v) :
    ∃ (w : Value) (behind : List Token), w.isPrintable = true ∧ w.sorted = v ∧
      w.nesting + 2 ≤ Token.maxNesting ∧
      Lexeme.tokens? raw = some (w.tokens ++ behind) ∧
      Executable.EndsArgument (behind ++ Lexeme.closers raw) := by
  obtain ⟨-, f, name, es, harguments, hread⟩ := literal?_eq_some_iff.mp h
  simp only [Executable.ofText?, Option.bind_eq_bind, Option.bind_eq_some_iff,
    Token.ofText?_eq_some_iff, tokens?_argumentText, Option.map_eq_some_iff] at hread
  obtain ⟨_, ⟨⟨ts, htokens, rfl⟩, hfits⟩, hparse⟩ := hread
  obtain ⟨steps, _, hvalue, more, rfl, hfield⟩ := Executable.value_of_parseAll harguments hparse
  have hnamed : (ts ++ Lexeme.closers raw).all Token.isNamed = true := by
    have hclosed := Lexeme.tokens?_append_closing raw
    rw [htokens] at hclosed
    exact List.all_eq_true.mpr (Lexeme.isNamed_of_tokens? hclosed)
  obtain ⟨w, hprintable, hsorted, hsplit⟩ := derives false steps _ _ _ hvalue hnamed
  obtain ⟨behind, rfl, hbehind⟩ := exists_of_append_closers hsplit
  refine ⟨w, behind, hprintable, hsorted, ?_, htokens, more, hbehind.symm, hfield⟩
  have hopen : Token.nestWithin 48 (w.tokens ++ (behind ++ Lexeme.closers raw)) = true := by
    rw [← List.append_assoc]
    exact hfits
  rw [w.nests, Bool.and_eq_true, decide_eq_true_eq] at hopen
  exact Nat.add_le_add_right hopen.1 2

/-- A text of which nothing stands behind a value is a complete literal, up to repeated keys. -/
theorem isLiteral_of_tokens? {raw : List Char} {w : Value} (hprintable : w.isPrintable = true)
    (hkeys : w.everywhere isKeyed = true) (hconstant : w.sorted.isConstant = true)
    (hnesting : w.nesting ≤ Token.maxNesting) (h : Lexeme.tokens? raw = some w.tokens) :
    IsLiteral raw w := by
  refine ⟨hprintable, hkeys, (isConstant_sorted_iff hkeys).mp hconstant,
    Token.ofText?_eq_some_iff.mpr ⟨h, ?_⟩⟩
  have hfits := w.nests Token.maxNesting []
  rw [List.append_nil] at hfits
  rw [hfits, decide_eq_true hnesting]
  rfl

/-- A complete literal has no value but its own in front, and nothing stands behind that. -/
theorem IsLiteral.eq_of_tokens? {raw : List Char} {u w : Value} {behind : List Token}
    (h : IsLiteral raw u) (hprintable : w.isPrintable = true)
    (htokens : Lexeme.tokens? raw = some (w.tokens ++ behind)) : u = w ∧ behind = [] := by
  rw [(Token.ofText?_eq_some_iff.mp h.tokens).1, Option.some.injEq, ← List.append_nil u.tokens]
    at htokens
  obtain ⟨hvalue, hbehind⟩ := tokens_inj h.printable hprintable htokens
  exact ⟨hvalue, hbehind.symm⟩

/-- A complete literal is accepted unless a comment in it runs on, or its brackets nest too deep. -/
theorem IsLiteral.literal?_eq_some_iff {raw : List Char} {u : Value} (h : IsLiteral raw u) :
    literal? raw = some u.sorted ↔
      Lexeme.endsInComment raw = false ∧ u.nesting + 2 ≤ Token.maxNesting := by
  have htokens := (Token.ofText?_eq_some_iff.mp h.tokens).1
  constructor
  · intro hliteral
    obtain ⟨w, behind, hprintable, -, hnesting, hsplit, hends⟩ := exists_of_literal? hliteral
    obtain ⟨rfl, rfl⟩ := h.eq_of_tokens? hprintable hsplit
    refine ⟨?_, hnesting⟩
    cases hcomment : Lexeme.endsInComment raw with
    | false => rfl
    | true =>
      rw [Lexeme.closers, hcomment] at hends
      exact absurd hends Executable.not_endsArgument_nil
  · rintro ⟨hcomment, hnesting⟩
    have hquery : Lexeme.tokens? (argumentText raw) = some u.asField.queryTokens := by
      rw [tokens?_argumentText, htokens, Lexeme.closers, hcomment]
      simp [asField, Field.queryTokens, Field.tokens, Field.aliasTokens, Argument.groupTokens,
        Argument.tokens]
    have hfits : Token.nestWithin Token.maxNesting u.asField.queryTokens = true := by
      rw [Field.nestWithin_queryTokens, nesting_asField, decide_eq_true hnesting]
    rw [Value.literal?_eq_some_iff]
    refine ⟨(isConstant_sorted_iff h.keyed).mpr h.isConstant, u.sorted.asField, "v", [], rfl, ?_⟩
    rw [Executable.ofText?, Token.ofText?_eq_some_iff.mpr ⟨hquery, hfits⟩]
    exact Field.parseAll_queryTokens (isPrintable_asField h.printable)

/-- A text that is accepted starts with the tokens of a value, the accepted one but for the order of
its entries. Whatever stands behind them closes the argument and completes the field, and the text is
a complete literal exactly if nothing does and no key repeats. Complete literals are accepted but for
an open comment and too many brackets. -/
theorem literal?_accepts (raw : List Char) :
    (∀ v, literal? raw = some v → v.isConstant = true ∧
      ∃ (w : Value) (behind : List Token), w.isPrintable = true ∧ w.sorted = v ∧
        Lexeme.tokens? raw = some (w.tokens ++ behind) ∧
        Executable.EndsArgument (behind ++ Lexeme.closers raw) ∧
        ((∃ u, IsLiteral raw u ∧ u.sorted = v) ↔
          behind = [] ∧ w.everywhere isKeyed = true)) ∧
    (∀ u, IsLiteral raw u → (literal? raw = some u.sorted ↔
      Lexeme.endsInComment raw = false ∧ u.nesting + 2 ≤ Token.maxNesting)) := by
  refine ⟨fun v h => ?_, fun u hu => hu.literal?_eq_some_iff⟩
  have hconstant := (literal?_eq_some_iff.mp h).1
  obtain ⟨w, behind, hprintable, hsorted, hnesting, htokens, hends⟩ := exists_of_literal? h
  refine ⟨hconstant, w, behind, hprintable, hsorted, htokens, hends, ?_, ?_⟩
  · rintro ⟨u, hu, -⟩
    obtain ⟨rfl, rfl⟩ := hu.eq_of_tokens? hprintable htokens
    exact ⟨rfl, hu.keyed⟩
  · rintro ⟨rfl, hkeys⟩
    rw [List.append_nil] at htokens
    rw [← hsorted] at hconstant
    exact ⟨w, isLiteral_of_tokens? hprintable hkeys hconstant (by omega) htokens, hsorted⟩

/-- A complete literal of one token. -/
theorem literal?_accepts_seven : literal? "7".toList = some (.int 7) := by
  have htokens : Lexeme.tokens? "7".toList = some [.int 7] := by
    have hend : Lexeme.isBoundary [] = true := rfl
    have hint := Lexeme.tokens?_int 7 hend
    rwa [Lexeme.tokens?_nil] at hint
  have hliteral : IsLiteral "7".toList (.int 7) :=
    isLiteral_of_tokens? rfl rfl rfl (by decide) htokens
  have hcomment : Lexeme.endsInComment "7".toList = false := by
    rw [Lexeme.endsInComment_eq]
    exact Lexeme.endsInComment_nil
  exact ((literal?_accepts "7".toList).2 (.int 7) hliteral).mpr ⟨hcomment, by decide⟩

/-- A field that a text for the value of its argument can make of itself. -/
private def skippedField : Field :=
  ⟨none, "f", [⟨"v", .list [.int 2]⟩], [⟨"skip", [⟨"if", .boolean true⟩]⟩]⟩

/-- A variable under a key that is given again. -/
private def shadowedVariable : Value :=
  .list [.object [("a", .var "x"), ("a", .int 1)]]

/-- A text that brings a directive with it is accepted, and so is one with a variable under a key
that repeats. -/
theorem literal?_accepts_differs :
    (literal? "[2]) @skip(if: true".toList = some (.list [.int 2]) ∧
      ¬∃ u, IsLiteral "[2]) @skip(if: true".toList u) ∧
    (literal? "[\x7ba: $x, a: 1\x7d]".toList = some (.list [.object [("a", .int 1)]]) ∧
      ¬∃ u, IsLiteral "[\x7ba: $x, a: 1\x7d]".toList u) := by
  have hskip : argumentText "[2]) @skip(if: true".toList = skippedField.queryChars := by decide
  have hshadow : "[\x7ba: $x, a: 1\x7d]".toList = shadowedVariable.chars := by decide
  refine ⟨⟨?_, ?_⟩, ?_, ?_⟩
  · refine literal?_eq_some_iff.mpr ⟨rfl, skippedField, "v", [], rfl, ?_⟩
    rw [hskip, Field.ofText?_queryChars (by decide)]
    rfl
  · rintro ⟨u, hu⟩
    have hquery : Lexeme.tokens? skippedField.queryChars = some skippedField.queryTokens := by
      rw [Field.tokens?_queryChars (by decide)]
      rfl
    rw [← hskip, tokens?_argumentText, (Token.ofText?_eq_some_iff.mp hu.tokens).1] at hquery
    have hbehind : u.tokens ++ Lexeme.closers "[2]) @skip(if: true".toList =
        (list [.int 2]).tokens ++ skippedField.queryTokens.drop 8 :=
      congrArg (List.drop 5) (Option.some.inj hquery)
    obtain ⟨-, hclosers⟩ := tokens_inj hu.printable rfl hbehind
    have hlength := congrArg List.length hclosers
    unfold Lexeme.closers at hlength
    split at hlength <;> contradiction
  · rw [hshadow]
    exact literal?_chars (by decide) (by decide) (by decide) rfl
  · rintro ⟨u, hu⟩
    have hprintable : shadowedVariable.isPrintable = true := by decide
    have htokens : Lexeme.tokens? "[\x7ba: $x, a: 1\x7d]".toList =
        some (shadowedVariable.tokens ++ []) := by
      have hspelled := spells hprintable [] rfl
      rwa [List.append_nil, ← hshadow, Lexeme.tokens?_nil] at hspelled
    obtain ⟨rfl, -⟩ := hu.eq_of_tokens? hprintable htokens
    have hkeys := hu.keyed
    contradiction

end Value

end QueryCraft
