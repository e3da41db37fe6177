import QueryCraft.Proofs.Document.Nesting
import QueryCraft.Proofs.Document.Parsing

/-!
A printable document is read back from its text, at every indent for which it can be printed.
-/

namespace QueryCraft

theorem Argument.isPrintable_reread {a : Argument} (h : a.isPrintable = true) :
    a.reread.isPrintable = true := by
  simp only [isPrintable, reread, Bool.and_eq_true] at h ⊢
  exact ⟨h.1, Value.isPrintable_reread h.2⟩

theorem VariableDefinition.isPrintable_reread {d : VariableDefinition} (h : d.isPrintable = true) :
    d.reread.isPrintable = true := by
  simp only [isPrintable, reread, Bool.and_eq_true] at h ⊢
  refine ⟨h.1, ?_⟩
  cases hd : d.default with
  | none => rfl
  | some v =>
    rw [hd] at h
    simp only [Option.all_some, Bool.and_eq_true, Option.map_some] at h ⊢
    exact ⟨Value.isPrintable_reread h.2.1, Value.isConstant_reread h.2.2⟩

namespace Document

variable {d : Document}

/-- The document with the values that its text is read as. -/
def reread (d : Document) : Document :=
  d.map Argument.reread VariableDefinition.reread

theorem isPrintable_reread (h : d.isPrintable = true) : d.reread.isPrintable = true := by
  refine isPrintable_map h (fun a ha => ?_) fun v hv => ?_
  · exact Argument.isPrintable_reread (Operation.isPrintable_of_mem h ha)
  · simp only [isPrintable, Operation.isPrintable, Bool.and_eq_true, List.all_eq_true] at h
    exact VariableDefinition.isPrintable_reread (h.1.1.1.2 v hv)

/-- What a document is read as is the same document exactly if every value in it reads back. -/
theorem same_sorted_reread_iff
    (hkeys : ∀ v ∈ d.operation.values, v.everywhere Value.isKeyed = true) :
    d.reread.sorted.same d = true ↔
      ∀ v ∈ d.operation.values, v.everywhere Value.readsBack = true := by
  simp only [Operation.values, List.forall_mem_append, List.forall_mem_map, List.mem_filterMap,
    forall_exists_index, and_imp] at hkeys ⊢
  rw [reread, sorted, map_map, same_map_iff]
  refine and_congr (forall₂_congr fun a ha => ?_) ?_
  · simp only [Argument.same, Argument.sorted, Argument.reread, Function.comp_apply,
      beq_self_eq_true, Bool.true_and]
    exact Value.same_sorted_reread_iff (hkeys.1 a ha)
  · have hsame (w : VariableDefinition) (hw : w ∈ d.operation.definitions) :
        (VariableDefinition.same ((VariableDefinition.sorted ∘ VariableDefinition.reread) w) w) =
          true ↔ ∀ v, w.default = some v → v.everywhere Value.readsBack = true := by
      simp only [VariableDefinition.same, VariableDefinition.sorted, VariableDefinition.reread,
        Function.comp_apply, beq_self_eq_true, Bool.true_and]
      cases hdefault : w.default with
      | none => simp
      | some v =>
        simpa using Value.same_sorted_reread_iff (hkeys.2 v w hw hdefault)
    constructor
    · exact fun h v w hw hv => (hsame w hw).mp (h w hw) v hv
    · exact fun h w hw => (hsame w hw).mpr fun v hv => h v w hw hv

/-- The tokens of a text within the bound on brackets, if its values can be read. -/
theorem tokens_chars (indent : Nat) (hprintable : d.isPrintable = true)
    (hstructured : d.isStructured = true) :
    Token.ofText? (d.chars indent) =
      if d.operation.isLegible && decide (d.nesting ≤ Token.maxNesting) then
        some d.reread.operation.tokens
      else none := by
  simp only [isStructured, Bool.and_eq_true, List.isEmpty_iff] at hstructured
  have htokens := Operation.spells indent hprintable hstructured.2 []
  have hnesting : Token.nestWithin Token.maxNesting d.operation.reread.tokens =
      decide (d.nesting ≤ Token.maxNesting) := by
    rw [Operation.nestWithin_tokens, Operation.nesting_reread]
    rfl
  rw [List.append_nil, Lexeme.tokens?_nil] at htokens
  rw [chars, hstructured.1, List.flatMap_nil, List.append_nil, Token.ofText?_eq_filter, htokens]
  cases d.operation.isLegible with
  | false => rfl
  | true =>
    have hreread : d.reread.operation = d.operation.reread := rfl
    simp [Option.filter, hnesting, hreread]

/-- A printable document that keeps nothing verbatim is read back at every indent, unless a value in
it is illegible or too many brackets are open: then its text is malformed. -/
theorem parse_toText_eq (indent : Nat) (hprintable : d.isPrintable = true)
    (hstructured : d.isStructured = true) :
    parse (d.toText indent) =
      if d.operation.isLegible && decide (d.nesting ≤ Token.maxNesting) then .ok d.reread.sorted
      else .error .malformed := by
  have htokens := tokens_chars indent hprintable hstructured
  rw [parse, toText, String.toList_ofList, Executable.ofText?]
  split at htokens
  · next hreadable =>
    simp only [isStructured, Bool.and_eq_true, List.isEmpty_iff, Selection.allEverywhere_iff]
      at hstructured
    have hfields : ∀ s ∈ d.reread.operation.selections, s.everywhere Selection.isField = true := by
      simp only [reread, map, Operation.map, Selection.mapAll_eq_map, List.forall_mem_map,
        Selection.isField_map]
      exact hstructured.2
    obtain ⟨e, hparse, he⟩ := Executable.parse_operation (isPrintable_reread hprintable) hfields
      (4 * d.reread.operation.tokens.length + 3) (by omega)
    have hauxiliary : d.reread.sorted.auxiliary = [] := hstructured.1
    simp only [htokens, Executable.stepsFor, Executable.Definition.parseAll, hparse, hreadable,
      Option.bind_eq_bind, Option.bind_some, ofDefinitions, ofDefinitions?, he, List.map_nil,
      if_true, ← hauxiliary]
    rfl
  · next hrefused =>
    rw [htokens, if_neg hrefused]
    rfl

/-- A printable document that keeps nothing verbatim is read back as the same document exactly if
its brackets are within the bound and its values read back. -/
theorem exists_parse_same_iff (indent : Nat) (hprintable : d.isPrintable = true)
    (hstructured : d.isStructured = true)
    (hkeys : ∀ v ∈ d.operation.values, v.everywhere Value.isKeyed = true) :
    (∃ e, parse (d.toText indent) = .ok e ∧ e.same d = true) ↔
      d.nesting ≤ Token.maxNesting ∧
        ∀ v ∈ d.operation.values, v.everywhere Value.readsBack = true := by
  have htext := parse_toText_eq indent hprintable hstructured
  constructor
  · rintro ⟨e, hparse, hsame⟩
    rw [htext] at hparse
    split at hparse
    · next hreadable =>
      obtain rfl := Except.ok.inj hparse
      rw [Bool.and_eq_true, decide_eq_true_eq] at hreadable
      exact ⟨hreadable.2, (same_sorted_reread_iff hkeys).mp hsame⟩
    · contradiction
  · rintro ⟨hnesting, hback⟩
    have hlegible : d.operation.isLegible = true :=
      List.all_eq_true.mpr fun v hv => Value.isLegible_of_readsBack (hback v hv)
    refine ⟨d.reread.sorted, ?_, (same_sorted_reread_iff hkeys).mpr hback⟩
    rw [htext, hlegible, decide_eq_true hnesting]
    rfl

/-- The text is printed if no margin is too wide. -/
theorem exists_print_same_iff (indent : Nat) (hprintable : d.isPrintable = true)
    (hstructured : d.isStructured = true)
    (hkeys : ∀ v ∈ d.operation.values, v.everywhere Value.isKeyed = true) :
    (∃ text e, d.print? indent = some text ∧ parse text = .ok e ∧ e.same d = true) ↔
      d.levels * indent ≤ maxWidth ∧ d.nesting ≤ Token.maxNesting ∧
        ∀ v ∈ d.operation.values, v.everywhere Value.readsBack = true := by
  rw [← exists_parse_same_iff indent hprintable hstructured hkeys]
  constructor
  · rintro ⟨text, e, hprint, hparse, hsame⟩
    obtain ⟨hwidth, rfl⟩ := print?_eq_some_iff.mp hprint
    exact ⟨hwidth, e, hparse, hsame⟩
  · rintro ⟨hwidth, e, hparse, hsame⟩
    exact ⟨d.toText indent, e, print?_of_le hwidth, hparse, hsame⟩

end Document

/-- A printable document that keeps nothing verbatim, and whose values hold no float and no
backspace, is printed at each indent that leaves no margin too wide. From its text it is read back
as a document that is the same but for the order of object entries. -/
theorem Document.parse_print (d : Document) (indent : Nat) (hprintable : d.isPrintable = true)
    (hstructured : d.isStructured = true)
    (hkeys : ∀ v ∈ d.operation.values, v.everywhere Value.isKeyed = true)
    (hexact : ∀ v ∈ d.operation.values, v.everywhere Value.isExact = true)
    (hnesting : d.nesting ≤ Token.maxNesting) :
    (d.levels * indent ≤ maxWidth →
      ∃ text e, d.print? indent = some text ∧ parse text = .ok e ∧ e.same d = true) ∧
    (maxWidth < d.levels * indent → d.print? indent = none) := by
  have hback : ∀ v ∈ d.operation.values, v.everywhere Value.readsBack = true :=
    fun v hv => Value.readsBack_of_exact (hexact v hv)
  refine ⟨fun hwidth => ?_, print?_of_lt⟩
  exact (exists_print_same_iff indent hprintable hstructured hkeys).mpr ⟨hwidth, hnesting, hback⟩

/-- A query with every construct that a document without verbatim nodes can hold. -/
private def searchQuery : Document where
  operation :=
    { name := some "Search"
      definitions :=
        [⟨"ids", .list (.named "ID" false) true, some (.list [.string "a\"b\n", .null])⟩,
          ⟨"deep", .named "Boolean" false, none⟩]
      directives := [⟨"live", [⟨"every", .int 30⟩]⟩]
      selections :=
        [.branch ⟨some "hits", "nodes", [⟨"ids", .var "ids"⟩,
            ⟨"where", .object
              [("size", .int (-5)), ("in", .list [.enum "OPEN", .boolean true])]⟩], []⟩
          [.leaf ⟨none, "id", [], [⟨"include", [⟨"if", .var "deep"⟩]⟩]⟩,
            .branch ⟨none, "owner", [], []⟩ [.leaf ⟨none, "name", [], []⟩]]] }
  auxiliary := []

/-- Three levels of lines, at the widest indent for which they are printed and at the next one. -/
theorem Document.parse_print_searchQuery :
    (∃ text e, searchQuery.print? 21845 = some text ∧ parse text = .ok e ∧
      e.same searchQuery = true) ∧
    searchQuery.print? 21846 = none := by
  have hprint (indent : Nat) := parse_print searchQuery indent (by decide) (by decide) (by decide)
    (by decide) (by decide)
  exact ⟨(hprint 21845).1 (by decide), (hprint 21846).2 (by decide)⟩

/-- Not even a document with a single line is printed at every indent. -/
theorem Document.print_single_eq_none :
    ∃ d : Document, d.isPrintable = true ∧ d.isStructured = true ∧
      (∀ v ∈ d.operation.values, v.everywhere Value.isKeyed = true) ∧
      (∀ v ∈ d.operation.values, v.everywhere Value.isExact = true) ∧
      d.nesting ≤ Token.maxNesting ∧ d.print? 65536 = none :=
  ⟨⟨⟨none, [], [], [.leaf ⟨none, "a", [], []⟩]⟩, []⟩, by decide, by decide, by decide, by decide,
    by decide, print?_of_lt (by decide)⟩

end QueryCraft
