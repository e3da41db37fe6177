import QueryCraft.Proofs.Document.Reading
import QueryCraft.Proofs.Document.RoundTrip
import QueryCraft.Proofs.Synthesis.Naming

/-!
The text of a synthesized query. Its brackets nest as deep as the tree of its fields, or one deeper,
and it is read back as the query exactly if they are within the bound and the defaults of its
variables read back.
-/

namespace QueryCraft

theorem deepest_lt_iff {α : Type} {measure : α → Nat} {as : List α} {n : Nat} (hne : as ≠ []) :
    deepest measure as < n ↔ ∀ a ∈ as, measure a < n := by
  cases n with
  | zero =>
    obtain ⟨a, ha⟩ := List.exists_mem_of_ne_nil as hne
    constructor
    · exact fun hlt => absurd hlt (Nat.not_lt_zero _)
    · exact fun hall => absurd (hall a ha) (Nat.not_lt_zero _)
  | succ n => simp only [Nat.lt_succ_iff, deepest_le_iff]

namespace SelectionTree

theorem depthAll_eq_deepest (ts : List SelectionTree) : depthAll ts = deepest depth ts := by
  induction ts with
  | nil => rfl
  | cons t ts ih =>
    rw [depthAll, ih]
    rfl

theorem isField_select {h : TreeHead} {ss : List Selection}
    (hss : ∀ s ∈ ss, s.everywhere Selection.isField = true) :
    (select h ss).everywhere Selection.isField = true := by
  cases ss with
  | nil => rfl
  | cons s ss => exact Selection.everywhere_branch.mpr ⟨rfl, hss⟩

/-- Synthesis keeps nothing verbatim. -/
theorem isField_toSelection (t : SelectionTree) :
    t.toSelection.everywhere Selection.isField = true := by
  rw [toSelection_eq_selected]
  induction t using inductOn with
  | leaf h | truncated h => rfl
  | node h children ih =>
    rw [selected, selectedAll_eq_map]
    exact isField_select (List.forall_mem_map.mpr ih)

/-- The selections below a field are in brackets of their own. -/
theorem nesting_select_le_iff {h : TreeHead} {ss : List Selection} {n : Nat} :
    (select h ss).nesting ≤ n ↔
      Argument.groupNesting h.arguments ≤ n ∧ ∀ s ∈ ss, s.nesting < n := by
  have hfield : (TreeHead.field h).nesting = Argument.groupNesting h.arguments :=
    Nat.max_eq_left (Nat.zero_le _)
  cases ss with
  | nil => simp [select, Selection.nesting, hfield]
  | cons s ss =>
    rw [select, Selection.nesting, hfield, Nat.max_le, Nat.add_one_le_iff,
      Selection.listNesting_eq_deepest, deepest_lt_iff (List.cons_ne_nil s ss)]

/-- Where arguments open no brackets but their own, there is at most one more on the last level. -/
theorem nesting_le_depth {t : SelectionTree}
    (hflat : ∀ h ∈ t.heads, Argument.groupNesting h.arguments ≤ 1) :
    t.toSelection.nesting ≤ t.depth := by
  rw [toSelection_eq_selected]
  induction t using inductOn with
  | leaf h | truncated h =>
    have hle : (select h []).nesting ≤ 1 :=
      nesting_select_le_iff.mpr ⟨hflat h List.mem_cons_self, nofun⟩
    exact hle
  | node h children ih =>
    rw [heads, headsOf_eq_flatMap, List.forall_mem_cons, List.forall_mem_flatMap] at hflat
    rw [selected, selectedAll_eq_map, nesting_select_le_iff, depth, depthAll_eq_deepest,
      List.forall_mem_map]
    refine ⟨by omega, fun t ht => ?_⟩
    have hle : t.depth ≤ deepest depth children := deepest_le_iff.mp (Nat.le_refl _) t ht
    have hbelow := ih t ht (hflat.2 t ht)
    omega

/-- Each level of a tree is a level of lines. -/
theorem levels_toSelection (t : SelectionTree) : t.toSelection.levels = t.depth := by
  rw [toSelection_eq_selected]
  induction t using inductOn with
  | leaf h | truncated h => rfl
  | node h children ih =>
    have hbelow : Selection.listLevels (children.map selected) = depthAll children := by
      rw [Selection.listLevels_eq_deepest, deepest_map ih, depthAll_eq_deepest]
    rw [selected, selectedAll_eq_map, depth, ← hbelow]
    cases children <;> rfl

end SelectionTree

theorem Argument.groupNesting_of_isBoundIn {names : List String} {as : List Argument}
    (h : ∀ a ∈ as, a.isBoundIn names) : groupNesting as ≤ 1 := by
  cases as with
  | nil => exact Nat.zero_le 1
  | cons a as =>
    refine Nat.succ_le_succ (deepest_le_iff.mpr fun b hb => ?_)
    obtain ⟨x, -, hvalue⟩ := h b hb
    rw [hvalue]
    exact Nat.le_refl 0

namespace SynthesizedQuery

theorem isStructured_toDocument (q : SynthesizedQuery) : q.toDocument.isStructured = true := by
  simp [toDocument, Document.isStructured, Selection.allEverywhere_iff,
    q.root.isField_toSelection]

theorem allArguments_toDocument (q : SynthesizedQuery) :
    q.toDocument.operation.allArguments = q.root.allArguments := by
  simp [toDocument, Operation.allArguments, Directive.allArguments, Selection.listArguments,
    SelectionTree.allArguments_toSelection]

theorem nesting_toDocument (q : SynthesizedQuery) :
    q.toDocument.nesting =
      max (VariableDefinition.groupNesting q.definitions) (q.root.toSelection.nesting + 1) := by
  simp [toDocument, Document.nesting, Operation.nesting, Directive.listNesting, deepest,
    Selection.listNesting]

theorem levels_toDocument (q : SynthesizedQuery) : q.toDocument.levels = q.root.depth := by
  simp [toDocument, Document.levels, Selection.listLevels, SelectionTree.levels_toSelection]

theorem depth_le_nesting (q : SynthesizedQuery) : q.root.depth ≤ q.toDocument.nesting := by
  rw [← q.levels_toDocument]
  exact q.toDocument.levels_le_nesting

end SynthesizedQuery

namespace Schema

variable {s : Schema} {config : Synthesis.Config} {name : String} {q : SynthesizedQuery}

/-- The arguments of a synthesized query are bound to variables. -/
theorem isBoundIn_of_synthesize (h : s.synthesize config name = .ok q) :
    ∀ a ∈ q.root.allArguments, a.isBoundIn (q.definitions.map VariableDefinition.name) := by
  obtain ⟨-, f, st, -, -, hwalk, rfl⟩ := synthesize_ok h
  exact ((Synthesis.State.Scoped.initial.walk hwalk).query config f).2

/-- Only the definitions of its variables can nest deeper than the tree of a synthesized query. -/
theorem nesting_le_of_synthesize (h : s.synthesize config name = .ok q) :
    q.toDocument.nesting ≤
      max (VariableDefinition.groupNesting q.definitions) (q.root.depth + 1) := by
  have hflat : ∀ head ∈ q.root.heads, Argument.groupNesting head.arguments ≤ 1 := by
    intro head hhead
    refine Argument.groupNesting_of_isBoundIn fun a ha => isBoundIn_of_synthesize h a ?_
    exact List.mem_flatMap.mpr ⟨head, hhead, ha⟩
  have hdepth : q.root.toSelection.nesting ≤ q.root.depth :=
    SelectionTree.nesting_le_depth hflat
  rw [q.nesting_toDocument]
  omega

/-- Of the values in a synthesized query, only defaults might not read back. -/
theorem readsBack_synthesized_iff (h : s.synthesize config name = .ok q) :
    (∀ v ∈ q.toDocument.operation.values, v.everywhere Value.readsBack = true) ↔
      ∀ d ∈ q.definitions, ∀ v ∈ d.default, v.everywhere Value.readsBack = true := by
  have hbound : ∀ a ∈ q.root.allArguments, a.value.everywhere Value.readsBack = true := by
    intro a ha
    obtain ⟨x, -, hvalue⟩ := isBoundIn_of_synthesize h a ha
    rw [hvalue]
    rfl
  simp only [Operation.values, q.allArguments_toDocument, List.forall_mem_append,
    List.forall_mem_map, List.mem_filterMap, forall_exists_index, and_imp]
  constructor
  · exact fun hvalues d hd v hv => hvalues.2 v d hd hv
  · exact fun hdefaults => ⟨hbound, fun v d hd hv => hdefaults d hd v hv⟩

/-- A query that is deeper than the bound on brackets has a text that cannot be read. -/
theorem IsBuilt.malformed_of_depth (hs : s.IsBuilt)
    (hname : config.operationName.all Text.isName = true) (hq : s.synthesize config name = .ok q)
    (hdepth : Token.maxNesting < q.root.depth) {text : String} (htext : q.print? = some text) :
    Document.parse text = .error .malformed := by
  have hprintable : q.toDocument.isPrintable = true := (hs.formed_synthesize hname hq).printable
  have hnesting : ¬q.toDocument.nesting ≤ Token.maxNesting := by
    have hle := q.depth_le_nesting
    omega
  obtain ⟨-, rfl⟩ := Document.print?_eq_some_iff.mp htext
  rw [Document.parse_toText_eq _ hprintable q.isStructured_toDocument]
  simp [hnesting]

/-- A query that is synthesized from a built schema is printed and read back as the query exactly if
the margin of its last level is not too wide, its brackets are within the bound, and the defaults of
its variables read back. -/
theorem parse_synthesized_iff (hs : s.IsBuilt)
    (hname : config.operationName.all Text.isName = true)
    (hq : s.synthesize config name = .ok q) :
    (∃ text e, q.print? = some text ∧ Document.parse text = .ok e ∧
      e.same q.toDocument = true) ↔
      q.root.depth * q.indent ≤ maxWidth ∧ q.toDocument.nesting ≤ Token.maxNesting ∧
        ∀ d ∈ q.definitions, ∀ v ∈ d.default, v.everywhere Value.readsBack = true := by
  have hformed : q.toDocument.operation.Formed := hs.formed_synthesize hname hq
  rw [← readsBack_synthesized_iff hq, ← q.levels_toDocument]
  exact Document.exists_print_same_iff q.indent hformed.printable q.isStructured_toDocument
    hformed.keyed

private def feedSchema : String :=
  "type Query \x7b feed(after: String = \"a\\\"b\", sizes: [Int!] = [1, 2]): Feed \x7d
    type Feed \x7b title: ID more(after: String): Feed \x7d"

theorem parse_synthesized_iff_feed :
    ∃ s q, IsBuilt s ∧ s.synthesize ⟨true, some 3, some "Feed", 4⟩ "feed" = .ok q ∧
      ∃ text e, q.print? = some text ∧ Document.parse text = .ok e ∧
        e.same q.toDocument = true := by
  have hrun : (ofText? feedSchema).any (fun s =>
      (s.synthesize ⟨true, some 3, some "Feed", 4⟩ "feed").toOption.any fun q =>
        decide (q.root.depth * q.indent ≤ maxWidth) &&
          (decide (q.toDocument.nesting ≤ Token.maxNesting) &&
            q.definitions.all fun d => d.default.all (Value.everywhere Value.readsBack))) =
        true := by
    simp only [synthesize_eq_byWalk]
    decide +kernel
  obtain ⟨s, hs, hrun⟩ := (Option.any_eq_true _ _).mp hrun
  obtain ⟨q, hq, hback⟩ := exists_of_toOption_any hrun
  simp only [Bool.and_eq_true, decide_eq_true_eq, List.all_eq_true, Option.all_eq_true] at hback
  have hbuilt : s.IsBuilt := isBuilt_of_ofText? hs
  exact ⟨s, q, hbuilt, hq, (parse_synthesized_iff hbuilt (by decide) hq).mpr hback⟩

private def cyclicSchema : String :=
  "type Query \x7b a: A \x7d type A \x7b a: A \x7d"

private def backspaceSchema : String :=
  "type Query \x7b a(s: String = \"\\u0008\"): Int \x7d"

/-- One query is deeper than the bound on brackets, one has a default that reads back as another
value, and the margins of one are too wide. -/
theorem parse_synthesized_differs :
    (∃ s q text, IsBuilt s ∧ s.synthesize ⟨false, some 51, none, 2⟩ "a" = .ok q ∧
      q.print? = some text ∧ Document.parse text = .error .malformed) ∧
    (∃ s q text e, IsBuilt s ∧ s.synthesize .default "a" = .ok q ∧
      q.print? = some text ∧ Document.parse text = .ok e ∧ e.same q.toDocument = false) ∧
    ∃ s q, IsBuilt s ∧ s.synthesize ⟨false, none, none, 65536⟩ "a" = .ok q ∧ q.print? = none := by
  refine ⟨?_, ?_, ?_⟩
  · have hrun : (ofText? cyclicSchema).any (fun s =>
        (s.synthesize ⟨false, some 51, none, 2⟩ "a").toOption.any fun q =>
          decide (Token.maxNesting < q.root.depth) && q.print?.isSome) = true := by
      simp only [synthesize_eq_byWalk]
      decide +kernel
    obtain ⟨s, hs, hrun⟩ := (Option.any_eq_true _ _).mp hrun
    obtain ⟨q, hq, hrun⟩ := exists_of_toOption_any hrun
    rw [Bool.and_eq_true, decide_eq_true_eq, Option.isSome_iff_exists] at hrun
    obtain ⟨hdepth, text, htext⟩ := hrun
    have hbuilt : s.IsBuilt := isBuilt_of_ofText? hs
    exact ⟨s, q, text, hbuilt, hq, htext, hbuilt.malformed_of_depth rfl hq hdepth htext⟩
  · have hrun : (ofText? backspaceSchema).any (fun s =>
        (s.synthesize .default "a").toOption.any fun q => q.print?.any fun text =>
          (Document.parse text).toOption.any fun e => !e.same q.toDocument) = true := by
      simp only [synthesize_eq_byWalk]
      decide +kernel
    obtain ⟨s, hs, hrun⟩ := (Option.any_eq_true _ _).mp hrun
    obtain ⟨q, hq, hrun⟩ := exists_of_toOption_any hrun
    obtain ⟨text, htext, hrun⟩ := (Option.any_eq_true _ _).mp hrun
    obtain ⟨e, he, hdiffers⟩ := exists_of_toOption_any hrun
    rw [Bool.not_eq_true'] at hdiffers
    exact ⟨s, q, text, e, isBuilt_of_ofText? hs, hq, htext, he, hdiffers⟩
  · have hrun : (ofText? cyclicSchema).any (fun s =>
        (s.synthesize ⟨false, none, none, 65536⟩ "a").toOption.any fun q =>
          q.print?.isNone) = true := by
      simp only [synthesize_eq_byWalk]
      decide +kernel
    obtain ⟨s, hs, hrun⟩ := (Option.any_eq_true _ _).mp hrun
    obtain ⟨q, hq, hnone⟩ := exists_of_toOption_any hrun
    exact ⟨s, q, isBuilt_of_ofText? hs, hq, Option.isNone_iff_eq_none.mp hnone⟩

end Schema

end QueryCraft
