import QueryCraft.Proofs.Document.Preorder
import QueryCraft.Proofs.Document.References

/-!
The search for references to a variable finds one exactly if the document has one: in the value of
an argument, however deep in lists and objects, or in the text of a part that is kept verbatim.
-/

namespace QueryCraft

namespace Value

variable {x : String} {v : Value}

/-- The variable `x` itself, or a list or an object with the variable in one of its values. -/
inductive Holds (x : String) : Value → Prop where
  | var : Holds x (.var x)
  | item {items : List Value} {v : Value} (mem : v ∈ items) (holds : Holds x v) :
      Holds x (.list items)
  | entry {entries : List (String × Value)} {key : String} {v : Value} (mem : (key, v) ∈ entries)
      (holds : Holds x v) : Holds x (.object entries)

theorem holds_of_mentions (h : v.mentions x = true) : v.Holds x := by
  induction v using inductOn with
  | null | boolean _ | int _ | float _ | string _ | enum _ => contradiction
  | var name =>
    obtain rfl := beq_iff_eq.mp h
    exact .var
  | list items ih =>
    obtain ⟨v, hv, hmentions⟩ := mentions_list.mp h
    exact .item hv (ih v hv hmentions)
  | object entries ih =>
    obtain ⟨⟨key, v⟩, hv, hmentions⟩ := mentions_object.mp h
    exact .entry hv (ih ⟨key, v⟩ hv hmentions)

theorem mentions_of_holds (h : v.Holds x) : v.mentions x = true := by
  induction h with
  | var => exact beq_self_eq_true x
  | item mem _ ih => exact mentions_list.mpr ⟨_, mem, ih⟩
  | entry mem _ ih => exact mentions_object.mpr ⟨_, mem, ih⟩

theorem mentions_iff_holds : v.mentions x = true ↔ v.Holds x :=
  ⟨holds_of_mentions, mentions_of_holds⟩

end Value

/-- The text `$x` in the source, with neither an underscore nor an ASCII letter or digit right
behind it. -/
def Verbatim.Cites (x : String) (node : Verbatim) : Prop :=
  ∃ front behind, node.source.toList = front ++ ('$' :: x.toList ++ behind) ∧
    ∀ c ∈ behind.head?, c ≠ '_' ∧ c.isAlphanum = false

theorem endsReference_iff {cs : List Char} :
    endsReference cs = true ↔ ∀ c ∈ cs.head?, c ≠ '_' ∧ c.isAlphanum = false := by
  cases cs with
  | nil => simp [endsReference]
  | cons c cs => simp [endsReference, Text.isNamePart]

theorem Verbatim.mentions_iff_cites {x : String} (hx : Text.isName x = true) {node : Verbatim} :
    node.mentions x = true ↔ node.Cites x := by
  -- A dollar sign is no part of a name.
  have hdollar : '$' ∉ x.toList := by
    intro hmem
    unfold Text.isName at hx
    split at hx
    · next hnil => simp [hnil] at hmem
    · next c cs hcons =>
      rw [hcons] at hmem
      simp only [Bool.and_eq_true, List.all_eq_true] at hx
      rcases List.mem_cons.mp hmem with rfl | hmem
      · exact absurd hx.1 (by decide)
      · exact absurd (hx.2 _ hmem) (by decide)
  simp only [mentions_iff hdollar, endsReference_iff, Cites]

/-- An argument of the field, or of a directive on it. -/
def Field.Carries (f : Field) (a : Argument) : Prop :=
  a ∈ f.arguments ∨ ∃ directive ∈ f.directives, a ∈ directive.arguments

theorem Field.mem_allArguments_iff {f : Field} {a : Argument} :
    a ∈ f.allArguments ↔ f.Carries a := by
  rw [allArguments, List.mem_append, Directive.allArguments, List.mem_flatMap, Carries]

namespace Selection

theorem mem_ownArguments_iff {s : Selection} {a : Argument} :
    a ∈ s.ownArguments ↔ ∃ f, s.field? = some f ∧ f.Carries a := by
  cases s <;> simp [ownArguments, field?, Field.mem_allArguments_iff]

/-- The arguments of a selection are those of the fields in it, field by field. -/
theorem allArguments_eq_located (above : List Field) (s : Selection) :
    s.allArguments = (s.located above).flatMap fun l => l.selection.ownArguments := by
  induction s using Selection.inductOn generalizing above with
  | leaf f | verbatim node => simp [allArguments, located, ownArguments]
  | branch f children ih =>
    rw [allArguments, listArguments_eq_flatMap, located_branch, List.flatMap_cons,
      List.flatMap_assoc]
    exact congrArg (f.allArguments ++ ·)
      (List.flatMap_congr fun s hs => ih s hs (above ++ [f]))

theorem mem_verbatims_iff (above : List Field) {s : Selection} {node : Verbatim} :
    node ∈ s.verbatims ↔ ∃ l ∈ s.located above, l.selection = .verbatim node := by
  induction s using Selection.inductOn generalizing above with
  | leaf f => simp [verbatims, located]
  | verbatim other => simp [verbatims, located, eq_comm]
  | branch f children ih =>
    rw [verbatims, listVerbatims_eq_flatMap, located_branch, List.mem_flatMap]
    constructor
    · rintro ⟨s, hs, hnode⟩
      obtain ⟨l, hl, hsame⟩ := (ih s hs (above ++ [f])).mp hnode
      exact ⟨l, List.mem_cons_of_mem _ (List.mem_flatMap.mpr ⟨s, hs, hl⟩), hsame⟩
    · rintro ⟨l, hl, hsame⟩
      rcases List.mem_cons.mp hl with rfl | hl
      · contradiction
      · obtain ⟨s, hs, hl⟩ := List.mem_flatMap.mp hl
        exact ⟨s, hs, (ih s hs (above ++ [f])).mpr ⟨l, hl, hsame⟩⟩

end Selection

namespace Document

variable {d : Document}

/-- An argument of a directive of the operation, of a field at any level, or of a directive on such
a field. -/
def Carries (d : Document) (a : Argument) : Prop :=
  (∃ directive ∈ d.operation.directives, a ∈ directive.arguments) ∨
    ∃ l ∈ d.located, ∃ f, l.selection.field? = some f ∧ f.Carries a

/-- A node that is kept verbatim, as a selection at any level or beside the operation. -/
def Keeps (d : Document) (node : Verbatim) : Prop :=
  (∃ l ∈ d.located, l.selection = .verbatim node) ∨ node ∈ d.auxiliary

/-- The arguments of the directives of the operation come first, then those of each field in the
order in which the fields are written. -/
theorem allArguments_eq_located (d : Document) :
    d.operation.allArguments = Directive.allArguments d.operation.directives ++
      d.located.flatMap fun l => l.selection.ownArguments := by
  rw [Operation.allArguments, Selection.listArguments_eq_flatMap, located,
    Selection.listLocated_eq_flatMap, List.flatMap_assoc]
  exact congrArg (_ ++ ·) (List.flatMap_congr fun s _ => s.allArguments_eq_located [])

theorem mem_allArguments_iff {a : Argument} : a ∈ d.operation.allArguments ↔ d.Carries a := by
  rw [allArguments_eq_located, List.mem_append, Directive.allArguments, List.mem_flatMap,
    List.mem_flatMap, Carries]
  simp only [Selection.mem_ownArguments_iff]

theorem mem_verbatims_iff {node : Verbatim} : node ∈ d.verbatims ↔ d.Keeps node := by
  rw [verbatims, Selection.listVerbatims_eq_flatMap, List.mem_append, List.mem_flatMap, Keeps,
    located, Selection.listLocated_eq_flatMap]
  refine or_congr_left ?_
  constructor
  · rintro ⟨s, hs, hnode⟩
    obtain ⟨l, hl, hsame⟩ := (Selection.mem_verbatims_iff []).mp hnode
    exact ⟨l, List.mem_flatMap.mpr ⟨s, hs, hl⟩, hsame⟩
  · rintro ⟨l, hl, hsame⟩
    obtain ⟨s, hs, hl⟩ := List.mem_flatMap.mp hl
    exact ⟨s, hs, (Selection.mem_verbatims_iff []).mpr ⟨l, hl, hsame⟩⟩

/-- The search for a variable finds it exactly if some argument holds it or some node that is kept
verbatim cites it. -/
theorem mentions_iff_occurs {x : String} (hx : Text.isName x = true) (d : Document) :
    d.mentions x = true ↔
      (∃ a, d.Carries a ∧ a.value.Holds x) ∨ ∃ node, d.Keeps node ∧ node.Cites x := by
  rw [mentions_iff_refers, Refers]
  simp only [mem_allArguments_iff, mem_verbatims_iff, Value.mentions_iff_holds,
    Verbatim.mentions_iff_cites hx]

/-- A variable deep in the argument of a directive, and a fragment that cites another one behind one
with a longer name. -/
private def filteredPosts : Document where
  operation :=
    { name := none
      definitions := []
      directives := []
      selections :=
        [.branch ⟨none, "user", [], []⟩ [.leaf ⟨none, "posts", [],
          [⟨"filter", [⟨"by", .list [.null, .object [("tag", .var "tag")]]⟩]⟩]⟩]] }
  auxiliary := [⟨.fragmentDefinition, "fragment F on User \x7b a(ids: $ids, id: $id) \x7d"⟩]

theorem mentions_iff_occurs_filteredPosts :
    Text.isName "tag" = true ∧ filteredPosts.mentions "tag" = true ∧
      Text.isName "id" = true ∧ filteredPosts.mentions "id" = true := by
  have htag : Text.isName "tag" = true := by decide
  have hid : Text.isName "id" = true := by decide
  refine ⟨htag, (mentions_iff_occurs htag _).mpr (.inl ?_), hid,
    (mentions_iff_occurs hid _).mpr (.inr ?_)⟩
  · refine ⟨⟨"by", .list [.null, .object [("tag", .var "tag")]]⟩, .inr ?_, ?_⟩
    · exact ⟨_, .tail _ (.head _), _, rfl, .inr ⟨_, .head _, .head _⟩⟩
    · exact .item (.tail _ (.head _)) (.entry (.head _) .var)
  · refine ⟨_, .inr (.head _), "fragment F on User \x7b a(ids: $ids, id: ".toList, ") \x7d".toList,
      by decide, ?_⟩
    rintro c ⟨⟩
    decide

end Document

end QueryCraft
