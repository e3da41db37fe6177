import QueryCraft.Proofs.Document.Mapping

/-!
What it means that a document refers to a variable: a value of one of its arguments mentions it at
some depth, or the source of a part that is kept verbatim does.
-/

namespace QueryCraft

namespace Text

/-- A pattern whose first character does not come again cannot overlap with itself, so a search that
goes on behind each occurrence finds all of them. -/
theorem mem_afterEachFrom_iff {c : Char} {rest t : List Char} (hc : c ∉ rest) (skip : Nat)
    (cs : List Char) :
    t ∈ afterEachFrom (c :: rest) skip cs ↔ ∃ front, cs.drop skip = front ++ (c :: rest ++ t) := by
  induction cs generalizing skip with
  | nil => simp [afterEachFrom]
  | cons d ds ih =>
    cases skip with
    | succ skip => exact ih skip
    | zero =>
      rw [afterEachFrom, List.drop_zero]
      split
      · next hfound =>
        obtain ⟨behind, hbehind⟩ := List.isPrefixOf_iff_prefix.mp hfound
        have htail : rest ++ behind = ds := (List.cons.inj hbehind).2
        obtain rfl := (List.cons.inj hbehind).1
        subst htail
        have hrest := ih rest.length
        rw [List.drop_left] at hrest
        rw [← List.cons_append, List.drop_left, List.mem_cons, List.length_cons,
          Nat.add_sub_cancel, hrest]
        constructor
        · rintro (rfl | ⟨front, rfl⟩)
          · exact ⟨[], rfl⟩
          · exact ⟨c :: rest ++ front, by simp⟩
        · rintro ⟨front, hfront⟩
          cases front with
          | nil =>
            left
            simpa using hfront.symm
          | cons a front =>
            obtain ⟨-, htail⟩ := List.cons.inj hfront
            rcases List.append_eq_append_iff.mp htail with ⟨late, -, hlate⟩ | ⟨late, hlate, hnext⟩
            · exact .inr ⟨late, hlate⟩
            · cases late with
              | nil => exact .inr ⟨[], by simpa using hnext.symm⟩
              | cons b late =>
                -- The next occurrence would start within this one.
                obtain ⟨rfl, -⟩ := List.cons.inj hnext
                exact absurd (by simp [hlate]) hc
      · next hmissing =>
        rw [ih 0, List.drop_zero]
        constructor
        · rintro ⟨front, rfl⟩
          exact ⟨d :: front, rfl⟩
        · rintro ⟨front, hfront⟩
          cases front with
          | nil =>
            refine absurd (List.isPrefixOf_iff_prefix.mpr ⟨t, ?_⟩) hmissing
            exact hfront.symm
          | cons a front =>
            obtain ⟨-, htail⟩ := List.cons.inj hfront
            exact ⟨front, htail⟩

end Text

/-- A node mentions a variable where its source has the name behind a dollar sign, and no further
character of a name behind that. -/
theorem Verbatim.mentions_iff {x : String} (hx : '$' ∉ x.toList) {node : Verbatim} :
    node.mentions x = true ↔
      ∃ front behind, node.source.toList = front ++ ('$' :: x.toList ++ behind) ∧
        endsReference behind = true := by
  simp only [mentions, Text.afterEach, List.any_eq_true, Text.mem_afterEachFrom_iff hx,
    List.drop_zero]
  constructor
  · rintro ⟨behind, ⟨front, hsource⟩, hends⟩
    exact ⟨front, behind, hsource, hends⟩
  · rintro ⟨front, behind, hsource, hends⟩
    exact ⟨behind, ⟨front, hsource⟩, hends⟩

section Arguments

variable (x : String)

theorem Argument.anyMentions_eq_any (as : List Argument) :
    anyMentions x as = as.any fun a => a.value.mentions x := by
  rw [anyMentions, Value.anyMentions_eq_any, List.any_map]
  rfl

theorem Directive.anyMentions_eq_any (ds : List Directive) :
    anyMentions x ds = (allArguments ds).any fun a => a.value.mentions x := by
  rw [anyMentions, allArguments, List.any_flatMap]
  simp only [Argument.anyMentions_eq_any]

theorem Field.anyMentions_eq_any (f : Field) :
    (Argument.anyMentions x f.arguments || Directive.anyMentions x f.directives) =
      f.allArguments.any fun a => a.value.mentions x := by
  rw [Argument.anyMentions_eq_any, Directive.anyMentions_eq_any, allArguments, List.any_append]

end Arguments

mutual

def Selection.verbatims : Selection → List Verbatim
  | .leaf _ => []
  | .branch _ children => Selection.listVerbatims children
  | .verbatim node => [node]

def Selection.listVerbatims : List Selection → List Verbatim
  | [] => []
  | s :: ss => Selection.verbatims s ++ Selection.listVerbatims ss

end

namespace Selection

variable {x : String} {ss : List Selection}

theorem listVerbatims_eq_flatMap (ss : List Selection) :
    listVerbatims ss = ss.flatMap verbatims := by
  induction ss with
  | nil => rfl
  | cons s ss ih => simp [listVerbatims, ih]

theorem verbatims_map (f : Argument → Argument) (s : Selection) :
    (s.map f).verbatims = s.verbatims := by
  induction s using Selection.inductOn with
  | leaf field => rfl
  | verbatim node => rfl
  | branch field children ih =>
    rw [map, verbatims, verbatims, listVerbatims_eq_flatMap, listVerbatims_eq_flatMap,
      mapAll_eq_map, List.flatMap_map, List.flatMap_def, List.flatMap_def,
      List.map_congr_left ih]

/-- The search through some selections finds a variable if an argument or a verbatim node in them
mentions it, at any depth. -/
theorem anyMentions_eq (x : String) (ss : List Selection) :
    anyMentions x ss = ((listArguments ss).any (fun a => a.value.mentions x) ||
      (listVerbatims ss).any (Verbatim.mentions x)) := by
  induction ss using anyMentions.induct with
  | case1 =>
    rw [anyMentions, listArguments, listVerbatims, List.any_nil, List.any_nil, Bool.or_self]
  | case2 s rest ih =>
    rw [listArguments_eq_flatMap, listVerbatims_eq_flatMap] at ih ⊢
    cases s with
    | leaf f =>
      rw [anyMentions, ih, ownMentions, Field.anyMentions_eq_any]
      simp [children, allArguments, verbatims, Bool.or_assoc]
    | branch f ss =>
      rw [anyMentions, ih, ownMentions, Field.anyMentions_eq_any]
      simp [children, allArguments, verbatims, listArguments_eq_flatMap, listVerbatims_eq_flatMap,
        Bool.or_assoc]
    | verbatim node =>
      rw [anyMentions, ih, ownMentions]
      simp [children, allArguments, verbatims, Bool.or_left_comm]

end Selection

namespace Document

variable {d : Document} {x : String}

/-- Everything that is kept verbatim, within the operation and beside it. -/
def verbatims (d : Document) : List Verbatim :=
  Selection.listVerbatims d.operation.selections ++ d.auxiliary

/-- A reference to the variable `x`: in the value of an argument, however deep in lists and objects,
or in the source of a verbatim node. -/
def Refers (x : String) (d : Document) : Prop :=
  (∃ a ∈ d.operation.allArguments, a.value.mentions x = true) ∨
    ∃ node ∈ d.verbatims, node.mentions x = true

theorem mentions_iff_refers : d.mentions x = true ↔ d.Refers x := by
  rw [mentions, Directive.anyMentions_eq_any, Selection.anyMentions_eq, ← Bool.or_assoc,
    ← List.any_append, Bool.or_assoc, ← List.any_append, Bool.or_eq_true, List.any_eq_true,
    List.any_eq_true]
  rfl

instance (x : String) (d : Document) : Decidable (d.Refers x) :=
  inferInstanceAs (Decidable (_ ∨ _))

theorem mentions_of_mem {a : Argument} (ha : a ∈ d.operation.allArguments)
    (h : a.value.mentions x = true) : d.mentions x = true :=
  mentions_iff_refers.mpr (.inl ⟨a, ha, h⟩)

theorem verbatims_map (f : Argument → Argument) (g : VariableDefinition → VariableDefinition)
    (d : Document) : (d.map f g).verbatims = d.verbatims := by
  simp [verbatims, map, Operation.map, Selection.listVerbatims_eq_flatMap, Selection.mapAll_eq_map,
    List.flatMap_map, Selection.verbatims_map]

end Document

end QueryCraft
