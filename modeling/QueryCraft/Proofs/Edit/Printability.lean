import QueryCraft.Edit
import QueryCraft.Proofs.Document.Mapping
import QueryCraft.Proofs.Edit.Binding
import QueryCraft.Proofs.Edit.Selecting
import QueryCraft.Proofs.Synthesis.Naming

/-!
Documents are printable wherever they come from, and no edit that succeeds makes a printable
document one whose text cannot be read.
-/

namespace QueryCraft

namespace Pruning

variable {p : Pruning}

/-- What is kept of a printable selection is printable: a field whose children are all dropped goes
with them or gets one back. -/
theorem isPrintable_selection {path : List String} {s t : Selection}
    (h : s.everywhere Selection.isPrintable = true) (hkept : p.selection path s = some t) :
    t.everywhere Selection.isPrintable = true := by
  refine everywhere_selection (fun f children kept hself hempty => ?_) h hkept
  simp only [Selection.isPrintable, Bool.and_eq_true, Bool.not_eq_true',
    List.isEmpty_eq_false_iff] at hself ⊢
  exact ⟨hself.1, mt hempty hself.2⟩

/-- Pruning a printable document leaves a printable one. -/
theorem isPrintable_document (p : Pruning) {d : Document} (h : d.isPrintable = true) :
    (p.document d).isPrintable = true := by
  simp only [Document.isPrintable, Operation.isPrintable, document, Bool.and_eq_true,
    Bool.not_eq_true', List.isEmpty_eq_false_iff, Selection.allEverywhere_iff] at h ⊢
  obtain ⟨⟨hrest, hne⟩, hselections⟩ := h
  refine ⟨⟨hrest, ?_⟩, fun t ht => ?_⟩
  · obtain ⟨s, hs⟩ := List.exists_mem_of_ne_nil _ hne
    obtain ⟨t, ht⟩ := Option.isSome_iff_exists.mp (p.isSome_selection_root s)
    rw [selections_eq_filterMap]
    exact List.ne_nil_of_mem (List.mem_filterMap.mpr ⟨s, hs, ht⟩)
  · rw [selections_eq_filterMap] at ht
    obtain ⟨s, hs, ht⟩ := List.mem_filterMap.mp ht
    exact isPrintable_selection (hselections s hs) ht

end Pruning

namespace Document

variable {d e : Document} {name x : String} {v : Value}

theorem isPrintable_of_rename {newName : Option String} (h : d.isPrintable = true)
    (hrename : d.rename newName = .ok e) : e.isPrintable = true := by
  simp only [isPrintable, Operation.isPrintable, Bool.and_eq_true] at h ⊢
  unfold Document.rename at hrename
  split at hrename
  · obtain rfl := Except.ok.inj hrename
    exact ⟨⟨⟨⟨rfl, h.1.1.1.2⟩, h.1.1.2⟩, h.1.2⟩, h.2⟩
  · split at hrename
    · next hname =>
      obtain rfl := Except.ok.inj hrename
      exact ⟨⟨⟨⟨hname, h.1.1.1.2⟩, h.1.1.2⟩, h.1.2⟩, h.2⟩
    · contradiction

theorem isPrintable_of_mem_definitions {w : VariableDefinition} (h : d.isPrintable = true)
    (hw : w ∈ d.operation.definitions) : w.isPrintable = true := by
  simp only [isPrintable, Operation.isPrintable, Bool.and_eq_true, List.all_eq_true] at h
  exact h.1.1.1.2 w hw

/-- A value without variables, as a literal or as the default of a variable. -/
theorem isPrintable_of_assign (h : d.isPrintable = true) (hv : v.isPrintable = true)
    (hconstant : v.isConstant = true) (hassign : d.assign name v = .ok e) :
    e.isPrintable = true := by
  obtain ⟨hresult, rfl⟩ := assign_ok_iff.mp hassign
  refine isPrintable_map h (fun a ha => ?_) fun w hw => ?_
  · have hprintable : a.isPrintable = true := Operation.isPrintable_of_mem h ha
    rcases Argument.assign_cases (hresult a ha) with hsame | ⟨-, -, hname, hconform⟩
    · rwa [hsame]
    · simp only [Argument.isPrintable, Bool.and_eq_true] at hprintable ⊢
      rw [hname]
      exact ⟨hprintable.1, Value.isPrintable_of_conform hv hconform⟩
  · have hprintable : w.isPrintable = true := isPrintable_of_mem_definitions h hw
    unfold VariableDefinition.assign
    split
    · simp only [VariableDefinition.isPrintable, Bool.and_eq_true] at hprintable ⊢
      exact ⟨hprintable.1, by simp [hv, hconstant]⟩
    · exact hprintable

/-- A variable, with the definition that it takes over. -/
theorem isPrintable_of_rebind (h : d.isPrintable = true) (hx : Text.isName x = true)
    (hrebind : d.rebind name x = .ok e) : e.isPrintable = true := by
  rcases rebind_cases hrebind with ⟨-, rfl⟩ | ⟨-, definitions, htake, hoperation, -⟩
  · exact h
  have hbound : (d.map (Argument.rebind name x) id).isPrintable = true := by
    refine isPrintable_map h (fun a ha => ?_) fun w hw => isPrintable_of_mem_definitions h hw
    have hprintable : a.isPrintable = true := Operation.isPrintable_of_mem h ha
    unfold Argument.rebind
    split
    · simp only [Argument.isPrintable, Bool.and_eq_true] at hprintable ⊢
      exact ⟨hprintable.1, hx⟩
    · exact hprintable
  simp only [isPrintable, map, Operation.isPrintable, hoperation, Bool.and_eq_true,
    List.all_eq_true] at hbound ⊢
  obtain ⟨⟨⟨⟨hname, -⟩, hdirectives⟩, hne⟩, hselections⟩ := hbound
  refine ⟨⟨⟨⟨hname, fun w hw => ?_⟩, hdirectives⟩, hne⟩, hselections⟩
  rcases VariableDefinition.of_mem_takeOver htake hw with hw | ⟨-, c, hc, rfl⟩
  · exact isPrintable_of_mem_definitions h hw
  · have hprintable : c.isPrintable = true := isPrintable_of_mem_definitions h hc
    simp only [VariableDefinition.isPrintable, Bool.and_eq_true] at hprintable ⊢
    exact ⟨⟨hx, hprintable.1.2⟩, hprintable.2⟩

theorem isPrintable_of_setArgument (h : d.isPrintable = true) (hv : v.isPrintable = true)
    (hplain : v.kind = .var ∨ v.isConstant = true) (hset : d.setArgument name v = .ok e) :
    e.isPrintable = true := by
  by_cases hvar : v.kind = .var
  · obtain ⟨x, rfl⟩ := Value.kind_eq_var_iff.mp hvar
    rw [setArgument_var] at hset
    exact isPrintable_of_rebind h hv hset
  · rw [setArgument_eq_assign hvar] at hset
    exact isPrintable_of_assign h hv (hplain.resolve_left hvar) hset

theorem isPrintable_of_setArgumentText {raw : String} (h : d.isPrintable = true)
    (hset : d.setArgumentText name raw = .ok e) : e.isPrintable = true := by
  unfold Document.setArgumentText at hset
  split at hset
  · obtain rfl := Except.ok.inj hset
    exact h
  · split at hset
    · next v hvalue =>
      have hformed : v.Formed true := formed_of_argumentValue hvalue
      exact isPrintable_of_setArgument h hformed.printable (.inr (hformed.isConstant rfl)) hset
    · contradiction

end Document

/-- Whether an edit gives arguments only a variable, or a value without variables, and names and
enum values that can be written. -/
def Edit.bringsPrintable : Edit → Bool
  | .argument _ v => v.isPrintable && (v.kind == .var || v.isConstant)
  | _ => true

theorem Edit.isPrintable_of_apply {policy : EmptyPolicy} {edit : Edit} {d e : Document}
    (h : d.isPrintable = true) (hedit : edit.bringsPrintable = true)
    (happly : edit.apply policy d = .ok e) : e.isPrintable = true := by
  cases edit with
  | select names =>
    obtain rfl := Except.ok.inj happly
    exact Pruning.isPrintable_document _ h
  | selectAt path names =>
    obtain ⟨-, rfl⟩ := Document.selectAt_ok_iff.mp happly
    exact Pruning.isPrintable_document _ h
  | argument name v =>
    simp only [bringsPrintable, Bool.and_eq_true, Bool.or_eq_true, beq_iff_eq] at hedit
    exact Document.isPrintable_of_setArgument h hedit.1 hedit.2 happly
  | argumentText name raw => exact Document.isPrintable_of_setArgumentText h happly
  | rename name => exact Document.isPrintable_of_rename h happly

/-- Parsed documents and those of synthesized queries are printable, and every edit that succeeds
keeps a printable document printable. -/
theorem Document.isPrintable_of_parse_synthesis_and_edits :
    (∀ (text : String) (d : Document), parse text = .ok d → d.isPrintable = true) ∧
    (∀ (s : Schema) (config : Synthesis.Config) (name : String) (q : SynthesizedQuery),
      s.IsBuilt → config.operationName.all Text.isName = true →
        s.synthesize config name = .ok q → q.toDocument.isPrintable = true) ∧
    ∀ (policy : EmptyPolicy) (edit : Edit) (d e : Document),
      d.isPrintable = true → edit.bringsPrintable = true → edit.apply policy d = .ok e →
        e.isPrintable = true := by
  refine ⟨fun text d h => ?_, fun s config name q hs hname hq => ?_, fun policy edit d e => ?_⟩
  · exact (formed_of_parse h).printable
  · exact (hs.formed_synthesize hname hq).printable
  · exact Edit.isPrintable_of_apply

private def issuesQuery : String :=
  "query($n: Int = 3) \x7b issues(first: $n) \x7b title \x7d \x7d"

private def issuesSchema : String :=
  "type Query \x7b issues(first: Int = 3): Issue \x7d type Issue \x7b title: ID \x7d"

/-- One query is parsed and its argument bound to another variable, one is synthesized. -/
theorem Document.isPrintable_of_parse_synthesis_and_edits_issues :
    (∃ d e, parse issuesQuery = .ok d ∧ d.isPrintable = true ∧
      Edit.apply .cascade (.argument "first" (.var "count")) d = .ok e ∧ e.isPrintable = true) ∧
    ∃ s q, Schema.IsBuilt s ∧ s.synthesize ⟨true, none, some "Issues", 2⟩ "issues" = .ok q ∧
      q.toDocument.isPrintable = true := by
  constructor
  · have hrun : (parse issuesQuery).toOption.any (fun d =>
        (Edit.apply .cascade (.argument "first" (.var "count")) d).toOption.any fun _ => true) =
        true := by
      decide +kernel
    obtain ⟨d, hd, hrun⟩ := exists_of_toOption_any hrun
    obtain ⟨e, he, -⟩ := exists_of_toOption_any hrun
    have hprintable := isPrintable_of_parse_synthesis_and_edits.1 issuesQuery d hd
    exact ⟨d, e, hd, hprintable, he,
      isPrintable_of_parse_synthesis_and_edits.2.2 .cascade _ d e hprintable (by decide) he⟩
  · have hrun : (Schema.ofText? issuesSchema).any (fun s =>
        (s.synthesize ⟨true, none, some "Issues", 2⟩ "issues").toOption.any fun _ => true) =
        true := by
      simp only [Schema.synthesize_eq_byWalk]
      decide +kernel
    obtain ⟨s, hs, hrun⟩ := (Option.any_eq_true _ _).mp hrun
    obtain ⟨q, hq, -⟩ := exists_of_toOption_any hrun
    have hbuilt : s.IsBuilt := Schema.isBuilt_of_ofText? hs
    exact ⟨s, q, hbuilt, hq,
      isPrintable_of_parse_synthesis_and_edits.2.1 s _ "issues" q hbuilt (by decide) hq⟩

end QueryCraft
