import QueryCraft.Document.Arguments
import QueryCraft.Proofs.Value.Nodes

/-!
Documents as trees: induction over selections, the values that a document holds, and the conditions
under which its text can be read.
-/

namespace QueryCraft

namespace Selection

/-- Induction in which the children of a field are members, not the tail of a mutual function. -/
@[elab_as_elim]
theorem inductOn {motive : Selection → Prop} (s : Selection) (leaf : ∀ f, motive (.leaf f))
    (branch : ∀ f children, (∀ s ∈ children, motive s) → motive (.branch f children))
    (verbatim : ∀ node, motive (.verbatim node)) : motive s := by
  refine @Selection.rec motive (fun children => ∀ s ∈ children, motive s) leaf branch verbatim
    ?_ ?_ s
  · simp
  · intro s children hs hchildren
    simpa using And.intro hs hchildren

mutual

/-- Whether `p` holds of a selection and of every selection below it. -/
def everywhere (p : Selection → Bool) : Selection → Bool
  | .branch f children => p (.branch f children) && allEverywhere p children
  | s => p s

def allEverywhere (p : Selection → Bool) : List Selection → Bool
  | [] => true
  | s :: ss => everywhere p s && allEverywhere p ss

end

theorem allEverywhere_iff {p : Selection → Bool} {ss : List Selection} :
    allEverywhere p ss = true ↔ ∀ s ∈ ss, everywhere p s = true := by
  induction ss with
  | nil => simp [allEverywhere]
  | cons s ss ih => simp [allEverywhere, ih]

theorem everywhere_branch {p : Selection → Bool} {f : Field} {children : List Selection} :
    everywhere p (.branch f children) = true ↔
      p (.branch f children) = true ∧ ∀ s ∈ children, everywhere p s = true := by
  simp [everywhere, allEverywhere_iff]

theorem everywhere_self {p : Selection → Bool} {s : Selection} (h : everywhere p s = true) :
    p s = true := by
  cases s with
  | branch f children => exact (everywhere_branch.mp h).1
  | _ => exact h

theorem listArguments_eq_flatMap (ss : List Selection) :
    listArguments ss = ss.flatMap allArguments := by
  induction ss with
  | nil => rfl
  | cons s ss ih => simp [listArguments, ih]

theorem allArguments_eq (s : Selection) :
    s.allArguments = s.ownArguments ++ listArguments s.children := by
  cases s with
  | leaf f => rw [ownArguments, children, listArguments, List.append_nil, allArguments]
  | branch f ss => rfl
  | verbatim node => rfl

/-- The search through some selections finds the first argument in the order in which arguments are
written. -/
theorem firstArgument?_eq (name : String) (ss : List Selection) :
    firstArgument? name ss =
      ((listArguments ss).find? (·.name == name)).map Argument.value := by
  induction ss using firstArgument?.induct name with
  | case1 => rw [firstArgument?, listArguments, List.find?_nil, Option.map_none]
  | case2 s rest a hfound =>
    rw [firstArgument?, hfound, listArguments, allArguments_eq, List.append_assoc,
      List.find?_append, hfound, Option.some_or, Option.map_some]
  | case3 s rest hmissing ih =>
    rw [firstArgument?, hmissing, ih, listArguments, allArguments_eq, List.append_assoc,
      List.find?_append, hmissing, Option.none_or, listArguments_eq_flatMap, List.flatMap_append,
      listArguments_eq_flatMap, listArguments_eq_flatMap]

end Selection

theorem Operation.argument?_eq (op : Operation) (name : String) :
    op.argument? name = (op.allArguments.find? (·.name == name)).map Argument.value := by
  rw [argument?, allArguments, List.find?_append]
  cases (Directive.allArguments op.directives).find? (·.name == name) with
  | some a => rfl
  | none => exact Selection.firstArgument?_eq name op.selections

theorem Operation.argument?_eq_none_iff {op : Operation} {name : String} :
    op.argument? name = none ↔ ∀ a ∈ op.allArguments, a.name ≠ name := by
  rw [argument?_eq, Option.map_eq_none_iff, List.find?_eq_none]
  simp only [beq_iff_eq, ne_eq]

section Arguments

variable {P : Argument → Prop}

theorem Directive.forall_allArguments_cons {d : Directive} {ds : List Directive} :
    (∀ a ∈ allArguments (d :: ds), P a) ↔
      (∀ a ∈ d.arguments, P a) ∧ ∀ a ∈ allArguments ds, P a := by
  rw [allArguments, List.flatMap_cons, List.forall_mem_append]
  rfl

theorem Field.forall_allArguments {f : Field} :
    (∀ a ∈ f.allArguments, P a) ↔
      (∀ a ∈ f.arguments, P a) ∧ ∀ a ∈ Directive.allArguments f.directives, P a := by
  rw [allArguments, List.forall_mem_append]

theorem Selection.forall_allArguments_branch {f : Field} {children : List Selection} :
    (∀ a ∈ (branch f children).allArguments, P a) ↔
      (∀ a ∈ f.allArguments, P a) ∧ ∀ s ∈ children, ∀ a ∈ s.allArguments, P a := by
  rw [allArguments, listArguments_eq_flatMap, List.forall_mem_append, List.forall_mem_flatMap]

/-- What holds of every argument holds of those of the operation itself and of each selection. -/
theorem Operation.forall_allArguments {op : Operation} :
    (∀ a ∈ op.allArguments, P a) ↔
      (∀ a ∈ Directive.allArguments op.directives, P a) ∧
        ∀ s ∈ op.selections, ∀ a ∈ s.allArguments, P a := by
  rw [allArguments, Selection.listArguments_eq_flatMap, List.forall_mem_append,
    List.forall_mem_flatMap]

end Arguments

def Argument.isPrintable (a : Argument) : Bool :=
  Text.isName a.name && a.value.isPrintable

def Directive.isPrintable (d : Directive) : Bool :=
  Text.isName d.name && d.arguments.all Argument.isPrintable

def Field.isPrintable (f : Field) : Bool :=
  f.aliasName.all Text.isName && Text.isName f.name && f.arguments.all Argument.isPrintable &&
    f.directives.all Directive.isPrintable

def TypeRef.isPrintable (t : TypeRef) : Bool :=
  Text.isName t.innermost

def VariableDefinition.isPrintable (d : VariableDefinition) : Bool :=
  Text.isName d.name && d.type.isPrintable &&
    d.default.all fun v => v.isPrintable && v.isConstant

/-- A printable field, with no empty selection set below it. -/
def Selection.isPrintable : Selection → Bool
  | .leaf f => f.isPrintable
  | .branch f children => f.isPrintable && !children.isEmpty
  | .verbatim _ => true

def Operation.isPrintable (op : Operation) : Bool :=
  op.name.all Text.isName && op.definitions.all VariableDefinition.isPrintable &&
    op.directives.all Directive.isPrintable && !op.selections.isEmpty &&
    Selection.allEverywhere Selection.isPrintable op.selections

theorem Directive.isPrintable_of_mem {ds : List Directive} {a : Argument}
    (h : ∀ d ∈ ds, d.isPrintable = true) (ha : a ∈ allArguments ds) : a.isPrintable = true := by
  obtain ⟨d, hd, ha⟩ := List.mem_flatMap.mp ha
  have hprintable := h d hd
  simp only [isPrintable, Bool.and_eq_true, List.all_eq_true] at hprintable
  exact hprintable.2 a ha

theorem Field.isPrintable_of_mem {f : Field} {a : Argument} (h : f.isPrintable = true)
    (ha : a ∈ f.allArguments) : a.isPrintable = true := by
  simp only [isPrintable, Bool.and_eq_true, List.all_eq_true] at h
  rcases List.mem_append.mp ha with ha | ha
  · exact h.1.2 a ha
  · exact Directive.isPrintable_of_mem h.2 ha

theorem Selection.isPrintable_of_mem {s : Selection} {a : Argument}
    (h : s.everywhere isPrintable = true) (ha : a ∈ s.allArguments) : a.isPrintable = true := by
  induction s using Selection.inductOn with
  | leaf f => exact Field.isPrintable_of_mem h ha
  | verbatim node => contradiction
  | branch f children ih =>
    obtain ⟨hself, hchildren⟩ := everywhere_branch.mp h
    rw [allArguments, listArguments_eq_flatMap] at ha
    rcases List.mem_append.mp ha with ha | ha
    · simp only [isPrintable, Bool.and_eq_true] at hself
      exact Field.isPrintable_of_mem hself.1 ha
    · obtain ⟨s, hs, ha⟩ := List.mem_flatMap.mp ha
      exact ih s hs (hchildren s hs) ha

/-- Every argument of a printable operation is printable. -/
theorem Operation.isPrintable_of_mem {op : Operation} {a : Argument} (h : op.isPrintable = true)
    (ha : a ∈ op.allArguments) : a.isPrintable = true := by
  simp only [isPrintable, Bool.and_eq_true, List.all_eq_true, Selection.allEverywhere_iff] at h
  rw [allArguments, Selection.listArguments_eq_flatMap] at ha
  rcases List.mem_append.mp ha with ha | ha
  · exact Directive.isPrintable_of_mem h.1.1.2 ha
  · obtain ⟨s, hs, ha⟩ := List.mem_flatMap.mp ha
    exact Selection.isPrintable_of_mem (h.2 s hs) ha

/-- Every name is a name, no selection set is empty, and no default mentions a variable. -/
def Document.isPrintable (d : Document) : Bool :=
  d.operation.isPrintable

def Selection.isField : Selection → Bool
  | .verbatim _ => false
  | _ => true

/-- Nothing is kept verbatim. -/
def Document.isStructured (d : Document) : Bool :=
  d.auxiliary.isEmpty && Selection.allEverywhere Selection.isField d.operation.selections

/-- The values of all arguments, then the defaults of the variables. -/
def Operation.values (op : Operation) : List Value :=
  op.allArguments.map Argument.value ++ op.definitions.filterMap VariableDefinition.default

end QueryCraft
