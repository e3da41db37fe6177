import QueryCraft.Proofs.Edit.Assignment
import QueryCraft.Proofs.Outcome

/-!
Edits of arguments with different names do not disturb each other. Giving the arguments of one name
a literal leaves those of another name as they are, with all that the text of their new value is
read by.
-/

namespace QueryCraft

namespace Argument

variable {name other : String} {v w : Value} {a : Argument}

theorem result_of_ne (h : a.name ≠ name) : Folder.result (assign name v) a = a := by
  rw [Folder.result, assign, if_neg fun hcond => h hcond.1]

theorem name_result (name : String) (v : Value) (a : Argument) :
    (Folder.result (assign name v) a).name = a.name := by
  unfold Folder.result
  split
  · next hassign => exact name_of_assign hassign
  · rfl

/-- An argument refuses a value as it did before another name was assigned. -/
theorem refuses_result (hne : name ≠ other) :
    (Folder.result (assign other w) a).refuses name v = a.refuses name v := by
  by_cases hname : a.name = other
  · have hdiffers : (a.name == name) = false :=
      beq_eq_false_iff_ne.mpr fun h => hne (h.symm.trans hname)
    simp only [refuses, name_result, hdiffers, Bool.false_and]
  · rw [result_of_ne hname]

theorem result_comm (hne : name ≠ other) (a : Argument) :
    Folder.result (assign other w) (Folder.result (assign name v) a) =
      Folder.result (assign name v) (Folder.result (assign other w) a) := by
  by_cases hname : a.name = name
  · have hother : a.name ≠ other := fun h => hne (hname.symm.trans h)
    have hresult : (Folder.result (assign name v) a).name ≠ other := by rwa [name_result]
    rw [result_of_ne hother, result_of_ne hresult]
  · have hresult : (Folder.result (assign other w) a).name ≠ name := by rwa [name_result]
    rw [result_of_ne hname, result_of_ne hresult]

end Argument

/-- The defaults of different variables are set in any order. -/
theorem VariableDefinition.assign_comm {bound others : List String} (v w : Value)
    {d : VariableDefinition} (h : d.name ∈ bound → d.name ∉ others) :
    (d.assign bound v).assign others w = (d.assign others w).assign bound v := by
  by_cases hbound : d.name ∈ bound
  · have hothers : d.name ∉ others := h hbound
    simp [assign, hbound, hothers]
  · by_cases hothers : d.name ∈ others <;> simp [assign, hbound, hothers]

namespace Document

variable {d e : Document} {name other : String} {v w : Value}

/-- The document in which the arguments of the given name that take the value `v` have it. -/
def assigned (name : String) (v : Value) (d : Document) : Document :=
  d.map (Folder.result (Argument.assign name v))
    (VariableDefinition.assign (d.operation.boundVariables name) v)

theorem assign_ok_iff_assigned :
    d.assign name v = .ok e ↔
      (∀ a ∈ d.operation.allArguments, a.refuses name v = false) ∧ e = d.assigned name v := by
  rw [assign_ok_iff]
  simp only [← Folder.failure?_eq_none_iff, Argument.failure?_assign_none, assigned]

theorem allArguments_assigned (name : String) (v : Value) (d : Document) :
    (d.assigned name v).operation.allArguments =
      d.operation.allArguments.map (Folder.result (Argument.assign name v)) :=
  Operation.allArguments_map _ _ _

theorem boundVariables_assigned (hne : name ≠ other) :
    (d.assigned other w).operation.boundVariables name = d.operation.boundVariables name := by
  simp only [Operation.boundVariables, allArguments_assigned, List.filterMap_map]
  congr 1
  funext a
  by_cases hname : a.name = other
  · have hdiffers : (a.name == name) = false :=
      beq_eq_false_iff_ne.mpr fun h => hne (h.symm.trans hname)
    simp only [Function.comp_apply, Argument.name_result, hdiffers, Bool.false_eq_true, if_false]
    split <;> split <;> rfl
  · rw [Function.comp_apply, Argument.result_of_ne hname]

theorem refuses_assigned (hne : name ≠ other) :
    (∀ a ∈ (d.assigned other w).operation.allArguments, a.refuses name v = false) ↔
      ∀ a ∈ d.operation.allArguments, a.refuses name v = false := by
  rw [allArguments_assigned, List.forall_mem_map]
  simp only [Argument.refuses_result hne]

/-- The two assignments change different arguments and different defaults. -/
theorem assigned_comm (hne : name ≠ other)
    (hbound : ∀ x ∈ d.operation.boundVariables name, x ∉ d.operation.boundVariables other) :
    (d.assigned name v).assigned other w = (d.assigned other w).assigned name v := by
  have hname := boundVariables_assigned (d := d) (w := w) hne
  have hother := boundVariables_assigned (d := d) (w := v) hne.symm
  rw [assigned, hother, assigned, map_map, assigned.eq_1 name, hname, assigned, map_map]
  refine map_congr (fun a _ => Argument.result_comm hne a) fun u _ => ?_
  exact VariableDefinition.assign_comm v w (hbound u.name)

/-- Both assignments succeed if each does on the document as it was. -/
theorem assign_bind_eq_ok (hne : name ≠ other) :
    (d.assign name v >>= assign other w) = .ok e ↔
      (∀ a ∈ d.operation.allArguments, a.refuses name v = false) ∧
        (∀ a ∈ d.operation.allArguments, a.refuses other w = false) ∧
        e = (d.assigned name v).assigned other w := by
  rw [bind_eq_ok]
  simp only [assign_ok_iff_assigned]
  constructor
  · rintro ⟨f, ⟨hrefuses, rfl⟩, hrefuses', rfl⟩
    exact ⟨hrefuses, (refuses_assigned hne.symm).mp hrefuses', rfl⟩
  · rintro ⟨hrefuses, hrefuses', rfl⟩
    exact ⟨_, ⟨hrefuses, rfl⟩, (refuses_assigned hne.symm).mpr hrefuses', rfl⟩

theorem assign_comm (hne : name ≠ other)
    (hbound : ∀ x ∈ d.operation.boundVariables name, x ∉ d.operation.boundVariables other) :
    (d.assign name v >>= assign other w) = .ok e ↔
      (d.assign other w >>= assign name v) = .ok e := by
  rw [assign_bind_eq_ok hne, assign_bind_eq_ok hne.symm, assigned_comm hne hbound]
  exact and_left_comm

/-- The value that a text stands for as an argument; any will do where there is no such argument. -/
def textValue (name raw : String) (d : Document) : Except Expectation Value :=
  match d.operation.argument? name with
  | none => .ok .null
  | some current => d.argumentValue raw current

/-- A text amounts to the value that it stands for in the document. -/
theorem setArgumentText_ok_iff {raw : String} :
    d.setArgumentText name raw = .ok e ↔
      ∃ v, d.textValue name raw = .ok v ∧ d.assign name v = .ok e := by
  unfold setArgumentText textValue
  cases hcurrent : d.operation.argument? name with
  | none =>
    simp [assign_of_absent (Operation.argument?_eq_none_iff.mp hcurrent)]
  | some current =>
    cases hvalue : d.argumentValue raw current with
    | error expected => simp [hvalue]
    | ok v =>
      simp [hvalue, setArgument_eq_assign (kind_ne_var_of_argumentValue hvalue)]

/-- An assignment changes no name, so the first argument of a name stays the first. -/
theorem argument?_assigned_eq :
    (d.assigned other w).operation.argument? name =
      (d.operation.allArguments.find? (·.name == name)).map fun a =>
        (Folder.result (Argument.assign other w) a).value := by
  have hnames : ((fun a : Argument => a.name == name) ∘ Folder.result (Argument.assign other w)) =
      fun a => a.name == name := by
    funext a
    rw [Function.comp_apply, Argument.name_result]
  rw [Operation.argument?_eq, allArguments_assigned, List.find?_map, hnames, Option.map_map]
  rfl

theorem argument?_assigned (hne : name ≠ other) :
    (d.assigned other w).operation.argument? name = d.operation.argument? name := by
  rw [argument?_assigned_eq, Operation.argument?_eq]
  cases hfind : d.operation.allArguments.find? (fun a => a.name == name) with
  | none => rfl
  | some a =>
    have hname : a.name = name := by simpa using List.find?_some hfind
    rw [Option.map_some, Argument.result_of_ne (hname ▸ hne), Option.map_some]

/-- An assignment sets defaults, but a text is read by the type of a definition. -/
theorem argumentValue_assigned (raw : String) (current : Value) :
    (d.assigned other w).argumentValue raw current = d.argumentValue raw current := by
  have hdefinition (x : String) : (d.assigned other w).operation.definition? x =
      (d.operation.definition? x).map
        (VariableDefinition.assign (d.operation.boundVariables other) w) := by
    have hnames : ((fun u : VariableDefinition => u.name == x) ∘
        VariableDefinition.assign (d.operation.boundVariables other) w) = fun u => u.name == x := by
      funext u
      rw [Function.comp_apply, VariableDefinition.name_assign]
    rw [Operation.definition?, assigned, map, Operation.map, List.find?_map, hnames,
      Operation.definition?]
  unfold argumentValue
  split
  · next x =>
    rw [hdefinition]
    cases d.operation.definition? x with
    | none => rfl
    | some u => simp only [Option.map_some, VariableDefinition.type_assign]
  · rfl

theorem textValue_assigned (hne : name ≠ other) (raw : String) :
    (d.assigned other w).textValue name raw = d.textValue name raw := by
  simp only [textValue, argument?_assigned hne, argumentValue_assigned]

/-- After one name has been assigned, the text for another one is read as before. -/
theorem setArgumentText_bind_eq_ok (hne : name ≠ other) {raw text : String} :
    (d.setArgumentText name raw >>= setArgumentText other text) = .ok e ↔
      ∃ v w, d.textValue name raw = .ok v ∧ d.textValue other text = .ok w ∧
        (d.assign name v >>= assign other w) = .ok e := by
  simp only [bind_eq_ok, setArgumentText_ok_iff]
  constructor
  · rintro ⟨f, ⟨v, hv, hassign⟩, w, hw, hassign'⟩
    obtain ⟨-, rfl⟩ := assign_ok_iff_assigned.mp hassign
    rw [textValue_assigned hne.symm] at hw
    exact ⟨v, w, hv, hw, _, hassign, hassign'⟩
  · rintro ⟨v, w, hv, hw, f, hassign, hassign'⟩
    obtain ⟨-, rfl⟩ := assign_ok_iff_assigned.mp hassign
    refine ⟨_, ⟨v, hv, hassign⟩, w, ?_, hassign'⟩
    rwa [textValue_assigned hne.symm]

/-- Two edits of different arguments that are bound to no variable in common can be made in any
order: both orders fail, or both lead to the same document. -/
theorem setArgument_comm (d : Document) (hne : name ≠ other)
    (hbound : ∀ x ∈ d.operation.boundVariables name, x ∉ d.operation.boundVariables other) :
    (∀ v w : Value, v.kind ≠ .var → w.kind ≠ .var →
      (d.setArgument name v >>= setArgument other w).toOption =
        (d.setArgument other w >>= setArgument name v).toOption) ∧
    ∀ raw text : String,
      (d.setArgumentText name raw >>= setArgumentText other text).toOption =
        (d.setArgumentText other text >>= setArgumentText name raw).toOption := by
  constructor
  · intro v w hv hw
    have hname : setArgument name v = assign name v := funext fun _ => setArgument_eq_assign hv
    have hother : setArgument other w = assign other w := funext fun _ => setArgument_eq_assign hw
    rw [hname, hother]
    exact toOption_eq_of_ok_iff fun e => assign_comm hne hbound
  · intro raw text
    refine toOption_eq_of_ok_iff fun e => ?_
    rw [setArgumentText_bind_eq_ok hne, setArgumentText_bind_eq_ok hne.symm]
    constructor
    · rintro ⟨v, w, hv, hw, hassign⟩
      exact ⟨w, v, hw, hv, (assign_comm hne hbound).mp hassign⟩
    · rintro ⟨w, v, hw, hv, hassign⟩
      exact ⟨v, w, hv, hw, (assign_comm hne hbound).mpr hassign⟩

/-- Each of two arguments is a literal in one place and bound in another. -/
private def issues : Document where
  operation :=
    { name := none
      definitions := [⟨"n", .named "Int" true, none⟩, ⟨"q", .named "String" true, none⟩]
      directives := [⟨"page", [⟨"first", .var "n"⟩]⟩]
      selections :=
        [.branch ⟨none, "issues", [⟨"first", .int 5⟩, ⟨"query", .var "q"⟩], []⟩
          [.leaf ⟨none, "tags", [], [⟨"cap", [⟨"query", .string "new"⟩]⟩]⟩]] }
  auxiliary := []

theorem setArgument_comm_issues :
    (∀ x ∈ issues.operation.boundVariables "first", x ∉ issues.operation.boundVariables "query") ∧
    (∃ e, (issues.setArgument "first" (.string "7") >>= setArgument "query" (.int 1)).toOption =
        some e ∧
      (issues.setArgument "query" (.int 1) >>= setArgument "first" (.string "7")).toOption =
        some e) ∧
    ∃ e, (issues.setArgumentText "first" "7" >>= setArgumentText "query" "old").toOption = some e ∧
      (issues.setArgumentText "query" "old" >>= setArgumentText "first" "7").toOption = some e := by
  have hbound : ∀ x ∈ issues.operation.boundVariables "first",
      x ∉ issues.operation.boundVariables "query" := by
    decide
  obtain ⟨hvalues, htexts⟩ := setArgument_comm issues (by decide) hbound
  refine ⟨hbound, ?_, ?_⟩
  · obtain ⟨e, he⟩ := Option.isSome_iff_exists.mp (show Option.isSome (issues.setArgument "first"
      (.string "7") >>= setArgument "query" (.int 1)).toOption = true by rfl)
    exact ⟨e, he, (hvalues _ _ (by decide) (by decide)).symm.trans he⟩
  · obtain ⟨e, he⟩ := Option.isSome_iff_exists.mp (show Option.isSome (issues.setArgumentText "first"
      "7" >>= setArgumentText "query" "old").toOption = true by decide +kernel)
    exact ⟨e, he, (htexts _ _).symm.trans he⟩

end Document

end QueryCraft
