import QueryCraft.Proofs.Edit.Binding

/-!
Giving an argument a value twice is giving it once: the second edit finds everything as it wants it.
-/

namespace QueryCraft.Document

variable {name x : String} {v : Value} {d e : Document}

/-- Assigning a literal binds no argument to a variable, and frees none. -/
theorem boundVariables_of_assign {g : VariableDefinition → VariableDefinition}
    (hv : v.kind ≠ .var) (hassign : ∀ a ∈ d.operation.allArguments,
      Argument.assign name v a = .ok (Folder.result (Argument.assign name v) a)) :
    x ∈ (d.map (Folder.result (Argument.assign name v)) g).operation.boundVariables name ↔
      x ∈ d.operation.boundVariables name := by
  have hargs : (d.map (Folder.result (Argument.assign name v)) g).operation.allArguments =
      d.operation.allArguments.map (Folder.result (Argument.assign name v)) :=
    Operation.allArguments_map _ _ _
  simp only [Operation.mem_boundVariables, hargs]
  constructor
  · rintro ⟨b, hb, hname, hvalue⟩
    obtain ⟨a, ha, rfl⟩ := List.mem_map.mp hb
    rw [Argument.name_of_assign (hassign a ha)] at hname
    exact ⟨a, ha, hname, (Argument.value_eq_var_iff_of_assign (hassign a ha) hv x).mp hvalue⟩
  · rintro ⟨a, ha, hname, hvalue⟩
    refine ⟨_, List.mem_map_of_mem ha, ?_, ?_⟩
    · rw [Argument.name_of_assign (hassign a ha), hname]
    · exact (Argument.value_eq_var_iff_of_assign (hassign a ha) hv x).mpr hvalue

/-- A literal leaves behind literals of the kinds it found, and the same bound variables. -/
theorem assign_assign (hv : v.kind ≠ .var) (h : d.assign name v = .ok e) :
    e.assign name v = .ok e := by
  obtain ⟨hassign, rfl⟩ := assign_ok_iff.mp h
  have hargs : (d.map (Folder.result (Argument.assign name v))
      (VariableDefinition.assign (d.operation.boundVariables name) v)).operation.allArguments =
      d.operation.allArguments.map (Folder.result (Argument.assign name v)) :=
    Operation.allArguments_map _ _ _
  have hagain : ∀ b ∈ d.operation.allArguments.map (Folder.result (Argument.assign name v)),
      Argument.assign name v b = .ok b := by
    intro b hb
    obtain ⟨a, ha, rfl⟩ := List.mem_map.mp hb
    exact Argument.assign_assign (hassign a ha)
  have hresult : ∀ b ∈ d.operation.allArguments.map (Folder.result (Argument.assign name v)),
      Folder.result (Argument.assign name v) b = b := by
    intro b hb
    rw [Folder.result, hagain b hb]
  rw [assign_ok_iff, hargs]
  refine ⟨fun b hb => ?_, (map_eq_self ?_ ?_).symm⟩
  · rw [hresult b hb]
    exact hagain b hb
  · rw [hargs]
    exact hresult
  · intro w hw
    obtain ⟨u, -, rfl⟩ := List.mem_map.mp hw
    rw [VariableDefinition.assign_congr fun x => boundVariables_of_assign hv hassign,
      VariableDefinition.assign_assign]

/-- A variable leaves behind arguments that are all bound to it, and a definition of it. -/
theorem rebind_rebind (h : d.rebind name x = .ok e) : e.rebind name x = .ok e := by
  rcases rebind_cases h with ⟨-, rfl⟩ | ⟨⟨a, ha, hname⟩, definitions, htake, hoperation, -⟩
  · exact h
  have hargs := allArguments_of_rebind h
  have hmap : e.map (Argument.rebind name x) id = e := by
    refine map_eq_self (fun b hb => ?_) fun _ _ => rfl
    rw [hargs] at hb
    obtain ⟨c, -, rfl⟩ := List.mem_map.mp hb
    exact Argument.rebind_rebind name x c
  have hany : e.operation.allArguments.any (·.name == name) = true := by
    rw [List.any_eq_true]
    refine ⟨Argument.rebind name x a, ?_, ?_⟩
    · rw [hargs]
      exact List.mem_map_of_mem ha
    · simpa [Argument.name_rebind] using hname
  -- No other variable is bound any more, so none can become free.
  have hreplaced : (e.operation.boundVariables name).filter (· != x) = [] := by
    rw [List.filter_eq_nil_iff]
    intro y hy
    obtain ⟨b, hb, hb_name, hvalue⟩ := Operation.mem_boundVariables.mp hy
    rw [hargs] at hb
    obtain ⟨c, -, rfl⟩ := List.mem_map.mp hb
    rw [Argument.name_rebind] at hb_name
    simp only [Argument.rebind, hb_name, if_true, Value.var.injEq] at hvalue
    simp [hvalue]
  have hdefined : (e.operation.definition? x).isSome = true := by
    rw [hoperation, Operation.definition?_isSome]
    exact VariableDefinition.exists_definition_of_takeOver htake (d.isFreed_self name x)
  unfold rebind takeOver
  simp only [hany, hmap, hreplaced, hdefined]
  rw [VariableDefinition.takeOver_of_forall (by simp)]
  rfl

/-- Giving the arguments of one name a value has its whole effect at once. -/
theorem setArgument_idempotent (h : d.setArgument name v = .ok e) :
    e.setArgument name v = .ok e := by
  by_cases hv : v.kind = .var
  · obtain ⟨x, rfl⟩ := Value.kind_eq_var_iff.mp hv
    rw [setArgument_var] at h ⊢
    exact rebind_rebind h
  · rw [setArgument_eq_assign hv] at h ⊢
    exact assign_assign hv h

/-- One argument that is a literal, and one of the same name that is bound twice over. -/
private def listing (literal : Value) (default : Option Value) : Document where
  operation :=
    { name := none
      definitions := [⟨"n", .named "Int" true, default⟩, ⟨"n", .named "Int" true, default⟩]
      directives := []
      selections :=
        [.branch ⟨none, "issues", [⟨"first", literal⟩], []⟩
          [.leaf ⟨none, "labels", [⟨"first", .var "n"⟩], []⟩,
            .verbatim ⟨.fragmentSpread, "...F"⟩]] }
  auxiliary := []

theorem setArgument_idempotent_listing :
    (listing (.int 5) none).setArgument "first" (.string "10") =
      .ok (listing (.int 10) (some (.string "10"))) ∧
    (listing (.int 10) (some (.string "10"))).setArgument "first" (.string "10") =
      .ok (listing (.int 10) (some (.string "10"))) :=
  have hfirst : (listing (.int 5) none).setArgument "first" (.string "10") =
      .ok (listing (.int 10) (some (.string "10"))) := by rfl
  ⟨hfirst, setArgument_idempotent hfirst⟩

end QueryCraft.Document
