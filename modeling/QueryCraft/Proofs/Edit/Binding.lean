import QueryCraft.Proofs.Edit.Rewriting

/-!
What giving an argument a new value does to a document: which arguments and definitions change, and
which variables are defined afterwards.
-/

namespace QueryCraft

namespace Argument

variable {name : String} {v : Value} {a b : Argument}

/-- An argument stays as it is, or it is a literal of the given name and takes the converted
value. -/
theorem assign_cases (h : assign name v a = .ok b) :
    b = a ∨ a.name = name ∧ a.value.kind ≠ .var ∧ b.name = a.name ∧
      v.conform a.value = .ok b.value := by
  unfold assign at h
  split at h
  · next hcond =>
    split at h
    · next new hnew =>
      obtain rfl := Except.ok.inj h
      exact .inr ⟨hcond.1, hcond.2, rfl, hnew⟩
    · contradiction
  · exact .inl (Except.ok.inj h).symm

theorem conform_of_assign (h : assign name v a = .ok b) (hname : a.name = name)
    (hkind : a.value.kind ≠ .var) : v.conform a.value = .ok b.value := by
  rw [assign, if_pos ⟨hname, hkind⟩] at h
  split at h
  · next new hnew =>
    obtain rfl := Except.ok.inj h
    exact hnew
  · contradiction

theorem assign_assign (h : assign name v a = .ok b) : assign name v b = .ok b := by
  rcases assign_cases h with rfl | ⟨hname, hkind, hsame, hconform⟩
  · exact h
  · have hagain := Value.conform_conform hconform
    unfold assign
    split
    · rw [hagain]
    · rfl

/-- Assigning a literal changes no name, and it neither makes nor breaks a binding. -/
theorem value_eq_var_iff_of_assign (h : assign name v a = .ok b) (hv : v.kind ≠ .var) (x : String) :
    b.value = .var x ↔ a.value = .var x := by
  rcases assign_cases h with rfl | ⟨-, hkind, -, hconform⟩
  · rfl
  · have hb := Value.kind_ne_var_of_conform hconform hv hkind
    constructor
    · intro hvar
      exact absurd (by rw [hvar]; rfl) hb
    · intro hvar
      exact absurd (by rw [hvar]; rfl) hkind

theorem name_of_assign (h : assign name v a = .ok b) : b.name = a.name := by
  rcases assign_cases h with rfl | ⟨-, -, hname, -⟩
  · rfl
  · exact hname

theorem rebind_rebind (name x : String) (a : Argument) :
    rebind name x (rebind name x a) = rebind name x a := by
  unfold rebind
  split
  · simp_all
  · simp_all

theorem name_rebind (name x : String) (a : Argument) : (rebind name x a).name = a.name := by
  unfold rebind
  split <;> rfl

end Argument

theorem VariableDefinition.name_assign (bound : List String) (v : Value) (d : VariableDefinition) :
    (d.assign bound v).name = d.name := by
  unfold assign
  split <;> rfl

theorem VariableDefinition.type_assign (bound : List String) (v : Value) (d : VariableDefinition) :
    (d.assign bound v).type = d.type := by
  unfold assign
  split <;> rfl

theorem VariableDefinition.assign_assign (bound : List String) (v : Value)
    (d : VariableDefinition) : (d.assign bound v).assign bound v = d.assign bound v := by
  by_cases h : d.name ∈ bound <;> simp [assign, h]

theorem VariableDefinition.assign_congr {bound others : List String} {v : Value}
    {d : VariableDefinition} (h : ∀ x, x ∈ bound ↔ x ∈ others) :
    d.assign bound v = d.assign others v := by
  simp [assign, h]

theorem Operation.definition?_isSome {op : Operation} {x : String} :
    (op.definition? x).isSome = true ↔ ∃ d ∈ op.definitions, d.name = x := by
  simp [definition?, List.find?_isSome]

/-- A variable that an argument of the given name is bound to. -/
theorem Operation.mem_boundVariables {op : Operation} {name x : String} :
    x ∈ op.boundVariables name ↔ ∃ a ∈ op.allArguments, a.name = name ∧ a.value = .var x := by
  unfold boundVariables
  rw [List.mem_filterMap]
  constructor
  · rintro ⟨a, ha, h⟩
    split at h
    · next y hy =>
      split at h
      · next hname =>
        obtain rfl := Option.some.inj h
        exact ⟨a, ha, beq_iff_eq.mp hname, hy⟩
      · contradiction
    · contradiction
  · rintro ⟨a, ha, hname, hvalue⟩
    exact ⟨a, ha, by simp [hvalue, hname]⟩

namespace VariableDefinition

variable {x : String} {isOrphan : String → Bool} {defined : Bool}
  {ds es : List VariableDefinition}

/-- Without orphans there is nothing to take over. -/
theorem takeOver_of_forall (h : ∀ d ∈ ds, isOrphan d.name = false) :
    takeOver x isOrphan true ds = some ds := by
  induction ds with
  | nil => rfl
  | cons d ds ih =>
    rw [List.forall_mem_cons] at h
    simp [takeOver, h.1, ih h.2]

/-- A definition that is no orphan stays. -/
theorem mem_takeOver (h : takeOver x isOrphan defined ds = some es) {d : VariableDefinition}
    (hd : d ∈ ds) (hkept : isOrphan d.name = false) : d ∈ es := by
  induction ds generalizing defined es with
  | nil => contradiction
  | cons e ds ih =>
    unfold takeOver at h
    split at h
    · obtain ⟨rest, hrest, rfl⟩ := Option.map_eq_some_iff.mp h
      rcases List.mem_cons.mp hd with rfl | hd
      · exact List.mem_cons_self
      · exact List.mem_cons_of_mem _ (ih hrest hd)
    · next horphan =>
      have hd : d ∈ ds := by
        rcases List.mem_cons.mp hd with rfl | hd
        · simp [hkept] at horphan
        · exact hd
      split at h
      · exact ih h hd
      · obtain ⟨rest, hrest, rfl⟩ := Option.map_eq_some_iff.mp h
        exact List.mem_cons_of_mem _ (ih hrest hd)

/-- A variable that was not defined is defined by taking over. -/
theorem exists_of_takeOver (h : takeOver x isOrphan false ds = some es) :
    ∃ e ∈ es, e.name = x := by
  induction ds generalizing es with
  | nil => contradiction
  | cons d ds ih =>
    unfold takeOver at h
    split at h
    · obtain ⟨rest, hrest, rfl⟩ := Option.map_eq_some_iff.mp h
      obtain ⟨e, he, hname⟩ := ih hrest
      exact ⟨e, List.mem_cons_of_mem _ he, hname⟩
    · simp only [Bool.false_eq_true, if_false] at h
      obtain ⟨rest, -, rfl⟩ := Option.map_eq_some_iff.mp h
      exact ⟨_, List.mem_cons_self, rfl⟩

/-- Each definition was there before, or is the one taken over, under its new name. -/
theorem of_mem_takeOver (h : takeOver x isOrphan defined ds = some es) {e : VariableDefinition}
    (he : e ∈ es) : e ∈ ds ∨ defined = false ∧ ∃ d ∈ ds, e = { d with name := x } := by
  induction ds generalizing defined es with
  | nil =>
    unfold takeOver at h
    split at h
    · obtain rfl := Option.some.inj h
      contradiction
    · contradiction
  | cons d ds ih =>
    unfold takeOver at h
    split at h
    · obtain ⟨rest, hrest, rfl⟩ := Option.map_eq_some_iff.mp h
      rcases List.mem_cons.mp he with rfl | he
      · exact .inl List.mem_cons_self
      · rcases ih hrest he with he | ⟨hdefined, c, hc, rfl⟩
        · exact .inl (List.mem_cons_of_mem d he)
        · exact .inr ⟨hdefined, c, List.mem_cons_of_mem d hc, rfl⟩
    · split at h
      · rcases ih h he with he | ⟨hfalse, -⟩
        · exact .inl (List.mem_cons_of_mem d he)
        · contradiction
      · next hdefined =>
        obtain ⟨rest, hrest, rfl⟩ := Option.map_eq_some_iff.mp h
        rcases List.mem_cons.mp he with rfl | he
        · exact .inr ⟨by simpa using hdefined, d, List.mem_cons_self, rfl⟩
        · rcases ih hrest he with he | ⟨hfalse, -⟩
          · exact .inl (List.mem_cons_of_mem d he)
          · contradiction

/-- Taking over keeps the names distinct. -/
theorem nodup_takeOver (h : takeOver x isOrphan defined ds = some es)
    (hnodup : (ds.map name).Nodup) (hx : defined = false → x ∉ ds.map name) :
    (es.map name).Nodup := by
  induction ds generalizing defined es with
  | nil =>
    unfold takeOver at h
    split at h
    · obtain rfl := Option.some.inj h
      exact List.nodup_nil
    · contradiction
  | cons d ds ih =>
    rw [List.map_cons, List.nodup_cons] at hnodup
    have hne : defined = false → x ≠ d.name ∧ x ∉ ds.map name := by
      simpa [List.mem_cons, not_or] using hx
    unfold takeOver at h
    split at h
    · obtain ⟨rest, hrest, rfl⟩ := Option.map_eq_some_iff.mp h
      rw [List.map_cons, List.nodup_cons]
      refine ⟨fun hmem => ?_, ih hrest hnodup.2 fun hdefined => (hne hdefined).2⟩
      obtain ⟨e, he, hname⟩ := List.mem_map.mp hmem
      rcases of_mem_takeOver hrest he with he | ⟨hdefined, c, -, rfl⟩
      · exact hnodup.1 (List.mem_map.mpr ⟨e, he, hname⟩)
      · exact (hne hdefined).1 hname
    · split at h
      · exact ih h hnodup.2 nofun
      · next hdefined =>
        obtain ⟨rest, hrest, rfl⟩ := Option.map_eq_some_iff.mp h
        rw [List.map_cons, List.nodup_cons]
        refine ⟨fun hmem => ?_, ih hrest hnodup.2 nofun⟩
        obtain ⟨e, he, hname⟩ := List.mem_map.mp hmem
        rcases of_mem_takeOver hrest he with he | ⟨hfalse, -⟩
        · exact (hne (by simpa using hdefined)).2 (List.mem_map.mpr ⟨e, he, hname⟩)
        · contradiction

/-- The variable is defined in the end if it is no orphan itself. -/
theorem exists_definition_of_takeOver {op : Operation}
    (h : takeOver x isOrphan (op.definition? x).isSome op.definitions = some es)
    (hx : isOrphan x = false) : ∃ e ∈ es, e.name = x := by
  cases hdefined : (op.definition? x).isSome with
  | false =>
    rw [hdefined] at h
    exact exists_of_takeOver h
  | true =>
    obtain ⟨d, hd, rfl⟩ := Operation.definition?_isSome.mp hdefined
    exact ⟨d, mem_takeOver h hd hx, rfl⟩

end VariableDefinition

namespace Document

variable {name x : String} {v : Value} {d e : Document}

/-- The value of an argument that a text stands for is made of names, without variables. -/
theorem formed_of_argumentValue {raw : String} {current : Value}
    (h : d.argumentValue raw current = .ok v) : v.Formed true := by
  unfold argumentValue at h
  split at h
  · split at h
    · exact Value.formed_of_ofText h
    · obtain rfl := Except.ok.inj h
      cases hliteral : Value.literal? raw.toList with
      | none => exact ⟨rfl, rfl, fun _ => rfl⟩
      | some w => exact Value.formed_of_literal? hliteral
  · exact Value.formed_of_ofTextLike h

theorem kind_ne_var_of_argumentValue {raw : String} {current : Value}
    (h : d.argumentValue raw current = .ok v) : v.kind ≠ .var := by
  have hconstant : v.isConstant = true := (formed_of_argumentValue h).isConstant rfl
  intro hvar
  obtain ⟨x, rfl⟩ := Value.kind_eq_var_iff.mp hvar
  contradiction

/-- A value that is no variable: literals change, and variables get it as default. -/
def assign (name : String) (v : Value) (d : Document) : Except EditError Document :=
  Folder.outcome
    ((Folder.visited d.operation).findSome? (Folder.failure? (Argument.assign name v)))
    (d.map (Folder.result (Argument.assign name v))
      (VariableDefinition.assign (d.operation.boundVariables name) v))

/-- Binds the arguments named `name` to the variable `x`, if there are any. -/
def rebind (name x : String) (d : Document) : Except EditError Document :=
  if d.operation.allArguments.any (·.name == name) then
    (d.map (Argument.rebind name x) id).takeOver x
      ((d.operation.boundVariables name).filter (· != x))
  else
    .ok d

/-- A literal is assigned exactly if it is to each argument, and then everything stays in place. -/
theorem assign_ok_iff :
    d.assign name v = .ok e ↔
      (∀ a ∈ d.operation.allArguments,
        Argument.assign name v a = .ok (Folder.result (Argument.assign name v) a)) ∧
      e = d.map (Folder.result (Argument.assign name v))
        (VariableDefinition.assign (d.operation.boundVariables name) v) := by
  rw [assign, Folder.outcome_ok_iff, List.findSome?_eq_none_iff]
  simp only [Folder.mem_visited, Folder.failure?_eq_none_iff]

theorem assign_of_absent (habsent : ∀ a ∈ d.operation.allArguments, a.name ≠ name) :
    d.assign name v = .ok d := by
  have hself (a : Argument) (ha : a ∈ d.operation.allArguments) :
      Argument.assign name v a = .ok a := if_neg fun hcond => habsent a ha hcond.1
  have hresult (a : Argument) (ha : a ∈ d.operation.allArguments) :
      Folder.result (Argument.assign name v) a = a := by rw [Folder.result, hself a ha]
  have hbound : ∀ x, x ∉ d.operation.boundVariables name := by
    intro x hx
    obtain ⟨a, ha, hname, -⟩ := Operation.mem_boundVariables.mp hx
    exact habsent a ha hname
  refine assign_ok_iff.mpr ⟨fun a ha => ?_, (map_eq_self hresult fun u _ => ?_).symm⟩
  · rw [hresult a ha, hself a ha]
  · simp [VariableDefinition.assign, hbound]

/-- Whether a variable has no reference left once the arguments are bound to `x`. -/
def isFreed (d : Document) (name x y : String) : Bool :=
  (d.operation.boundVariables name).contains y && y != x &&
    !(d.map (Argument.rebind name x) id).mentions y

theorem isFreed_self (d : Document) (name x : String) : d.isFreed name x x = false := by
  simp [isFreed]

/-- Where there are arguments to bind, definitions are taken over from those that become free. -/
theorem rebind_eq (hany : ∃ a ∈ d.operation.allArguments, a.name = name) :
    d.rebind name x =
      match VariableDefinition.takeOver x (d.isFreed name x) (d.operation.definition? x).isSome
          d.operation.definitions with
      | some definitions =>
        .ok { d with operation := { d.operation.map (Argument.rebind name x) id with definitions } }
      | none => .error (.undefinedVariable x) := by
  have hany : d.operation.allArguments.any (·.name == name) = true := by simpa using hany
  have hfreed : d.isFreed name x = fun y =>
      ((d.operation.boundVariables name).filter (· != x)).contains y &&
        !(d.map (Argument.rebind name x) id).mentions y := by
    funext y
    simp only [isFreed, List.contains_eq_mem, List.mem_filter, Bool.decide_and, Bool.decide_eq_true]
  have hdefinitions : (d.map (Argument.rebind name x) id).operation.definitions =
      d.operation.definitions := List.map_id _
  rw [rebind, if_pos hany, hfreed, takeOver]
  simp only [Operation.definition?, hdefinitions]
  rfl

theorem rebind_of_absent (habsent : ∀ a ∈ d.operation.allArguments, a.name ≠ name) :
    d.rebind name x = .ok d := by
  rw [rebind, if_neg (by simpa using habsent)]

/-- Only which variables are replaced matters to taking over. -/
theorem takeOver_congr {replaced others : List String} (h : ∀ y, y ∈ replaced ↔ y ∈ others) :
    d.takeOver x replaced = d.takeOver x others := by
  simp only [takeOver, List.contains_eq_mem, h]

/-- The arguments that are counted are those of the name. -/
theorem rewrites_eq_zero_iff {r : Rewriting}
    (h : Rewriting.Noted name v (Folder.visited d.operation) {} r) :
    r.rewrites = 0 ↔ ∀ a ∈ d.operation.allArguments, a.name ≠ name := by
  rw [h.rewrites_eq, Nat.zero_add, List.countP_eq_zero]
  simp only [Folder.mem_visited, beq_iff_eq, ne_eq]

theorem setArgument_eq_assign (hv : v.kind ≠ .var) : d.setArgument name v = d.assign name v := by
  obtain ⟨r, hnoted, hrewrite⟩ := d.rewrite_eq name v
  have herror : r.error =
      (Folder.visited d.operation).findSome? (Folder.failure? (Argument.assign name v)) := by
    rw [hnoted.error_eq, Option.none_or, Argument.given_of_literal hv]
  have hbound (u : VariableDefinition) :
      u.assign r.bound v = u.assign (d.operation.boundVariables name) v := by
    refine VariableDefinition.assign_congr fun y => ?_
    simp [hnoted.mem_bound_iff, hv, Operation.mem_boundVariables, Folder.mem_visited]
  rw [Argument.given_of_literal hv, funext hbound] at hrewrite
  unfold setArgument
  simp only [hrewrite]
  split
  · next error hsome => rw [assign, ← herror, hsome, Folder.outcome]
  · next hnone =>
    split
    · next hzero => exact (assign_of_absent ((rewrites_eq_zero_iff hnoted).mp hzero)).symm
    · split
      · exact absurd rfl hv
      · rw [assign, ← herror, hnone, Folder.outcome]

theorem setArgument_var : d.setArgument name (.var x) = d.rebind name x := by
  obtain ⟨r, hnoted, hrewrite⟩ := d.rewrite_eq name (.var x)
  have herror : r.error = none := by
    rw [hnoted.error_eq, Option.none_or, List.findSome?_eq_none_iff]
    exact fun a _ => rfl
  have hbound (u : VariableDefinition) : u.assign r.bound (.var x) = id u := by
    refine if_neg fun hmem => ?_
    simp [hnoted.mem_bound_iff, Value.kind] at hmem
  have hreplaced (y : String) :
      y ∈ r.replaced ↔ y ∈ (d.operation.boundVariables name).filter (· != x) := by
    have hdiffers : Value.var x ≠ .var y ↔ y ≠ x := by rw [ne_eq, Value.var.injEq, eq_comm]
    simp only [hnoted.mem_replaced_iff, Folder.mem_visited, Value.kind, hdiffers, List.mem_filter,
      Operation.mem_boundVariables, bne_iff_ne, List.not_mem_nil, false_or, true_and]
    exact and_comm
  rw [funext hbound] at hrewrite
  unfold setArgument
  simp only [hrewrite, herror]
  split
  · next hzero => exact (rebind_of_absent ((rewrites_eq_zero_iff hnoted).mp hzero)).symm
  · next hzero =>
    have hany : d.operation.allArguments.any (·.name == name) = true := by
      rw [rewrites_eq_zero_iff hnoted] at hzero
      simpa using hzero
    rw [rebind, if_pos hany, takeOver_congr hreplaced]
    rfl

/-- A document is bound to `x` either because there is nothing to bind, or by taking over from the
definitions that become free. -/
theorem rebind_cases (h : d.rebind name x = .ok e) :
    (∀ a ∈ d.operation.allArguments, a.name ≠ name) ∧ e = d ∨
      (∃ a ∈ d.operation.allArguments, a.name = name) ∧
      ∃ definitions, VariableDefinition.takeOver x (d.isFreed name x)
          (d.operation.definition? x).isSome d.operation.definitions = some definitions ∧
        e.operation = { d.operation.map (Argument.rebind name x) id with definitions } ∧
        e.auxiliary = d.auxiliary := by
  by_cases hany : ∃ a ∈ d.operation.allArguments, a.name = name
  · rw [rebind_eq hany] at h
    split at h
    · next definitions htake =>
      obtain rfl := Except.ok.inj h
      exact .inr ⟨hany, definitions, htake, rfl, rfl⟩
    · contradiction
  · have habsent : ∀ a ∈ d.operation.allArguments, a.name ≠ name := by simpa using hany
    rw [rebind_of_absent habsent] at h
    exact .inl ⟨habsent, (Except.ok.inj h).symm⟩

theorem rebind_id_of_absent (habsent : ∀ a ∈ d.operation.allArguments, a.name ≠ name) :
    d.map (Argument.rebind name x) id = d :=
  map_eq_self (fun a ha => if_neg (habsent a ha)) fun _ _ => rfl

theorem allArguments_of_rebind (h : d.rebind name x = .ok e) :
    e.operation.allArguments = d.operation.allArguments.map (Argument.rebind name x) := by
  have hmap : (d.map (Argument.rebind name x) id).operation.allArguments =
      d.operation.allArguments.map (Argument.rebind name x) := Operation.allArguments_map _ id _
  rcases rebind_cases h with ⟨habsent, rfl⟩ | ⟨-, definitions, -, hoperation, -⟩
  · rw [← hmap, rebind_id_of_absent habsent]
  · rw [hoperation, ← hmap]
    rfl

/-- Which variables a document still mentions does not depend on the definitions taken over. -/
theorem mentions_of_rebind (h : d.rebind name x = .ok e) (y : String) :
    e.mentions y = (d.map (Argument.rebind name x) id).mentions y := by
  rcases rebind_cases h with ⟨habsent, rfl⟩ | ⟨-, definitions, -, hoperation, hauxiliary⟩
  · rw [rebind_id_of_absent habsent]
  · simp only [mentions, hoperation, hauxiliary, map]

end Document

end QueryCraft
