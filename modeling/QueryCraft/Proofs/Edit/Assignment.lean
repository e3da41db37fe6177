import QueryCraft.Proofs.Edit.Binding

/-!
Giving the arguments of one name a value that is no variable: when it fails, and what exactly it
changes.
-/

namespace QueryCraft

namespace Value

/-- Whether `new` takes the place of the literal `existing` as it is. -/
def fits (new existing : Value) : Bool :=
  new.kind == existing.kind || existing.kind == .null || new.kind == .null

theorem conform_of_fits {new existing : Value} (h : new.fits existing = true) :
    new.conform existing = .ok new := by
  simp only [fits, Bool.or_eq_true, beq_iff_eq, or_assoc] at h
  rw [conform, if_pos h]

/-- A value that does not fit is read from its text as one of the kind that it replaces. -/
theorem kind_of_conform {new existing v : Value} (hfits : new.fits existing = false)
    (h : new.conform existing = .ok v) : v.kind = existing.kind := by
  rcases conform_cases h with rfl | ⟨hkind, -⟩
  · unfold conform at h
    simp only [fits, Bool.or_eq_false_iff, beq_eq_false_iff_ne] at hfits
    rw [if_neg (by simp [hfits])] at h
    split at h
    · contradiction
    · exact kind_of_ifOfKind (orExpected_ok h)
  · exact hkind

end Value

namespace Argument

variable {name : String} {v : Value} {a b : Argument}

/-- Whether the argument is a literal of the given name for which `v` cannot be converted. -/
def refuses (name : String) (v : Value) (a : Argument) : Bool :=
  a.name == name && a.value.kind != .var && !(v.conform a.value).isOk

/-- How an argument stands before and after the arguments named `name` are given the literal `v`. -/
structure Assigned (name : String) (v : Value) (a b : Argument) : Prop where
  sameName : b.name = a.name
  ofOtherName : a.name ≠ name → b = a
  ofVariable : a.value.kind = .var → b = a
  ofFitting : a.name = name → a.value.kind ≠ .var → v.fits a.value = true → b.value = v
  ofConverted : a.name = name → a.value.kind ≠ .var → v.fits a.value = false →
    b.value.kind = a.value.kind ∧ v.conform a.value = .ok b.value

theorem assigned_of_assign (h : assign name v a = .ok b) : Assigned name v a b := by
  have hother (hne : ¬(a.name = name ∧ a.value.kind ≠ .var)) : b = a := by
    rw [assign, if_neg hne] at h
    exact (Except.ok.inj h).symm
  refine ⟨name_of_assign h, fun hne => hother fun hcond => hne hcond.1,
    fun hvar => hother fun hcond => hcond.2 hvar, fun hname hkind hfits => ?_,
    fun hname hkind hfits => ?_⟩
  · have hconform := conform_of_assign h hname hkind
    rw [Value.conform_of_fits hfits] at hconform
    exact (Except.ok.inj hconform).symm
  · have hconform := conform_of_assign h hname hkind
    exact ⟨Value.kind_of_conform hfits hconform, hconform⟩

/-- Assigning fails on an argument exactly if it refuses the value, and the error carries the name
of the argument and the text of the value. -/
theorem failure?_assign :
    Folder.failure? (assign name v) a =
      if a.refuses name v then
        match v.conform a.value with
        | .ok _ => none
        | .error expected => some (.coercion name v.rawText expected)
      else none := by
  by_cases hcond : a.name = name ∧ a.value.kind ≠ .var
  · have hrefuses : a.refuses name v = !(v.conform a.value).isOk := by simp [refuses, hcond]
    rw [hrefuses, Folder.failure?, assign, if_pos hcond]
    cases v.conform a.value <;> rfl
  · have hrefuses : a.refuses name v = false := by
      simp only [refuses, Bool.and_eq_false_iff, beq_eq_false_iff_ne, bne_eq_false_iff_eq]
      by_cases hname : a.name = name
      · exact .inl (.inr (by simpa [hname] using hcond))
      · exact .inl (.inl hname)
    rw [hrefuses, Folder.failure?, assign, if_neg hcond]
    rfl

theorem failure?_assign_some {e : EditError} :
    Folder.failure? (assign name v) a = some e ↔
      a.refuses name v = true ∧
        ∃ expected, v.conform a.value = .error expected ∧
          e = .coercion name v.rawText expected := by
  rw [failure?_assign]
  cases hconform : v.conform a.value with
  | ok w => simp [refuses, hconform, Except.isOk, Except.toBool]
  | error expected => by_cases h : a.refuses name v = true <;> simp [h, eq_comm]

theorem failure?_assign_none :
    Folder.failure? (assign name v) a = none ↔ a.refuses name v = false := by
  rw [failure?_assign]
  cases hconform : v.conform a.value with
  | ok w => simp [refuses, hconform, Except.isOk, Except.toBool]
  | error expected => by_cases h : a.refuses name v = true <;> simp [h]

end Argument

/-- How a variable definition stands before and after the arguments that `isBound` is about are
given the literal `v`. -/
structure VariableDefinition.Assigned (isBound : Prop) (v : Value) (d e : VariableDefinition) :
    Prop where
  sameName : e.name = d.name
  sameType : e.type = d.type
  ofBound : isBound → e.default = some v
  ofOther : ¬isBound → e.default = d.default

theorem VariableDefinition.assigned_of_assign {op : Operation} {name : String} (v : Value)
    (d : VariableDefinition) :
    Assigned (∃ a ∈ op.allArguments, a.name = name ∧ a.value = .var d.name) v d
      (d.assign (op.boundVariables name) v) := by
  refine ⟨name_assign _ v d, type_assign _ v d, fun hbound => ?_, fun hfree => ?_⟩
  · rw [assign, if_pos (List.contains_iff_mem.mpr (Operation.mem_boundVariables.mpr hbound))]
  · rw [assign, if_neg fun hmem =>
      hfree (Operation.mem_boundVariables.mp (List.contains_iff_mem.mp hmem))]

namespace Document

variable {d e : Document} {name : String} {v : Value}

/-- An assignment fails as it does on the first argument that refuses the value. -/
theorem assign_error_iff {error : EditError} :
    d.assign name v = .error error ↔
      ∃ front a rest expected, Folder.visited d.operation = front ++ a :: rest ∧
        (∀ b ∈ front, b.refuses name v = false) ∧ a.refuses name v = true ∧
        v.conform a.value = .error expected ∧ error = .coercion name v.rawText expected := by
  rw [assign, Folder.outcome_error_iff, List.findSome?_eq_some_iff]
  simp only [Argument.failure?_assign_some, Argument.failure?_assign_none]
  constructor
  · rintro ⟨front, a, rest, hvisited, ⟨hrefuses, expected, hconform, rfl⟩, hfront⟩
    exact ⟨front, a, rest, expected, hvisited, hfront, hrefuses, hconform, rfl⟩
  · rintro ⟨front, a, rest, expected, hvisited, hfront, hrefuses, hconform, rfl⟩
    exact ⟨front, a, rest, hvisited, ⟨hrefuses, expected, hconform, rfl⟩, hfront⟩

/-- An assignment succeeds exactly if no argument refuses the value. -/
theorem assign_fails_iff :
    (∃ error, d.assign name v = .error error) ↔
      ∃ a ∈ d.operation.allArguments, a.refuses name v = true := by
  constructor
  · rintro ⟨error, h⟩
    obtain ⟨front, a, rest, -, hvisited, -, hrefuses, -⟩ := assign_error_iff.mp h
    have ha : a ∈ Folder.visited d.operation := by simp [hvisited]
    exact ⟨a, Folder.mem_visited.mp ha, hrefuses⟩
  · rintro ⟨a, ha, hrefuses⟩
    cases h : d.assign name v with
    | error error => exact ⟨error, rfl⟩
    | ok e =>
      have hok := (assign_ok_iff.mp h).1 a ha
      rw [← Folder.failure?_eq_none_iff, Argument.failure?_assign_none, hrefuses] at hok
      contradiction

/-- Giving the arguments of one name a literal fails exactly if one of them holds a literal for
which it cannot be converted, as on the first such one that a fold visits. Otherwise only the
literals of that name change, and the defaults of the variables that arguments of that name are
bound to. -/
theorem setArgument_of_literal (d : Document) (name : String) {v : Value} (hv : v.kind ≠ .var) :
    ((∃ error, d.setArgument name v = .error error) ↔
      ∃ a ∈ d.operation.allArguments, a.refuses name v = true) ∧
    (∀ error, d.setArgument name v = .error error →
      ∃ front a rest expected, Folder.visited d.operation = front ++ a :: rest ∧
        (∀ b ∈ front, b.refuses name v = false) ∧ a.refuses name v = true ∧
        v.conform a.value = .error expected ∧ error = .coercion name v.rawText expected) ∧
    ∀ e, d.setArgument name v = .ok e →
      ∃ f g, e = d.map f g ∧
        (∀ a ∈ d.operation.allArguments, a.Assigned name v (f a)) ∧
        ∀ w ∈ d.operation.definitions,
          w.Assigned (∃ a ∈ d.operation.allArguments, a.name = name ∧ a.value = .var w.name) v
            (g w) := by
  rw [setArgument_eq_assign hv]
  refine ⟨assign_fails_iff, fun error => assign_error_iff.mp, fun e h => ?_⟩
  obtain ⟨hassign, rfl⟩ := assign_ok_iff.mp h
  refine ⟨_, _, rfl, fun a ha => ?_, fun w _ => ?_⟩
  · exact Argument.assigned_of_assign (hassign a ha)
  · exact VariableDefinition.assigned_of_assign v w

/-- An argument in each place that can hold one, two of them bound to a variable. -/
private def feed : Document where
  operation :=
    { name := some "Feed"
      definitions := [⟨"n", .named "Int" true, none⟩, ⟨"m", .named "Int" true, some (.int 1)⟩]
      directives := [⟨"page", [⟨"first", .var "n"⟩]⟩]
      selections :=
        [.branch ⟨none, "posts", [⟨"first", .int 5⟩, ⟨"after", .var "m"⟩], []⟩
          [.leaf ⟨none, "tags", [], [⟨"cap", [⟨"first", .null⟩]⟩]⟩]] }
  auxiliary := [⟨.fragmentDefinition, "fragment F on Post { tags(first: 5) }"⟩]

theorem setArgument_of_literal_feed :
    (∃ error, feed.setArgument "first" (.string "many") = .error error) ∧
    ∃ e, feed.setArgument "first" (.string "10") = .ok e ∧
      ∃ f g, e = feed.map f g ∧
        (∀ a ∈ feed.operation.allArguments, a.Assigned "first" (.string "10") (f a)) ∧
        ∀ w ∈ feed.operation.definitions,
          w.Assigned (∃ a ∈ feed.operation.allArguments, a.name = "first" ∧ a.value = .var w.name)
            (.string "10") (g w) := by
  have hmany : ∃ a ∈ feed.operation.allArguments, a.refuses "first" (.string "many") = true :=
    ⟨⟨"first", .int 5⟩, .tail _ (.head _), by decide⟩
  have hnone : ¬∃ a ∈ feed.operation.allArguments, a.refuses "first" (.string "10") = true := by
    decide
  refine ⟨(setArgument_of_literal feed "first" (by decide)).1.mpr hmany, ?_⟩
  cases h : feed.setArgument "first" (.string "10") with
  | error error =>
    exact absurd ((setArgument_of_literal feed "first" (by decide)).1.mp ⟨error, h⟩) hnone
  | ok e => exact ⟨e, rfl, (setArgument_of_literal feed "first" (by decide)).2.2 e h⟩

end Document

end QueryCraft
